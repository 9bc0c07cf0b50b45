import PlanOptimizer.Proofs.Memo.Valid
import PlanOptimizer.Rule.Basic

/-!
# What is below a group

Two memos are the same below a group if all groups that its representative leads to have
the same representatives in both.  Whether a pattern fits a shape is told by what is below
the groups under it (`Rule.applies_congr`).
-/

namespace PlanOptimizer

open Relation

namespace Memo

variable {m m' m'' : Memo} {id : GroupId} {s : Shape}

/-- The representatives of a group and of all groups below it are the same in another memo. -/
def SameBelow (m m' : Memo) (id : GroupId) : Prop :=
  ∀ j, Reaches m.children id j → m'.rep? j = m.rep? j

theorem SameBelow.refl (m : Memo) (id : GroupId) : m.SameBelow m id := fun _ _ => rfl

theorem SameBelow.rep? (h : m.SameBelow m' id) : m'.rep? id = m.rep? id := h id .refl

/-- What is below a group is the same below the groups that it leads to. -/
theorem SameBelow.of_reaches (h : m.SameBelow m' id) {j : GroupId} (hj : Reaches m.children id j) :
    m.SameBelow m' j := fun k hk => h k (hj.trans hk)

/-- A group leads to the same groups in both memos. -/
theorem SameBelow.reaches (h : m.SameBelow m' id) {j : GroupId} (hj : Reaches m.children id j) :
    Reaches m'.children id j := by
  induction hj with
  | refl => exact .refl
  | @tail a b ha hab ih =>
    refine ih.tail ?_
    rwa [Links, children_congr (h a ha)]

theorem SameBelow.trans (h : m.SameBelow m' id) (h' : m'.SameBelow m'' id) : m.SameBelow m'' id :=
  fun j hj => (h' j (h.reaches hj)).trans (h j hj)

/-- The groups below a group that exists exist. -/
theorem Valid.lt_of_reaches (hv : m.Valid) (hid : id < m.size) {j : GroupId}
    (hj : Reaches m.children id j) : j < m.size := by
  rcases ReflTransGen.cases_tail hj with rfl | ⟨a, -, hlink⟩
  · exact hid
  · exact (hv.lt_of_links hlink).2

/-! ## Seeing through references -/

/-- A reference leads to the representative of its group. -/
theorem settle_group (m : Memo) (id : GroupId) :
    m.lookup.settle (.group id) =
      match m.rep? id with
      | some s => .ok (s.map Plan.group)
      | none => .error (.unknownGroup id) := by
  show m.lookup.answerWithin Lookup.settleBy m.lookup.known.length id = _
  cases hs : m.rep? id with
  | none =>
    cases m.lookup.known.length with
    | zero =>
      rw [Lookup.answerWithin, get_lookup_of_unknown hs]
      rfl
    | succ hops =>
      rw [Lookup.answerWithin, get_lookup_of_unknown hs]
      rfl
  | some s =>
    have hlt : id < m.size := rep?_isSome_iff.mp (by rw [hs]; rfl)
    obtain ⟨hops, hhops⟩ : ∃ hops, m.size = hops + 1 :=
      Nat.exists_eq_add_one.mpr (Nat.zero_lt_of_lt hlt)
    rw [length_known_lookup, hhops, Lookup.answerWithin, get_lookup_of_rep hs]
    cases s with
    | scan op => rfl
    | unary op a => rfl
    | join j a b => rfl

/-- The first operator of a plan is told by what is below the groups it refers to. -/
theorem settle_congr {p : Plan} (h : ∀ i ∈ p.groups, m.SameBelow m' i) :
    m'.lookup.settle p = m.lookup.settle p := by
  cases p with
  | group i => rw [settle_group, settle_group, (h i (List.mem_singleton_self i)).rep?]
  | scan op => rfl
  | unary op a => rfl
  | join j a b => rfl

/-- The inputs of the first operator of a plan refer to groups below those of the plan. -/
theorem sameBelow_of_settle {p : Plan} (h : ∀ i ∈ p.groups, m.SameBelow m' i) {top : Node Plan}
    (htop : m.lookup.settle p = .ok top) : ∀ q ∈ top.inputs, ∀ i ∈ q.groups, m.SameBelow m' i := by
  cases p with
  | group j =>
    rw [settle_group] at htop
    cases hs : m.rep? j with
    | none =>
      rw [hs] at htop
      cases htop
    | some s =>
      rw [hs] at htop
      cases htop
      intro q hq i hi
      rw [Node.inputs_map] at hq
      obtain ⟨x, hx, rfl⟩ := List.mem_map.mp hq
      cases List.mem_singleton.mp hi
      have hlink : Links m.children j i := (links_of_rep hs).mpr hx
      exact (h j (List.mem_singleton_self j)).of_reaches (.single hlink)
  | scan op =>
    cases htop
    intro q hq
    cases hq
  | unary op a =>
    cases htop
    intro q hq i hi
    cases List.mem_singleton.mp hq
    exact h i hi
  | join j a b =>
    cases htop
    intro q hq i hi
    rcases List.mem_pair.mp hq with rfl | rfl
    · exact h i (List.mem_append_left _ hi)
    · exact h i (List.mem_append_right _ hi)

end Memo

/-! ## Patterns -/

namespace Pattern

variable {m m' : Memo}

mutual

/-- Whether a pattern fits a plan is told by what is below the groups the plan refers to. -/
theorem fits_congr : ∀ {pattern : Pattern} {p : Plan}, (∀ i ∈ p.groups, m.SameBelow m' i) →
    pattern.fits m'.lookup p = pattern.fits m.lookup p
  | .any, _, _ => by
    unfold fits
    rfl
  | .leaf, _, h => by
    unfold fits
    rw [Memo.settle_congr h]
  | .operator kind inputs, p, h => by
    unfold fits
    rw [Memo.settle_congr h]
    cases htop : m.lookup.settle p with
    | error f => rfl
    | ok top =>
      have hinputs : fitsAll m'.lookup inputs top.inputs = fitsAll m.lookup inputs top.inputs :=
        fitsAll_congr (Memo.sameBelow_of_settle h htop)
      show (if _ then _ else _) = (if _ then _ else _)
      rw [hinputs]

theorem fitsAll_congr : ∀ {patterns : List Pattern} {ps : List Plan},
    (∀ p ∈ ps, ∀ i ∈ p.groups, m.SameBelow m' i) →
      fitsAll m'.lookup patterns ps = fitsAll m.lookup patterns ps
  | pattern :: patterns, p :: ps, h => by
    have hfirst : pattern.fits m'.lookup p = pattern.fits m.lookup p :=
      fits_congr (h p List.mem_cons_self)
    have hrest : fitsAll m'.lookup patterns ps = fitsAll m.lookup patterns ps :=
      fitsAll_congr fun q hq => h q (List.mem_cons_of_mem _ hq)
    unfold fitsAll
    rw [hfirst, hrest]
  | [], _, _ => by
    unfold fitsAll
    rfl
  | _ :: _, [], _ => by
    unfold fitsAll
    rfl

end

end Pattern

/-- Whether a rule applies to a shape is told by what is below the groups under it. -/
theorem Rule.applies_congr {rule : Rule} {m m' : Memo} {s : Shape}
    (h : ∀ i ∈ s.inputs, m.SameBelow m' i) :
    rule.applies m'.lookup s.overGroups = rule.applies m.lookup s.overGroups := by
  have hgroups : ∀ i ∈ s.overGroups.groups, m.SameBelow m' i := by
    rw [Node.groups_overGroups]
    exact h
  unfold applies
  rw [Pattern.fits_congr hgroups]

end PlanOptimizer
