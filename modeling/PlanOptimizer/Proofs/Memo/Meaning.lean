import PlanOptimizer.Proofs.Expansion
import PlanOptimizer.Proofs.Memo.Operations

/-!
# Meanings

A *meaning* tells what a plan means from what its inputs mean.  References are read
through an assignment of meanings to groups.

`Meaning.Models` says that all candidates of a group mean what is assigned to the
group.  It is what makes a group one thing: a plan that is found in the memo means what
its group means, so a part may be reused wherever it was made.  An operation keeps it, if
what is offered to a group means what the group means.  Meanings have to be assigned to
new groups then, and those of the others stay.
-/

namespace PlanOptimizer

open Relation

universe u

/-- What operators mean, given the meanings of their inputs.  Operators that are the same
up to the spelling of literals mean the same. -/
structure Meaning (V : Type u) where
  /-- What a scan means. -/
  scan : Scan → V
  /-- What an operator over one input means. -/
  unary : Unary → V → V
  /-- What a join means. -/
  join : Join → V → V → V
  /-- The spelling of a scan does not matter. -/
  scan_same : ∀ {a b : Scan}, a.canon = b.canon → scan a = scan b
  /-- The spelling of an operator over one input does not matter. -/
  unary_same : ∀ {a b : Unary} (v : V), a.canon = b.canon → unary a v = unary b v
  /-- The spelling of a join does not matter. -/
  join_same : ∀ {a b : Join} (v w : V), a.canon = b.canon → join a v w = join b v w

namespace Meaning

variable {V : Type u} (M : Meaning V)

/-- What a plan means, given the meanings of groups. -/
def value (D : GroupId → V) : Plan → V
  | .scan s => M.scan s
  | .unary op a => M.unary op (value D a)
  | .join j a b => M.join j (value D a) (value D b)
  | .group id => D id

/-- What a shape means, given the meanings of groups. -/
def shape (D : GroupId → V) : Shape → V
  | .scan s => M.scan s
  | .unary op a => M.unary op (D a)
  | .join j a b => M.join j (D a) (D b)

variable {M} {D E : GroupId → V} {m m' : Memo} {id : GroupId} {s : Shape}

@[simp] theorem value_overGroups (s : Shape) : M.value D s.overGroups = M.shape D s := by
  cases s <;> rfl

/-- The meaning of a plan depends on the groups it refers to. -/
theorem value_congr {p : Plan} (h : ∀ i ∈ p.groups, E i = D i) : M.value E p = M.value D p := by
  induction p with
  | scan s => rfl
  | unary op a ih => exact congrArg (M.unary op) (ih h)
  | join j a b iha ihb =>
    have ha := iha fun i hi => h i (List.mem_append_left _ hi)
    have hb := ihb fun i hi => h i (List.mem_append_right _ hi)
    show M.join j (M.value E a) (M.value E b) = _
    rw [ha, hb]
    rfl
  | group id => exact h id (List.mem_singleton_self id)

/-- A plan without references means the same under every assignment. -/
theorem value_of_hasGroups {p : Plan} (h : p.hasGroups = false) (D E : GroupId → V) :
    M.value D p = M.value E p := by
  exact value_congr fun i hi => absurd hi (Plan.not_mem_groups h i)

theorem shape_congr (h : ∀ i ∈ s.inputs, E i = D i) : M.shape E s = M.shape D s := by
  rw [← value_overGroups, ← value_overGroups]
  refine value_congr ?_
  rwa [Node.groups_overGroups]

/-- Shapes that are the same mean the same. -/
theorem shape_same {c : Shape} (h : c.canon = s.canon) : M.shape D c = M.shape D s := by
  cases c with
  | scan a =>
    cases s with
    | scan b => exact M.scan_same (Node.scan.inj h)
    | unary _ _ => cases h
    | join _ _ _ => cases h
  | unary a x =>
    cases s with
    | scan _ => cases h
    | unary b y =>
      obtain ⟨hop, rfl⟩ := Node.unary.inj h
      exact M.unary_same _ hop
    | join _ _ _ => cases h
  | join a x y =>
    cases s with
    | scan _ => cases h
    | unary _ _ => cases h
    | join b x' y' =>
      obtain ⟨hop, rfl, rfl⟩ := Node.join.inj h
      exact M.join_same _ _ hop

/-! ## One meaning per group -/

variable (M) in
/-- Every candidate of a group means what is assigned to the group. -/
def Models (D : GroupId → V) (m : Memo) : Prop :=
  ∀ id c, m.Candidate id c → M.shape D c = D id

theorem models_empty (D : GroupId → V) : M.Models D .empty := by
  intro id c hc
  exact absurd (Memo.lt_of_candidate hc) (Nat.not_lt_zero _)

/-- What holds of the candidates later on held of them before. -/
theorem Models.of_extends (h : M.Models D m') (hext : m.Extends m') : M.Models D m := by
  rintro id c ⟨g, hg, hc⟩
  obtain ⟨g', hg', hgext⟩ := hext.group hg
  exact h id c ⟨g', hg', hgext.mem hc⟩

/-- Only groups that exist have to be assigned a meaning. -/
theorem Models.congr (h : M.Models D m) (hv : m.Valid) (hE : ∀ i < m.size, E i = D i) :
    M.Models E m := by
  intro id c hc
  rw [hE id (Memo.lt_of_candidate hc), ← h id c hc]
  exact shape_congr fun i hi => hE i (hv.live hc i hi)

/-- One more candidate that means the same. -/
theorem Models.of_candidates (h : M.Models D m) (hs : M.shape D s = D id)
    (hcand : ∀ j c, m'.Candidate j c → m.Candidate j c ∨ j = id ∧ c = s) : M.Models D m' := by
  intro j c hc
  rcases hcand j c hc with hc | ⟨rfl, rfl⟩
  · exact h j c hc
  · exact hs

/-! ## Plans that are found -/

/-- A shape means what the group means that it came into first. -/
theorem Models.home? (h : M.Models D m) (hv : m.Valid) (hs : m.home? s = some id) :
    M.shape D s = D id := by
  obtain ⟨c, hc, hcanon⟩ := hv.housed hs
  rw [← h id c hc]
  exact (shape_same hcanon).symm

/-- A plan that is found means what its group means. -/
theorem Models.find? (h : M.Models D m) (hv : m.Valid) {p : Plan} (hp : m.find? p = some id) :
    M.value D p = D id := by
  induction p generalizing id with
  | scan op => exact h.home? hv hp
  | unary op a ih =>
    obtain ⟨x, hx, hid⟩ := Memo.find?_unary_iff.mp hp
    have hs : M.unary op (D x) = D id := h.home? hv hid
    rw [← hs, ← ih hx]
    rfl
  | join j a b iha ihb =>
    obtain ⟨x, y, hx, hy, hid⟩ := Memo.find?_join_iff.mp hp
    have hs : M.join j (D x) (D y) = D id := h.home? hv hid
    rw [← hs, ← iha hx, ← ihb hy]
    rfl
  | group i =>
    obtain ⟨-, rfl⟩ := Memo.find?_group_iff.mp hp
    rfl

theorem Models.over? (h : M.Models D m) (hv : m.Valid) {n : Node Plan} (hn : m.over? n = some s) :
    M.shape D s = M.value D n.plan := by
  cases n with
  | scan op =>
    cases hn
    rfl
  | unary op a =>
    obtain ⟨x, hx, rfl⟩ := Memo.over?_unary_iff.mp hn
    exact congrArg (M.unary op) (h.find? hv hx).symm
  | join j a b =>
    obtain ⟨x, y, hx, hy, rfl⟩ := Memo.over?_join_iff.mp hn
    show M.join j (D x) (D y) = M.join j (M.value D a) (M.value D b)
    rw [h.find? hv hx, h.find? hv hy]

/-- The shape an offered plan comes down to means what the plan means. -/
theorem Models.normal? (h : M.Models D m) (hv : m.Valid) {p : Plan} (hp : m.normal? p = some s) :
    M.shape D s = M.value D p := by
  cases p with
  | scan op => exact h.over? (n := .scan op) hv hp
  | unary op a => exact h.over? (n := .unary op a) hv hp
  | join j a b => exact h.over? (n := .join j a b) hv hp
  | group i => exact h i s (Memo.candidate_of_rep? hp)

/-! ## Operations -/

/-- A new group is assigned the meaning of its shape. -/
theorem Models.create (h : M.Models D m) (hv : m.Valid) (hcreate : Memo.Create m m') :
    ∃ E, (∀ i < m.size, E i = D i) ∧ M.Models E m' := by
  obtain ⟨hlive, -⟩ := hcreate
  rename_i s
  let E : GroupId → V := fun i => if i = m.size then M.shape D s else D i
  have hE : ∀ i < m.size, E i = D i := fun i hi => if_neg (Nat.ne_of_lt hi)
  have hat : E m.size = M.shape D s := if_pos rfl
  refine ⟨E, hE, fun id c hc => ?_⟩
  rcases Memo.candidate_withGroup_iff.mp hc with hc | ⟨rfl, rfl⟩
  · exact (h.congr hv hE) id c hc
  · rw [hat]
    exact shape_congr fun i hi => hE i (hlive i hi)

theorem Models.grows (h : M.Models D m) (hv : m.Valid) (hgrows : m.Grows m') :
    ∃ E, (∀ i < m.size, E i = D i) ∧ M.Models E m' := by
  induction hgrows with
  | refl => exact ⟨D, fun _ _ => rfl, h⟩
  | tail hfirst hlast ih =>
    obtain ⟨E, hE, hmodels⟩ := ih
    obtain ⟨F, hF, hmodels'⟩ := hmodels.create (Memo.Grows.valid hfirst hv) hlast
    refine ⟨F, fun i hi => ?_, hmodels'⟩
    rw [hF i ((Memo.Grows.extends hfirst).size_le hi), hE i hi]

/-- An offer keeps the meanings, if the plan means what the group means, however meanings
are assigned to groups that do not exist. -/
theorem Models.offering (h : M.Models D m) (hv : m.Valid) (hid : id < m.size) {model : CostModel}
    {o : Offer} {r : Except Fault Outcome}
    (hmean : ∀ E, (∀ i < m.size, E i = D i) → M.value E o.plan = D id)
    (hoffer : Memo.Offering model id o m r m') :
    ∃ E, (∀ i < m.size, E i = D i) ∧ M.Models E m' := by
  cases hoffer with
  | unknown => exact ⟨D, fun _ _ => rfl, h⟩
  | itself => exact ⟨D, fun _ _ => rfl, h⟩
  | dangling hgrows => exact h.grows hv hgrows
  | refused hgrows => exact h.grows hv hgrows
  | placed hgrows hs _ hplacement =>
    obtain ⟨E, hE, hmodels⟩ := h.grows hv hgrows
    have hsame := hmodels.normal? (hgrows.valid hv) hs
    rw [hmean E hE, ← hE id hid] at hsame
    exact ⟨E, hE, hmodels.of_candidates hsame fun j c hc => hplacement.candidates hc⟩

theorem Models.ranking (h : M.Models D m) {model : CostModel} {r : Except Fault Bool}
    (hrank : Memo.Ranking model id m r m') : M.Models D m' := by
  intro j c hc
  exact h j c (hrank.candidate_iff.mp hc)

theorem Models.explore (h : M.Models D m) {key : RuleKey} :
    M.Models D (m.edit id (·.explore key)) := by
  intro j c hc
  exact h j c ((Memo.candidate_edit_iff (f := (·.explore key)) fun _ => rfl).mp hc)

/-! ## References -/

/-- Seeing through a reference keeps the meaning. -/
theorem value_expose (hD : ∀ id s, m.rep? id = some s → M.shape D s = D id) {p q : Plan}
    (h : m.lookup.expose p = .ok q) : M.value D q = M.value D p := by
  cases p with
  | group id =>
    have hget : m.lookup.get id = .ok q := h
    cases hrep : m.rep? id with
    | none =>
      rw [Memo.get_lookup_of_unknown hrep] at hget
      cases hget
    | some s =>
      rw [Memo.get_lookup_of_rep hrep] at hget
      cases hget
      rw [value_overGroups]
      exact hD id s hrep
  | scan op =>
    cases h
    rfl
  | unary op a =>
    cases h
    rfl
  | join j a b =>
    cases h
    rfl

/-- Expansion keeps the meaning. -/
theorem Models.expand (h : M.Models D m) {path : List GroupId} {p q : Plan}
    (hexp : m.lookup.expand path p = .ok q) : M.value D q = M.value D p := by
  fun_induction Lookup.expand m.lookup path p generalizing q with
  | case1 path op =>
    cases hexp
    rfl
  | case2 path op a ih =>
    obtain ⟨a', ha, hexp⟩ := bind_eq_ok.mp hexp
    cases hexp
    exact congrArg (M.unary op) (ih ha)
  | case3 path j a b iha ihb =>
    obtain ⟨a', ha, hexp⟩ := bind_eq_ok.mp hexp
    obtain ⟨b', hb, hexp⟩ := bind_eq_ok.mp hexp
    cases hexp
    show M.join j (M.value D a') (M.value D b') = M.join j (M.value D a) (M.value D b)
    rw [iha ha, ihb hb]
  | case4 path id hpath => cases hexp
  | case5 path id hpath hfind => cases hexp
  | case6 path id hpath p hfind ih =>
    rw [ih hexp]
    rw [Memo.find_lookup] at hfind
    obtain ⟨s, hs, rfl⟩ := Option.map_eq_some_iff.mp hfind
    rw [value_overGroups]
    exact h id s (Memo.candidate_of_rep? hs)

/-- The plan a group resolves to means what the group means. -/
theorem Models.resolve (h : M.Models D m) {q : Plan}
    (hq : (Plan.group id).resolve m.lookup = .ok q) : M.value D q = D id := by
  rw [Plan.resolve_eq_expand] at hq
  exact h.expand hq

end Meaning

end PlanOptimizer
