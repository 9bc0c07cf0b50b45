import Mathlib.Algebra.Order.BigOperators.Group.List
import PlanOptimizer.Proofs.Memo.Grading
import PlanOptimizer.Proofs.Rules.Scope

/-!
# Bounded memos

A graded memo is within a scope if its candidates and the weights and heights of its groups
are.  Inserting the inputs of a rewrite keeps that (`Memo.Within.offered`).

There are finitely many groups within a scope, and finitely many candidates
(`Memo.Within.size_le` and `Memo.Within.candidateCount_le`).  Every group is the home of one of
its candidates, so different groups have different ones.  The groups under a candidate are on a
lower *level* than the group, and the levels are numbers.  So the groups are counted level by
level: on each level, there are at most as many groups as there are shapes over those below.
-/

namespace PlanOptimizer

open Relation

/-! ## Levels -/

namespace Scope

variable (S : Scope) (G : Grading)

/-- The level of a group, by its weight and its height. -/
def level (id : GroupId) : Nat := G.weight id * (S.height + 1) + G.height id

/-- The highest level. -/
def top : Nat := S.weight * (S.height + 1) + S.height

/-- How many groups there are below a level, at most. -/
noncomputable def census : Nat → Nat
  | 0 => 0
  | k + 1 => S.spread (census k)

/-- How many groups there are, at most. -/
noncomputable def groups : Nat := S.census (S.top + 1)

/-- How many candidates there are in all groups, at most. -/
noncomputable def candidates : Nat := S.groups * S.spread S.groups

end Scope

namespace Memo

variable {m m₁ m' : Memo} {S : Scope} {G G' : Grading} {id j : GroupId} {s c : Shape}
  {W : GroupId → Nat}

/-! ## Homes -/

/-- Every group is the home of one of its candidates. -/
def Homed (m : Memo) : Prop := ∀ i < m.size, ∃ c, m.Candidate i c ∧ m.home? c = some i

theorem Candidate.extends (h : m.Candidate id c) (hext : m.Extends m') : m'.Candidate id c := by
  obtain ⟨g, hg, hc⟩ := h
  obtain ⟨g', hg', hgext⟩ := hext.group hg
  exact ⟨g', hg', hgext.mem hc⟩

theorem Homed.extends (h : m.Homed) (hext : m.Extends m') (hsize : m'.size = m.size) : m'.Homed := by
  intro i hi
  obtain ⟨c, hc, hhome⟩ := h i (hsize ▸ hi)
  exact ⟨c, hc.extends hext, hext.home? hhome⟩

theorem Homed.withGroup (h : m.Homed) (hlive : ∀ i ∈ s.inputs, i < m.size)
    (hfresh : m.home? s = none) : (m.withGroup s).Homed := by
  have hext : m.Extends (m.withGroup s) := (Quiet.create (.create hlive hfresh)).extends
  intro i hi
  rw [size_withGroup] at hi
  rcases Nat.lt_succ_iff_lt_or_eq.mp hi with hlt | rfl
  · obtain ⟨c, hc, hhome⟩ := h i hlt
    exact ⟨c, hc.extends hext, hext.home? hhome⟩
  · exact ⟨s, candidate_withGroup_iff.mpr (.inr ⟨rfl, rfl⟩), by rw [home?_withGroup, if_pos rfl]⟩

theorem Homed.grows (h : m.Homed) (hgrows : m.Grows m') : m'.Homed := by
  induction hgrows with
  | refl => exact h
  | tail _ hcreate ih =>
    obtain ⟨hlive, hfresh⟩ := hcreate
    exact ih.withGroup hlive hfresh

/-! ## Memos within a scope -/

/-- A graded memo within a scope. -/
structure Within (m : Memo) (S : Scope) (G : Grading) : Prop where
  graded : m.Graded G
  /-- Candidates are made of what the scope lists. -/
  has : ∀ {id c}, m.Candidate id c → S.Has c
  weight : ∀ i < m.size, G.weight i ≤ S.weight
  /-- A group may be high if it is heavy. -/
  height : ∀ i < m.size, G.height i ≤ S.slack + 3 * G.weight i
  homed : m.Homed

theorem Within.height_le (h : m.Within S G) (hid : id < m.size) : G.height id ≤ S.height := by
  have hheight := h.height id hid
  have hweight := h.weight id hid
  unfold Scope.height
  omega

/-- One more candidate that its group admits. -/
theorem Within.of_candidates (h : m.Within S G) (hs : S.Has s) (hadmits : G.Admits id s)
    (hext : m.Extends m') (hsize : m'.size = m.size)
    (hcand : ∀ {j c}, m'.Candidate j c → m.Candidate j c ∨ j = id ∧ c = s) : m'.Within S G where
  graded := Graded.of_candidates h.graded hadmits hcand
  has hc := by
    rcases hcand hc with hc | ⟨-, rfl⟩
    · exact h.has hc
    · exact hs
  weight i hi := h.weight i (hsize ▸ hi)
  height i hi := h.height i (hsize ▸ hi)
  homed := h.homed.extends hext hsize

theorem Within.withGroup (h : m.Within S G) (hv : m.Valid) (hlive : ∀ i ∈ s.inputs, i < m.size)
    (hfresh : m.home? s = none) (hs : S.Has s) (hweight : Meaning.weight.shape G.weight s ≤ S.weight)
    (hheight : G.heightOf s ≤ S.slack + 3 * Meaning.weight.shape G.weight s) :
    (m.withGroup s).Within S (G.extend m.size s) := by
  have hagrees := G.agrees_extend m.size s
  refine ⟨Graded.withGroup h.graded hv hlive, fun hc => ?_, fun i hi => ?_, fun i hi => ?_,
    h.homed.withGroup hlive hfresh⟩
  · rcases candidate_withGroup_iff.mp hc with hc | ⟨-, rfl⟩
    · exact h.has hc
    · exact hs
  · rw [size_withGroup] at hi
    rcases Nat.lt_succ_iff_lt_or_eq.mp hi with hlt | rfl
    · rw [(hagrees i hlt).2.1]
      exact h.weight i hlt
    · rw [Grading.weight_extend]
      exact hweight
  · rw [size_withGroup] at hi
    rcases Nat.lt_succ_iff_lt_or_eq.mp hi with hlt | rfl
    · rw [(hagrees i hlt).2.1, (hagrees i hlt).2.2]
      exact h.height i hlt
    · rw [Grading.weight_extend, Grading.height_extend]
      exact hheight

/-! ### Inserting -/

theorem has_of_over? {n : Node Plan} (hn : S.Has n) (hs : m.over? n = some s) : S.Has s := by
  cases n with
  | scan op =>
    cases hs
    exact hn
  | unary op a =>
    obtain ⟨x, -, rfl⟩ := over?_unary_iff.mp hs
    exact (Scope.has_map (f := fun _ => x)).mpr hn
  | join j a b =>
    obtain ⟨x, y, -, -, rfl⟩ := over?_join_iff.mp hs
    exact hn

/-- The groups of a plan exist, and they have the given weights. -/
def Weighs (m : Memo) (G : Grading) (W : GroupId → Nat) (p : Plan) : Prop :=
  ∀ i ∈ p.groups, i < m.size ∧ G.weight i = W i

theorem Weighs.grows {p : Plan} (h : m.Weighs G W p) (hgrows : m.Grows m')
    (hagrees : G.Agrees G' m.size) : m'.Weighs G' W p := by
  intro i hi
  obtain ⟨hlt, hweight⟩ := h i hi
  exact ⟨hgrows.extends.size_le hlt, (hagrees i hlt).2.1.trans hweight⟩

/-- A group may be made for an operator over groups that are found. -/
theorem Within.enter (h : m.Within S G) (hv : m.Valid) {n : Node Plan} (hn : S.Fits W n)
    (hgroups : m.Weighs G W n.plan) (hs : m.over? n = some s) {r : Except Fault GroupId}
    (hrun : (Memo.enter s).runOn m = (r, m')) : ∃ G', G.Agrees G' m.size ∧ m'.Within S G' := by
  rw [runOn_enter] at hrun
  cases hhome : m.home? s with
  | some i =>
    rw [hhome] at hrun
    cases hrun
    exact ⟨G, .refl G _, h⟩
  | none =>
    rw [hhome] at hrun
    cases hrun
    have hweight : Meaning.weight.shape G.weight s = Meaning.weight.value W n.plan :=
      (Meaning.Models.over? (Graded.weights h.graded) hv hs).trans
        (Meaning.value_congr fun i hi => (hgroups i hi).2)
    refine ⟨_, G.agrees_extend _ _, h.withGroup hv (hv.live_over? hs) hhome (has_of_over? hn.has hs)
      (hweight ▸ hn.weight) ?_⟩
    cases n with
    | unary op a =>
      obtain ⟨x, hx, rfl⟩ := over?_unary_iff.mp hs
      cases op with
      | filter p =>
        have hslim := hn.slim p a rfl
        have hheight := h.height x (hv.lt_of_find? hx)
        show G.height x + p.bulk ≤ S.slack + 3 * (G.weight x + p.clauses.length)
        omega
      | _ => exact Nat.zero_le _
    | scan op =>
      cases hs
      exact Nat.zero_le _
    | join j a b =>
      obtain ⟨x, y, -, -, rfl⟩ := over?_join_iff.mp hs
      exact Nat.zero_le _

/-- The operator on top of a plan comes in over the groups that its inputs have been given. -/
theorem Within.enter_last {G₀ : Grading} {n : Node Plan} (h : m₁.Within S G) (hv : m₁.Valid)
    (hgrows : m.Grows m₁) (hagrees : G₀.Agrees G m.size) (hgroups : m₁.Weighs G W n.plan)
    (hn : S.Fits W n) (hs : m₁.over? n = some s) :
    ∃ x m' G', (Memo.enter s).runOn m₁ = (.ok x, m') ∧ m.Grows m' ∧ m₁.Extends m' ∧
      m'.home? s = some x ∧ G₀.Agrees G' m.size ∧ m'.Within S G' := by
  obtain ⟨x, m', hrun, hgrows', hhome⟩ := enter_cases (hv.live_over? hs)
  obtain ⟨G', hagrees', h'⟩ := h.enter hv hn hgroups hs hrun
  exact ⟨x, m', G', hrun, hgrows.trans hgrows', hgrows'.extends, hhome,
    hagrees.trans hagrees' hgrows.size_le, h'⟩

/-- A plan whose operators fit is inserted within the scope. -/
theorem Within.insert {p : Plan} : ∀ {m G}, m.Within S G → m.Valid → m.Weighs G W p →
    p.Each (S.Fits W) → ∃ x m' G', (Memo.insert p).runOn m = (.ok x, m') ∧ m.Grows m' ∧
      m'.find? p = some x ∧ G.Agrees G' m.size ∧ m'.Within S G' := by
  induction p with
  | scan op =>
    intro m G h hv hgroups heach
    obtain ⟨x, m', G', hrun, hgrows, -, hhome, hagrees, h'⟩ :=
      h.enter_last (n := .scan op) hv .refl (.refl G _) hgroups heach rfl
    exact ⟨x, m', G', hrun, hgrows, hhome, hagrees, h'⟩
  | unary op a ih =>
    intro m G h hv hgroups heach
    obtain ⟨y, m₁, G₁, hrun₁, hgrows₁, hy, hagrees₁, h₁⟩ := ih h hv hgroups heach.2
    obtain ⟨x, m', G', hrun, hgrows, hext, hhome, hagrees, h'⟩ :=
      h₁.enter_last (n := .unary op a) (hgrows₁.valid hv) hgrows₁ hagrees₁
        (hgroups.grows hgrows₁ hagrees₁) heach.1 (over?_unary_iff.mpr ⟨y, hy, rfl⟩)
    refine ⟨x, m', G', ?_, hgrows, find?_unary_iff.mpr ⟨y, find?_mono hext hy, hhome⟩, hagrees, h'⟩
    rw [runOn_insert_unary, Edit.runOn_bind_of_ok hrun₁, hrun]
  | join j a b iha ihb =>
    intro m G h hv hgroups heach
    obtain ⟨hleft, hright⟩ := List.forall_mem_append.mp hgroups
    obtain ⟨y, m₁, G₁, hrun₁, hgrows₁, hy, hagrees₁, h₁⟩ := iha h hv hleft heach.2.1
    obtain ⟨z, m₂, G₂, hrun₂, hgrows₂, hz, hagrees₂, h₂⟩ := ihb h₁ (hgrows₁.valid hv)
      (Weighs.grows (p := b) hright hgrows₁ hagrees₁) heach.2.2
    have hgrown := hgrows₁.trans hgrows₂
    have hagrees₀ := hagrees₁.trans hagrees₂ hgrows₁.size_le
    have hy₂ := find?_mono hgrows₂.extends hy
    obtain ⟨x, m', G', hrun, hgrows, hext, hhome, hagrees, h'⟩ :=
      h₂.enter_last (n := .join j a b) (Grows.valid hgrown hv) hgrown hagrees₀
        (hgroups.grows hgrown hagrees₀) heach.1 (over?_join_iff.mpr ⟨y, z, hy₂, hz, rfl⟩)
    refine ⟨x, m', G', ?_, hgrows,
      find?_join_iff.mpr ⟨y, z, find?_mono hext hy₂, find?_mono hext hz, hhome⟩, hagrees, h'⟩
    rw [runOn_insert_join, Edit.runOn_bind_of_ok hrun₁, Edit.runOn_bind_of_ok hrun₂, hrun]
  | group i =>
    intro m G h hv hgroups heach
    have hfind := find?_group_iff.mpr ⟨(hgroups i (List.mem_singleton_self i)).1, rfl⟩
    exact ⟨i, m, G, runOn_insert_of_find? hfind, .refl, hfind, .refl G _, h⟩

/-- The inputs of an offered plan are inserted within the scope. -/
theorem Within.offered {p : Plan} (h : m.Within S G) (hv : m.Valid) (hgroups : m.Weighs G W p)
    (hinputs : ∀ q ∈ p.inputs, q.Each (S.Fits W)) {r : Except Fault (Option Shape)}
    (hrun : (Memo.offered id p).runOn m = (r, m')) : ∃ G', G.Agrees G' m.size ∧ m'.Within S G' := by
  cases p with
  | scan op =>
    cases hrun
    exact ⟨G, .refl G _, h⟩
  | unary op a =>
    obtain ⟨y, m₁, G₁, hrun₁, -, -, hagrees, h₁⟩ :=
      Within.insert (p := a) h hv hgroups (hinputs a (by simp [Plan.inputs]))
    obtain ⟨-, rfl⟩ := Prod.mk.inj (hrun.symm.trans (runOn_offered_unary hrun₁))
    exact ⟨G₁, hagrees, h₁⟩
  | join j a b =>
    obtain ⟨hleft, hright⟩ := List.forall_mem_append.mp hgroups
    obtain ⟨y, m₁, G₁, hrun₁, hgrows₁, -, hagrees₁, h₁⟩ :=
      Within.insert h hv hleft (hinputs a (by simp [Plan.inputs]))
    obtain ⟨z, m₂, G₂, hrun₂, -, -, hagrees₂, h₂⟩ := Within.insert h₁ (hgrows₁.valid hv)
      (Weighs.grows (p := b) hright hgrows₁ hagrees₁) (hinputs b (by simp [Plan.inputs]))
    have hsame : (Memo.offered id (.join j a b)).runOn m = (.ok (some (.join j y z)), m₂) := by
      show (some <$> (Memo.insert a >>= _)).runOn m = _
      rw [Edit.runOn_map, Edit.runOn_bind_of_ok hrun₁, Edit.runOn_bind_of_ok hrun₂]
      rfl
    obtain ⟨-, rfl⟩ := Prod.mk.inj (hrun.symm.trans hsame)
    exact ⟨G₂, hagrees₁.trans hagrees₂ hgrows₁.size_le, h₂⟩
  | group other =>
    obtain rfl : m' = m := by
      by_cases heq : other = id
      · subst heq
        exact congrArg Prod.snd (hrun.symm.trans (runOn_offered_itself m other))
      · exact congrArg Prod.snd (hrun.symm.trans (runOn_offered_group heq m))
    exact ⟨G, .refl G _, h⟩

/-! ### A scope for a memo -/

/-- Every graded memo is within some scope. -/
theorem exists_within (hG : m.Graded G) (hhomed : m.Homed) : ∃ S, m.Within S G := by
  have hfinite : {c : Shape | ∃ id, m.Candidate id c}.Finite := by
    refine (List.finite_toSet (m.groups.flatMap Group.candidates)).subset ?_
    rintro c ⟨id, g, hg, hc⟩
    exact List.mem_flatMap.mpr ⟨g, List.mem_of_getElem? hg, hc⟩
  have hle : ∀ (f : GroupId → Nat), ∀ i < m.size, f i ≤ (Finset.range m.size).sup f := fun f i hi =>
    Finset.le_sup (Finset.mem_range.mpr hi)
  obtain ⟨S, hweight, hslack, hhas⟩ := Scope.exists_scope hfinite
    ((Finset.range m.size).sup G.weight) ((Finset.range m.size).sup G.height)
  refine ⟨S, hG, fun hc => hhas _ ⟨_, hc⟩, fun i hi => hweight ▸ hle G.weight i hi, fun i hi => ?_, hhomed⟩
  have := hle G.height i hi
  omega

/-! ## Counting -/

/-- The groups under an admitted shape are on a lower level. -/
theorem Within.level_lt (h : m.Within S G) (hlive : ∀ i ∈ s.inputs, i < m.size)
    (hadmits : G.Admits id s) : ∀ i ∈ s.inputs, S.level G i < S.level G id := by
  intro i hi
  have hheight := h.height_le (hlive i hi)
  have hrank := hadmits.rank_lt i hi
  rw [Grading.rank, Grading.rank, Prod.Lex.toLex_lt_toLex] at hrank
  dsimp only at hrank
  unfold Scope.level
  rcases hrank with hlt | ⟨heq, hlt⟩
  · have hmul := Nat.mul_le_mul_right (S.height + 1) (Nat.succ_le_of_lt hlt)
    rw [Nat.succ_mul] at hmul
    omega
  · rw [heq]
    omega

theorem Within.level_le_top (h : m.Within S G) (hid : id < m.size) : S.level G id ≤ S.top :=
  Nat.add_le_add (Nat.mul_le_mul_right _ (h.weight id hid)) (h.height_le hid)

/-- A group is told by a shape over the groups below its level. -/
theorem Within.card_level_lt (h : m.Within S G) (hv : m.Valid) (k : Nat) :
    ((Finset.range m.size).filter fun i => S.level G i < k).card ≤ S.census k := by
  induction k with
  | zero => simp [Scope.census]
  | succ k ih =>
    refine le_trans ?_ (Scope.card_shapes_le ih)
    refine le_trans (Finset.card_le_card fun i hi => ?_)
      (Finset.card_image_le (f := fun c => (m.home? c).getD 0))
    obtain ⟨hsize, hlevel⟩ := Finset.mem_filter.mp hi
    obtain ⟨c, hc, hhome⟩ := h.homed i (Finset.mem_range.mp hsize)
    have hlive := hv.live hc
    refine Finset.mem_image.mpr ⟨c, Scope.mem_shapes (h.has hc) fun x hx => ?_, by rw [hhome]; rfl⟩
    refine Finset.mem_filter.mpr ⟨Finset.mem_range.mpr (hlive x hx), ?_⟩
    exact Nat.lt_of_lt_of_le (h.level_lt hlive (h.graded hc) x hx) (Nat.lt_succ_iff.mp hlevel)

/-- There are finitely many groups within a scope. -/
theorem Within.size_le (h : m.Within S G) (hv : m.Valid) : m.size ≤ S.groups := by
  have hall : (Finset.range m.size).filter (fun i => S.level G i < S.top + 1) = Finset.range m.size :=
    Finset.filter_true_of_mem fun i hi =>
      Nat.lt_succ_of_le (h.level_le_top (Finset.mem_range.mp hi))
  have hcard := h.card_level_lt hv (S.top + 1)
  rwa [hall, Finset.card_range] at hcard

theorem Within.length_candidates_le (h : m.Within S G) (hv : m.Valid) {g : Group}
    (hg : m.groups[id]? = some g) : g.candidates.length ≤ S.spread S.groups := by
  have hnodup : g.candidates.Nodup := (hv.group hg).distinct.of_map
  rw [← List.toFinset_card_of_nodup hnodup]
  have hids : (Finset.range m.size).card ≤ S.groups := by simpa using h.size_le hv
  refine (Finset.card_le_card fun c hc => ?_).trans (Scope.card_shapes_le hids)
  have hcand : m.Candidate id c := ⟨g, hg, List.mem_toFinset.mp hc⟩
  exact Scope.mem_shapes (h.has hcand) fun i hi => Finset.mem_range.mpr (hv.live hcand i hi)

/-- There are finitely many candidates within a scope. -/
theorem Within.candidateCount_le (h : m.Within S G) (hv : m.Valid) :
    m.candidateCount ≤ S.candidates := by
  have hsum := List.sum_le_card_nsmul (m.groups.map fun g => g.candidates.length)
    (S.spread S.groups) fun n hn => by
      obtain ⟨g, hg, rfl⟩ := List.mem_map.mp hn
      obtain ⟨i, hi⟩ := List.getElem?_of_mem hg
      exact h.length_candidates_le hv hi
  rw [List.length_map, nsmul_eq_mul, Nat.cast_id, ← List.length_flatMap] at hsum
  exact hsum.trans (Nat.mul_le_mul_right _ (h.size_le hv))

end Memo

end PlanOptimizer
