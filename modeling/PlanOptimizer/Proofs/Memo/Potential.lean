import Mathlib.Algebra.Order.BigOperators.Group.Finset
import PlanOptimizer.Proofs.Memo.Bounded
import PlanOptimizer.Proofs.Memo.Invalidation

/-!
# The potential of a memo

The potential bounds how many more changes there can be to a memo within a scope.  A candidate
that comes in uses it up, since there are finitely many.  Without a new candidate, a change is
a turn of one group, and then the *debt* of the group falls:

* a group that has been ranked again is not stale any more,
* a replacement that revives a candidate takes a filter away, so that the group comes to a
  filter over a lower group, or to no filter.

A turn makes groups stale, but only groups on higher levels.  The debt of a group is worth less
the higher its level is, so that the debts taken together fall with every turn
(`sum_lt_of_drop`).
-/

namespace PlanOptimizer

open Relation

/-! ## Weighted debts -/

/-- Debts that are worth less on higher levels: if one falls, and others rise on higher levels
only and not too far, the sum falls. -/
theorem sum_lt_of_drop {n B U top id : ℕ} {d d' level : ℕ → ℕ} (hid : id < n)
    (hlevel : level id ≤ top) (hbase : n * U < B) (hdrop : d' id < d id)
    (hother : ∀ i < n, i ≠ id → d' i ≤ d i ∨ level id < level i ∧ d' i ≤ U) :
    ∑ i ∈ Finset.range n, d' i * B ^ (top + 1 - level i) <
      ∑ i ∈ Finset.range n, d i * B ^ (top + 1 - level i) := by
  have hB : 0 < B := Nat.lt_of_le_of_lt (Nat.zero_le _) hbase
  have hterm : ∀ i ∈ Finset.range n,
      d' i * B ^ (top + 1 - level i) + (if i = id then B ^ (top + 1 - level id) else 0) ≤
        d i * B ^ (top + 1 - level i) + U * B ^ (top - level id) := by
    intro i hi
    by_cases heq : i = id
    · subst heq
      rw [if_pos rfl, ← Nat.succ_mul]
      exact Nat.le_add_right_of_le (Nat.mul_le_mul_right _ hdrop)
    · rw [if_neg heq, Nat.add_zero]
      rcases hother i (Finset.mem_range.mp hi) heq with hle | ⟨hlt, hle⟩
      · exact Nat.le_add_right_of_le (Nat.mul_le_mul_right _ hle)
      · refine Nat.le_add_left_of_le (Nat.mul_le_mul hle ?_)
        exact Nat.pow_le_pow_right hB (by omega)
  have hsum := Finset.sum_le_sum hterm
  rw [Finset.sum_add_distrib, Finset.sum_add_distrib, Finset.sum_ite_eq',
    if_pos (Finset.mem_range.mpr hid), Finset.sum_const, Finset.card_range, nsmul_eq_mul,
    Nat.cast_id, ← Nat.mul_assoc] at hsum
  have hpow : n * U * B ^ (top - level id) < B ^ (top + 1 - level id) := by
    rw [show top + 1 - level id = (top - level id) + 1 by omega, pow_succ, Nat.mul_comm _ B]
    exact Nat.mul_lt_mul_of_pos_right hbase (Nat.pow_pos hB)
  omega

namespace Scope

variable (S : Scope) (G : Grading)

/-- How far a group is from having no filter on top. -/
def tail : Shape → Nat
  | .unary (.filter _) y => S.level G y + 1
  | _ => 0

/-- What a group has left to do. -/
def debt (g : Group) : Nat := (if g.stale then S.top + 2 else 0) + S.tail G g.shape

/-- What a group may have left to do. -/
def maxDebt : Nat := 2 * S.top + 3

/-- How much more a debt is worth than one on the next level. -/
noncomputable def base : Nat := S.groups * S.maxDebt + 1

/-- What a debt is worth. -/
noncomputable def price (id : GroupId) : Nat := S.base ^ (S.top + 1 - S.level G id)

/-- What all debts may be worth. -/
noncomputable def load : Nat := S.groups * (S.maxDebt * S.base ^ (S.top + 1))

end Scope

namespace Memo

variable {m m' : Memo} {S : Scope} {G G' : Grading} {id j : GroupId} {s c t : Shape} {g g' : Group}

/-- What a group of the memo has left to do. -/
def debt (m : Memo) (S : Scope) (G : Grading) (id : GroupId) : Nat :=
  ((m.groups[id]?).map (S.debt G)).getD 0

/-- What all debts are worth. -/
noncomputable def work (m : Memo) (S : Scope) (G : Grading) : Nat :=
  ∑ i ∈ Finset.range m.size, m.debt S G i * S.price G i

/-- How many more changes there can be. -/
noncomputable def potential (m : Memo) (S : Scope) (G : Grading) : Nat :=
  (S.candidates - m.candidateCount) * (S.load + 1) + m.work S G

theorem debt_of_group (hg : m.groups[id]? = some g) : m.debt S G id = S.debt G g := by
  rw [debt, hg]
  rfl

/-! ## Debts -/

theorem tail_le_level (h : m.Within S G) (hlive : ∀ i ∈ s.inputs, i < m.size)
    (hadmits : G.Admits id s) : S.tail G s ≤ S.level G id := by
  cases s with
  | unary op y =>
    cases op with
    | filter p => exact h.level_lt hlive hadmits y (List.mem_singleton_self y)
    | _ => exact Nat.zero_le _
  | _ => exact Nat.zero_le _

/-- Shapes that are the same up to the spelling of literals have the same filters. -/
theorem tail_of_canon (h : c.canon = s.canon) : S.tail G c = S.tail G s := by
  have hcanon : ∀ s : Shape, S.tail G s.canon = S.tail G s := fun s => by
    cases s with
    | unary op y => cases op <;> rfl
    | _ => rfl
  rw [← hcanon c, h, hcanon]

theorem tail_le (h : m.Within S G) (hlive : ∀ i ∈ s.inputs, i < m.size) :
    S.tail G s ≤ S.top + 1 := by
  cases s with
  | unary op y =>
    cases op with
    | filter p => exact Nat.succ_le_succ (h.level_le_top (hlive y (List.mem_singleton_self y)))
    | _ => exact Nat.zero_le _
  | _ => exact Nat.zero_le _

theorem debt_le (h : m.Within S G) (hv : m.Valid) (hg : m.groups[id]? = some g) :
    S.debt G g ≤ S.maxDebt := by
  have htail := tail_le h (hv.live_rep (rep?_of_group hg))
  unfold Scope.debt Scope.maxDebt
  split <;> omega

theorem work_le (h : m.Within S G) (hv : m.Valid) : m.work S G ≤ S.load := by
  have hterm : ∀ i ∈ Finset.range m.size,
      m.debt S G i * S.price G i ≤ S.maxDebt * S.base ^ (S.top + 1) := by
    intro i hi
    obtain ⟨g, hg⟩ := lt_size_iff.mp (Finset.mem_range.mp hi)
    rw [debt_of_group hg]
    exact Nat.mul_le_mul (debt_le h hv hg) (Nat.pow_le_pow_right (Nat.succ_pos _) (Nat.sub_le _ _))
  refine (Finset.sum_le_sum hterm).trans ?_
  rw [Finset.sum_const, Finset.card_range, nsmul_eq_mul, Nat.cast_id]
  exact Nat.mul_le_mul_right _ (h.size_le hv)

/-- The potential of any memo within the scope is bounded. -/
theorem potential_le (h : m.Within S G) (hv : m.Valid) :
    m.potential S G ≤ S.candidates * (S.load + 1) + S.load :=
  Nat.add_le_add (Nat.mul_le_mul_right _ (Nat.sub_le _ _)) (work_le h hv)

/-! ## New candidates -/

section Sums

variable {α : Type} {f : α → Nat} {xs ys : List α}

theorem sum_map_le (h : ∀ {i : Nat} {x : α}, xs[i]? = some x → ∃ y, ys[i]? = some y ∧ f x ≤ f y) :
    (xs.map f).sum ≤ (ys.map f).sum := by
  induction xs generalizing ys with
  | nil => exact Nat.zero_le _
  | cons x xs ih =>
    obtain ⟨y, hy, hle⟩ := h (i := 0) (x := x) rfl
    cases ys with
    | nil => cases hy
    | cons y' ys =>
      cases hy
      rw [List.map_cons, List.map_cons, List.sum_cons, List.sum_cons]
      exact Nat.add_le_add hle (ih fun {i} _ hx => h (i := i + 1) hx)

theorem sum_map_lt (h : ∀ {i : Nat} {x : α}, xs[i]? = some x → ∃ y, ys[i]? = some y ∧ f x ≤ f y)
    {i : Nat} {y : α} (hy : ys[i]? = some y) (hpos : 0 < f y)
    (hlt : ∀ x, xs[i]? = some x → f x < f y) : (xs.map f).sum < (ys.map f).sum := by
  induction xs generalizing ys i with
  | nil =>
    refine Nat.lt_of_lt_of_le hpos (List.le_sum_of_mem ?_)
    exact List.mem_map.mpr ⟨y, List.mem_of_getElem? hy, rfl⟩
  | cons x xs ih =>
    obtain ⟨z, hz, hle⟩ := h (i := 0) (x := x) rfl
    cases ys with
    | nil => cases hz
    | cons z' ys =>
      cases hz
      have hrest : ∀ {i : Nat} {x : α}, xs[i]? = some x → ∃ y, ys[i]? = some y ∧ f x ≤ f y :=
        fun {i} _ hx => h (i := i + 1) hx
      rw [List.map_cons, List.map_cons, List.sum_cons, List.sum_cons]
      cases i with
      | zero =>
        cases hy
        exact Nat.add_lt_add_of_lt_of_le (hlt x rfl) (sum_map_le hrest)
      | succ i => exact Nat.add_lt_add_of_le_of_lt hle (ih hrest hy hlt)

end Sums

theorem Extends.length_candidates_le (h : m.Extends m') {i : Nat} (hg : m.groups[i]? = some g) :
    ∃ g', m'.groups[i]? = some g' ∧ g.candidates.length ≤ g'.candidates.length := by
  obtain ⟨g', hg', hext⟩ := h.group hg
  exact ⟨g', hg', hext.candidates.length_le⟩

/-- No candidate is lost. -/
theorem Extends.candidateCount_le (h : m.Extends m') : m.candidateCount ≤ m'.candidateCount := by
  unfold candidateCount
  rw [List.length_flatMap, List.length_flatMap]
  exact sum_map_le h.length_candidates_le

/-- A new candidate counts. -/
theorem Extends.candidateCount_lt (h : m.Extends m') (hc : m'.Candidate id c)
    (hnew : ¬ m.Candidate id c) : m.candidateCount < m'.candidateCount := by
  obtain ⟨g', hg', hc⟩ := hc
  unfold candidateCount
  rw [List.length_flatMap, List.length_flatMap]
  refine sum_map_lt h.length_candidates_le hg' (List.length_pos_of_mem hc) fun g hg => ?_
  obtain ⟨g'', hg'', hext⟩ := h.group hg
  obtain rfl : g' = g'' := Option.some.inj (hg'.symm.trans hg'')
  refine Nat.lt_of_le_of_ne hext.candidates.length_le fun heq => hnew ⟨g, hg, ?_⟩
  rw [hext.candidates.eq_of_length heq]
  exact hc

/-- A new candidate uses up potential, whatever else changes. -/
theorem potential_lt_of_new (h' : m'.Within S G') (hv' : m'.Valid) (hext : m.Extends m')
    (hc : m'.Candidate id c) (hnew : ¬ m.Candidate id c) : m'.potential S G' < m.potential S G := by
  have hcount := hext.candidateCount_lt hc hnew
  have hmax := h'.candidateCount_le hv'
  have hwork := work_le h' hv'
  have hmul : (S.candidates - m'.candidateCount) * (S.load + 1) + (S.load + 1) ≤
      (S.candidates - m.candidateCount) * (S.load + 1) := by
    rw [← Nat.succ_mul]
    exact Nat.mul_le_mul_right _ (by omega)
  unfold potential
  omega

/-! ## No new candidates -/

/-- There are the same candidates as before. -/
structure Settles (m m' : Memo) : Prop where
  ext : m.Extends m'
  candidates : ∀ {id c}, m'.Candidate id c → m.Candidate id c

theorem Settles.size (h : m.Settles m') : m'.size = m.size := by
  refine Nat.le_antisymm (Nat.le_of_not_lt fun hlt => ?_) h.ext.size_mono
  obtain ⟨g, hg⟩ := lt_size_iff.mp hlt
  exact Nat.lt_irrefl _ (lt_of_candidate (h.candidates (candidate_of_rep? (rep?_of_group hg))))

theorem Within.settles (h : m.Within S G) (hs : m.Settles m') : m'.Within S G where
  graded hc := h.graded (hs.candidates hc)
  has hc := h.has (hs.candidates hc)
  weight i hi := h.weight i (hs.size ▸ hi)
  height i hi := h.height i (hs.size ▸ hi)
  homed := h.homed.extends hs.ext hs.size

theorem Settles.potential_le (h : m.Settles m')
    (hdebt : ∀ i < m.size, m'.debt S G i ≤ m.debt S G i) :
    m'.potential S G ≤ m.potential S G := by
  refine Nat.add_le_add (Nat.mul_le_mul_right _ ?_) ?_
  · exact Nat.sub_le_sub_left h.ext.candidateCount_le _
  · unfold work
    rw [h.size]
    exact Finset.sum_le_sum fun i hi => Nat.mul_le_mul_right _ (hdebt i (Finset.mem_range.mp hi))

/-- If nothing turns, no debt rises. -/
theorem Settles.potential_le_of_still {settled : GroupId → Prop} (h : m.Settles m')
    (hstill : m.Still settled m') : m'.potential S G ≤ m.potential S G := by
  refine h.potential_le fun i hi => ?_
  obtain ⟨g, hg⟩ := lt_size_iff.mp hi
  obtain ⟨g', hg', -, -, hstale⟩ := hstill i g hg
  have hrep := hstill.rep? h.ext hi
  rw [rep?_of_group hg, rep?_of_group hg'] at hrep
  rw [debt_of_group hg, debt_of_group hg', Scope.debt, Scope.debt, Option.some.inj hrep]
  rcases hstale with heq | ⟨-, hfalse⟩
  · rw [heq]
  · rw [hfalse]
    exact Nat.add_le_add_right (Nat.zero_le _) _

/-- Groups from which candidates lead to another one are on higher levels. -/
theorem Within.level_le_of_leads (h : m.Within S G) (hv : m.Valid) (hlead : m.Leads j id) :
    S.level G id ≤ S.level G j := by
  induction hlead with
  | refl => exact Nat.le_refl _
  | tail _ hmention ih =>
    obtain ⟨c, hc, hin⟩ := hmention
    exact (h.level_lt (hv.live hc) (h.graded hc) _ hin).le.trans ih

theorem Within.level_lt_of_leads (h : m.Within S G) (hv : m.Valid) (hlead : m.Leads j id)
    (hne : j ≠ id) : S.level G id < S.level G j := by
  rcases ReflTransGen.cases_head hlead with heq | ⟨k, ⟨c, hc, hin⟩, hrest⟩
  · exact absurd heq hne
  · exact (h.level_le_of_leads hv hrest).trans_lt (h.level_lt (hv.live hc) (h.graded hc) k hin)

/-- If a group turns and its debt falls, the potential falls. -/
theorem Settles.potential_lt_of_swung {settled : GroupId → Prop} (h : m.Settles m')
    (hwithin : m.Within S G) (hv : m.Valid) (hv' : m'.Valid) (hswung : m.Swung settled id m')
    (hdrop : m'.debt S G id < m.debt S G id) : m'.potential S G < m.potential S G := by
  have hwithin' := hwithin.settles h
  obtain ⟨g, -, hg, -⟩ := hswung.moved
  have hid : id < m.size := lt_size_iff.mpr ⟨g, hg⟩
  have hbase : m.size * S.maxDebt < S.base :=
    Nat.lt_succ_of_le (Nat.mul_le_mul_right _ (hwithin.size_le hv))
  refine Nat.add_lt_add_of_le_of_lt (Nat.mul_le_mul_right _ ?_) ?_
  · exact Nat.sub_le_sub_left h.ext.candidateCount_le _
  · unfold work
    rw [h.size]
    refine sum_lt_of_drop hid (hwithin.level_le_top hid) hbase hdrop fun i hi hne => ?_
    obtain ⟨g, hg⟩ := lt_size_iff.mp hi
    by_cases hlead : m'.Leads i id
    · obtain ⟨g', hg', -⟩ := hswung.only hg hne
      refine .inr ⟨hwithin'.level_lt_of_leads hv' hlead hne, ?_⟩
      rw [debt_of_group hg']
      exact debt_le hwithin' hv' hg'
    · obtain ⟨g', hg', hrep⟩ := hswung.only hg hne
      obtain ⟨g'', hg'', -, hstale⟩ := hswung.apart hg hlead
      obtain rfl : g' = g'' := Option.some.inj (hg'.symm.trans hg'')
      have hshape := h.ext.rep? hg hg' hrep
      rw [rep?_of_group hg, rep?_of_group hg'] at hshape
      left
      rw [debt_of_group hg, debt_of_group hg', Scope.debt, Scope.debt, Option.some.inj hshape, hstale]

end Memo

end PlanOptimizer
