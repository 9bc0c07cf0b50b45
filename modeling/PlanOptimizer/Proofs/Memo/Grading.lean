import Mathlib.Data.Prod.Lex
import PlanOptimizer.Proofs.Memo.Invalidation
import PlanOptimizer.Proofs.Rules.Conserved

/-!
# Graded memos

A *grading* gives each group a width, a weight and a height.  A group *admits* a shape that
has its width and its weight, and if the shape is a filter, the height has to suffice: the
height of the input and the bulk of the predicate together do not exceed it.

In a graded memo every group admits its candidates.  The groups under an admitted shape have
less weight than the group, or the same weight and less height.  So candidates do not lead in
circles, retired ones included, and a shape that is admitted passes the checks that are made
of an offer (`Memo.Graded.vet_ok`).
-/

namespace PlanOptimizer

open Relation

/-- What is known of each group. -/
structure Grading where
  /-- The number of columns, where it is known. -/
  width : GroupId → Option Nat
  /-- The joins, the unary operators but for filters, and the clauses in its plans. -/
  weight : GroupId → Nat
  /-- A bound for the filters that are stacked on each other in its plans. -/
  height : GroupId → Nat

namespace Grading

/-- The height of a shape. -/
def heightOf (G : Grading) : Shape → Nat
  | .unary (.filter p) y => G.height y + p.bulk
  | _ => 0

/-- Give a group the width, the weight and the height of a shape. -/
def extend (G : Grading) (id : GroupId) (s : Shape) : Grading where
  width := Function.update G.width id (Meaning.columns.shape G.width s)
  weight := Function.update G.weight id (Meaning.weight.shape G.weight s)
  height := Function.update G.height id (G.heightOf s)

@[simp] theorem width_extend (G : Grading) (id : GroupId) (s : Shape) :
    (G.extend id s).width id = Meaning.columns.shape G.width s := Function.update_self ..

@[simp] theorem weight_extend (G : Grading) (id : GroupId) (s : Shape) :
    (G.extend id s).weight id = Meaning.weight.shape G.weight s := Function.update_self ..

@[simp] theorem height_extend (G : Grading) (id : GroupId) (s : Shape) :
    (G.extend id s).height id = G.heightOf s := Function.update_self ..

/-- A shape fits the grading of a group. -/
structure Admits (G : Grading) (id : GroupId) (s : Shape) : Prop where
  width : Meaning.columns.shape G.width s = G.width id
  weight : Meaning.weight.shape G.weight s = G.weight id
  height : G.heightOf s ≤ G.height id

/-- Two gradings agree on the groups below a number. -/
def Agrees (G G' : Grading) (n : Nat) : Prop :=
  ∀ i < n, G'.width i = G.width i ∧ G'.weight i = G.weight i ∧ G'.height i = G.height i

/-- Groups are ranked by weight, and by height if they weigh the same. -/
def rank (G : Grading) (id : GroupId) : ℕ ×ₗ ℕ := toLex (G.weight id, G.height id)

variable {G G' G'' : Grading} {id n k : Nat} {s : Shape}

theorem Agrees.refl (G : Grading) (n : Nat) : G.Agrees G n := fun _ _ => ⟨rfl, rfl, rfl⟩

theorem Agrees.trans (h : G.Agrees G' n) (h' : G'.Agrees G'' k) (hle : n ≤ k) : G.Agrees G'' n := by
  intro i hi
  obtain ⟨hw, hg, hh⟩ := h i hi
  obtain ⟨hw', hg', hh'⟩ := h' i (Nat.lt_of_lt_of_le hi hle)
  exact ⟨hw'.trans hw, hg'.trans hg, hh'.trans hh⟩

theorem agrees_extend (G : Grading) (n : Nat) (s : Shape) : G.Agrees (G.extend n s) n := by
  intro i hi
  have hne : i ≠ n := Nat.ne_of_lt hi
  simp [extend, hne]

theorem Agrees.heightOf (h : G.Agrees G' n) (hlive : ∀ i ∈ s.inputs, i < n) :
    G'.heightOf s = G.heightOf s := by
  cases s with
  | unary op y =>
    cases op with
    | filter p =>
      obtain ⟨-, -, hheight⟩ := h y (hlive y (by simp [Node.inputs]))
      simp [Grading.heightOf, hheight]
    | _ => rfl
  | _ => rfl

/-- What a group admits is told by the grading of the group and of those under the shape. -/
theorem Admits.agrees (h : G.Admits id s) (hagrees : G.Agrees G' n) (hid : id < n)
    (hlive : ∀ i ∈ s.inputs, i < n) : G'.Admits id s := by
  obtain ⟨hw, hg, hh⟩ := hagrees id hid
  refine ⟨?_, ?_, ?_⟩
  · rw [hw, ← h.width]
    exact Meaning.shape_congr fun i hi => (hagrees i (hlive i hi)).1
  · rw [hg, ← h.weight]
    exact Meaning.shape_congr fun i hi => (hagrees i (hlive i hi)).2.1
  · rw [hh, hagrees.heightOf hlive]
    exact h.height

/-- The groups under an admitted shape rank below the group. -/
theorem Admits.rank_lt (h : G.Admits id s) : ∀ i ∈ s.inputs, G.rank i < G.rank id := by
  intro i hi
  rw [rank, rank, Prod.Lex.toLex_lt_toLex]
  have hweight := h.weight
  have hheight := h.height
  cases s with
  | scan op => cases hi
  | unary op y =>
    cases List.mem_singleton.mp hi
    cases op with
    | filter p =>
      simp only [Meaning.shape, Meaning.weight, Unary.weight] at hweight
      simp only [Grading.heightOf, Expr.bulk] at hheight
      dsimp only
      omega
    | _ =>
      simp only [Meaning.shape, Meaning.weight, Unary.weight] at hweight
      dsimp only
      omega
  | join j a b =>
    simp only [Meaning.shape, Meaning.weight, Join.weight] at hweight
    dsimp only
    rcases List.mem_pair.mp hi with rfl | rfl <;> omega

end Grading

/-! ## Widths through a memo -/

namespace Meaning

/-- The width of a plan is the one it means. -/
theorem widthBy_value {C : GroupId → Option Nat} {through : GroupId → Except Fault (Option Nat)}
    (hthrough : ∀ i w, through i = .ok w → w = C i) {p : Plan} {w : Option Nat}
    (h : p.widthBy through = .ok w) : w = Meaning.columns.value C p := by
  induction p generalizing w with
  | scan op =>
    cases h
    rfl
  | group i => exact hthrough i w h
  | unary op a ih =>
    cases op with
    | project es names => cases h; rfl
    | aggregate ks cs => cases h; rfl
    | filter e => exact ih h
    | sort ts => exact ih h
    | limit o c => exact ih h
  | join j a b iha ihb =>
    obtain ⟨v, hv, h⟩ := bind_eq_ok.mp h
    obtain rfl := iha hv
    dsimp only [Meaning.value, Meaning.columns]
    split at h
    · next hright =>
      obtain ⟨u, hu, h⟩ := bind_eq_ok.mp h
      obtain rfl := ihb hu
      rw [if_pos hright]
      exact (Except.ok.inj h).symm
    · next hleft =>
      rw [if_neg hleft]
      exact (Except.ok.inj h).symm

/-- Where all candidates of a group have one width, it is found through the memo. -/
theorem Models.width_value {C : GroupId → Option Nat} {m : Memo} (h : columns.Models C m) {p : Plan}
    {w : Option Nat} (hw : p.width m.lookup = .ok w) : w = columns.value C p := by
  have hthrough : ∀ (hops : Nat) (i : GroupId) (w : Option Nat),
      m.lookup.answerWithin Plan.widthBy hops i = .ok w → w = C i := by
    intro hops
    induction hops with
    | zero =>
      intro i w hw
      obtain ⟨_, -, hw⟩ := bind_eq_ok.mp hw
      cases hw
    | succ hops ih =>
      intro i w hw
      obtain ⟨q, hq, hw⟩ := bind_eq_ok.mp hw
      cases hrep : m.rep? i with
      | none =>
        rw [Memo.get_lookup_of_unknown hrep] at hq
        cases hq
      | some t =>
        rw [Memo.get_lookup_of_rep hrep] at hq
        cases hq
        rw [widthBy_value ih hw, value_overGroups, h i t (Memo.candidate_of_rep? hrep)]
  exact widthBy_value (hthrough _) hw

end Meaning

namespace Memo

variable {m m' : Memo} {G G' : Grading} {id j : GroupId} {s : Shape}

/-- Every group admits its candidates. -/
def Graded (m : Memo) (G : Grading) : Prop := ∀ {id c}, m.Candidate id c → G.Admits id c

theorem graded_empty (G : Grading) : Memo.empty.Graded G :=
  fun hc => absurd (lt_of_candidate hc) (Nat.not_lt_zero _)

theorem Graded.widths (h : m.Graded G) : Meaning.columns.Models G.width m :=
  fun _ _ hc => (h hc).width

theorem Graded.weights (h : m.Graded G) : Meaning.weight.Models G.weight m :=
  fun _ _ hc => (h hc).weight

theorem Graded.of_extends (h : m'.Graded G) (hext : m.Extends m') : m.Graded G := by
  rintro id c ⟨g, hg, hc⟩
  obtain ⟨g', hg', hgext⟩ := hext.group hg
  exact h ⟨g', hg', hgext.mem hc⟩

theorem Graded.of_candidates (h : m.Graded G) (hs : G.Admits id s)
    (hcand : ∀ {j c}, m'.Candidate j c → m.Candidate j c ∨ j = id ∧ c = s) : m'.Graded G := by
  intro j c hc
  rcases hcand hc with hc | ⟨rfl, rfl⟩
  · exact h hc
  · exact hs

/-! ## New groups -/

/-- A new group is graded by its shape. -/
theorem Graded.withGroup (h : m.Graded G) (hv : m.Valid) (hlive : ∀ i ∈ s.inputs, i < m.size) :
    (m.withGroup s).Graded (G.extend m.size s) := by
  have hagrees := G.agrees_extend m.size s
  intro j c hc
  rcases candidate_withGroup_iff.mp hc with hc | ⟨rfl, rfl⟩
  · exact (h hc).agrees hagrees (lt_of_candidate hc) (hv.live hc)
  · refine ⟨?_, ?_, ?_⟩
    · rw [Grading.width_extend]
      exact Meaning.shape_congr fun i hi => (hagrees i (hlive i hi)).1
    · rw [Grading.weight_extend]
      exact Meaning.shape_congr fun i hi => (hagrees i (hlive i hi)).2.1
    · rw [Grading.height_extend, hagrees.heightOf hlive]

theorem Graded.grows (h : m.Graded G) (hv : m.Valid) (hgrows : m.Grows m') :
    ∃ G', G.Agrees G' m.size ∧ m'.Graded G' := by
  induction hgrows with
  | refl => exact ⟨G, .refl G _, h⟩
  | @tail b _ hfirst hlast ih =>
    obtain ⟨G₁, hagrees, hgraded⟩ := ih
    obtain ⟨hlive, -⟩ := hlast
    exact ⟨_, hagrees.trans (G₁.agrees_extend _ _) (Grows.extends hfirst).size_mono,
      hgraded.withGroup (Grows.valid hfirst hv) hlive⟩

/-! ## The checks of an offer -/

theorem Graded.rank_le (h : m.Graded G) (hlead : m.Leads j id) : G.rank id ≤ G.rank j := by
  induction hlead with
  | refl => exact le_rfl
  | tail _ hmention ih =>
    obtain ⟨c, hc, hin⟩ := hmention
    exact ((h hc).rank_lt _ hin).le.trans ih

/-- An admitted shape does not lead back to its group. -/
theorem Graded.apart (h : m.Graded G) (hv : m.Valid) (hlive : ∀ i ∈ s.inputs, i < m.size)
    (hs : G.Admits id s) : m.leadsTo s id = false := by
  rw [Bool.eq_false_iff]
  intro hlead
  obtain ⟨i, hi, hreach⟩ := (hv.leadsTo_iff hlive).mp hlead
  exact absurd (hs.rank_lt i hi) (h.rank_le (hv.leads_of_reaches hreach)).not_gt

/-- A shape that its group admits passes the checks of an offer. -/
theorem Graded.vet_ok (h : m.Graded G) (hv : m.Valid) (hid : id < m.size)
    (hlive : ∀ i ∈ s.inputs, i < m.size) (hs : G.Admits id s) : m.vet id s = .ok () := by
  refine (hv.vet_ok_iff hid hlive).mpr ⟨h.apart hv hlive hs, fun c hrep e a he ha => ?_⟩
  have hexpected := h.widths.width_value he
  have hactual := h.widths.width_value ha
  rw [Meaning.value_overGroups, h.widths id c (candidate_of_rep? hrep)] at hexpected
  rw [Meaning.value_overGroups, hs.width] at hactual
  exact Option.some.inj (hexpected.trans hactual.symm)

end Memo

end PlanOptimizer
