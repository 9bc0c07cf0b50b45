import Mathlib.Order.Basic
import PlanOptimizer.Proofs.Memo.Invalidation

/-!
# Ranked groups

A group is *ranked* when its representative is the first of the best candidates that are
alive and do not lead back to the group.  In a memo whose plans are always compared by one
key of what they resolve to, every group is ranked that is not stale
(`Memo.ReachableBy.ordered`).

A group that is not above a turned group keeps its candidates' plans, so it stays ranked.
The turned group itself is not marked stale, and it need not be: a way back to it ends where
it first arrives, so its turn changes neither which of its candidates lead back nor the plans
of those that do not.
-/

namespace PlanOptimizer

open Relation

universe u

variable {κ : Type u} [Preorder κ]

/-- The model never fails to compare plans that resolve, and it compares them by a key of what
they resolve to. -/
structure CostModel.RanksBy (model : CostModel) (key : Plan → κ) : Prop where
  /-- Any two keys can be compared. -/
  total : ∀ a b : κ, a ≤ b ∨ b ≤ a
  /-- The order of two plans is the order of their keys. -/
  compare : ∀ {m : Memo} {p q a b : Plan}, m.Reachable →
    p.resolve m.lookup = .ok a → q.resolve m.lookup = .ok b →
      ∃ order, model.compare p q m.lookup = .ok order ∧
        (order = .lt ↔ key a < key b) ∧ (order = .gt ↔ key b < key a)

/-- A candidate with its position. -/
def Group.top (g : Group) : Shape × Nat := (g.shape, g.representative)

namespace Memo

variable {model : CostModel} {m m' : Memo} {id j : GroupId} {s : Shape} {g g' : Group}
  {key : Plan → κ} {a b c : Shape × Nat}

/-- One candidate is at least as good as another one: its key is less, or the keys are equal
and it has come in no later. -/
def Outranks (m : Memo) (key : Plan → κ) (a b : Shape × Nat) : Prop :=
  ∃ p q, a.1.overGroups.resolve m.lookup = .ok p ∧ b.1.overGroups.resolve m.lookup = .ok q ∧
    key p ≤ key q ∧ (key q ≤ key p → a.2 ≤ b.2)

/-- A candidate that may represent its group: it is alive and does not lead back to it. -/
structure Eligible (m : Memo) (id : GroupId) (g : Group) (c : Shape × Nat) : Prop where
  at_pos : g.candidates[c.2]? = some c.1
  alive : c.2 ∉ g.retired
  apart : m.leadsTo c.1 id = false

/-- The representative of a group is the earliest of the best candidates. -/
structure Ranked (m : Memo) (key : Plan → κ) (id : GroupId) (g : Group) : Prop where
  eligible : m.Eligible id g g.top
  least : ∀ c, m.Eligible id g c → m.Outranks key g.top c

/-- Every group that is not stale is ranked. -/
def Ordered (m : Memo) (key : Plan → κ) : Prop :=
  ∀ (id : GroupId) (g : Group), m.groups[id]? = some g → g.stale = false → m.Ranked key id g

/-! ## Comparing candidates -/

theorem Outranks.trans (h : m.Outranks key a b) (h' : m.Outranks key b c) : m.Outranks key a c := by
  obtain ⟨p, q, hp, hq, hle, htie⟩ := h
  obtain ⟨q', r, hq', hr, hle', htie'⟩ := h'
  obtain rfl : q = q' := Except.ok.inj (hq.symm.trans hq')
  refine ⟨p, r, hp, hr, hle.trans hle', fun hback => ?_⟩
  exact (htie (hle'.trans hback)).trans (htie' (hback.trans hle))

theorem Valid.outranks_self (hv : m.Valid) (hlive : ∀ i ∈ a.1.inputs, i < m.size) :
    m.Outranks key a a := by
  obtain ⟨p, hp⟩ := hv.resolve_shape_ok hlive
  exact ⟨p, p, hp, hp, le_rfl, fun _ => le_rfl⟩

/-- The order of two shapes tells which one is at least as good. -/
theorem outranks_of_compare (hkey : model.RanksBy key) (hm : m.Reachable)
    (ha : ∀ i ∈ a.1.inputs, i < m.size) (hb : ∀ i ∈ b.1.inputs, i < m.size) :
    ∃ order, model.compare a.1.overGroups b.1.overGroups m.lookup = .ok order ∧
      (order = .lt ∨ order = .eq ∧ a.2 ≤ b.2 → m.Outranks key a b) ∧
      (order = .gt ∨ order = .eq ∧ b.2 ≤ a.2 → m.Outranks key b a) := by
  obtain ⟨p, hp⟩ := hm.valid.resolve_shape_ok ha
  obtain ⟨q, hq⟩ := hm.valid.resolve_shape_ok hb
  obtain ⟨order, horder, hlt, hgt⟩ := hkey.compare hm hp hq
  have hle : order ≠ .gt → key p ≤ key q := fun h =>
    (hkey.total (key p) (key q)).elim id fun hge => by_contra fun hnot =>
      h (hgt.mpr (lt_of_le_not_ge hge hnot))
  have hge : order ≠ .lt → key q ≤ key p := fun h =>
    (hkey.total (key p) (key q)).elim
      (fun hle => by_contra fun hnot => h (hlt.mpr (lt_of_le_not_ge hle hnot))) id
  refine ⟨order, horder, fun h => ?_, fun h => ?_⟩
  · rcases h with rfl | ⟨rfl, hpos⟩
    · exact ⟨p, q, hp, hq, hle (by decide), fun hback => absurd hback (hlt.mp rfl).not_ge⟩
    · exact ⟨p, q, hp, hq, hle (by decide), fun _ => hpos⟩
  · rcases h with rfl | ⟨rfl, hpos⟩
    · exact ⟨q, p, hq, hp, hge (by decide), fun hback => absurd hback (hgt.mp rfl).not_ge⟩
    · exact ⟨q, p, hq, hp, hge (by decide), fun _ => hpos⟩

theorem best_cons {order : Ordering} {cs : List (Shape × Nat)}
    (h : model.compare c.1.overGroups b.1.overGroups m.lookup = .ok order) :
    m.best model id b (c :: cs) =
      if (decide (order = .lt) || decide (order = .eq) && decide (c.2 < b.2)) &&
        !m.leadsTo c.1 id then m.best model id c cs else m.best model id b cs := by
  rw [best, h]
  rfl

/-- Ranking never fails.  The winner is at least as good as the candidate to start from and as
all candidates that do not lead back to the group. -/
theorem best_spec (hkey : model.RanksBy key) (hm : m.Reachable) {b : Shape × Nat}
    {cs : List (Shape × Nat)} (hb : ∀ i ∈ b.1.inputs, i < m.size)
    (hcs : ∀ c ∈ cs, ∀ i ∈ c.1.inputs, i < m.size) :
    ∃ w, m.best model id b cs = .ok w ∧ m.Outranks key w b ∧
      ∀ c ∈ cs, m.leadsTo c.1 id = false → m.Outranks key w c := by
  induction cs generalizing b with
  | nil => exact ⟨b, rfl, hm.valid.outranks_self hb, fun _ h => nomatch h⟩
  | cons c cs ih =>
    have hc := hcs c List.mem_cons_self
    have hrest := fun c' hc' => hcs c' (List.mem_cons_of_mem c hc')
    obtain ⟨order, horder, hbefore, hafter⟩ := outranks_of_compare hkey hm hc hb
    rw [best_cons horder]
    split
    · next hwins =>
      have hcb : m.Outranks key c b := by
        simp only [Bool.and_eq_true, Bool.or_eq_true, decide_eq_true_eq] at hwins
        exact hbefore (hwins.1.imp_right fun h => ⟨h.1, h.2.le⟩)
      obtain ⟨w, hw, hwc, hall⟩ := ih hc hrest
      refine ⟨w, hw, hwc.trans hcb, fun c' hc' hapart => ?_⟩
      rcases List.mem_cons.mp hc' with rfl | hc'
      · exact hwc
      · exact hall c' hc' hapart
    · next hloses =>
      obtain ⟨w, hw, hwb, hall⟩ := ih hb hrest
      refine ⟨w, hw, hwb, fun c' hc' hapart => ?_⟩
      rcases List.mem_cons.mp hc' with rfl | hc'
      · refine hwb.trans (hafter ?_)
        cases order with
        | lt => simp [hapart] at hloses
        | eq => exact .inr ⟨rfl, by simpa [hapart] using hloses⟩
        | gt => exact .inl rfl
      · exact hall c' hc' hapart

/-! ## What a turn leaves -/

theorem SameBelow.symm (h : m.SameBelow m' id) : m'.SameBelow m id := by
  have hback : ∀ j, Reaches m'.children id j → Reaches m.children id j := by
    intro j hj
    induction hj with
    | refl => exact .refl
    | @tail x y _ hxy ih =>
      refine ih.tail ?_
      rwa [Links, ← children_congr (h x ih)]
  exact fun j hj => (h j (hback j hj)).symm

theorem Valid.leadsTo_congr (hv : m.Valid) (hv' : m'.Valid) (hlive : ∀ i ∈ s.inputs, i < m.size)
    (hlive' : ∀ i ∈ s.inputs, i < m'.size) (h : ∀ i ∈ s.inputs, m.SameBelow m' i) :
    m'.leadsTo s id = m.leadsTo s id := by
  rw [Bool.eq_iff_iff, hv.leadsTo_iff hlive, hv'.leadsTo_iff hlive']
  constructor
  · rintro ⟨i, hi, hreach⟩
    exact ⟨i, hi, (h i hi).symm.reaches hreach⟩
  · rintro ⟨i, hi, hreach⟩
    exact ⟨i, hi, (h i hi).reaches hreach⟩

theorem Outranks.congr (h : m.Outranks key a b) (hv : m.Valid)
    (ha : ∀ i ∈ a.1.inputs, m.SameBelow m' i) (hb : ∀ i ∈ b.1.inputs, m.SameBelow m' i) :
    m'.Outranks key a b := by
  obtain ⟨p, q, hp, hq, hle⟩ := h
  exact ⟨p, q, (hv.resolve_congr ha).trans hp, (hv.resolve_congr hb).trans hq, hle⟩

/-- A group stays ranked when nothing below its candidates changes. -/
theorem Ranked.congr (h : m.Ranked key id g) (hv : m.Valid) (hv' : m'.Valid)
    (hext : m.Extends m') (hat : m.groups[id]? = some g)
    (hcand : g'.candidates = g.candidates) (hret : g'.retired = g.retired)
    (hrep : g'.representative = g.representative)
    (hsame : ∀ s ∈ g.candidates, ∀ i ∈ s.inputs, m.SameBelow m' i) : m'.Ranked key id g' := by
  have htop : g'.top = g.top := by
    have hshape : g'.shape = g.shape := by
      refine Group.shape_eq_of_getElem? ?_
      rw [hcand, hrep, Group.getElem?_representative]
    rw [Group.top, hshape, hrep, Group.top]
  have heligible : ∀ c, m'.Eligible id g' c ↔ m.Eligible id g c := by
    intro c
    have hleads : c.1 ∈ g.candidates → m'.leadsTo c.1 id = m.leadsTo c.1 id := fun hc => by
      have hlive := hv.live ⟨g, hat, hc⟩
      exact hv.leadsTo_congr hv' hlive (fun i hi => hext.size_le (hlive i hi)) (hsame _ hc)
    constructor
    · rintro ⟨hpos, halive, hapart⟩
      rw [hcand] at hpos
      rw [hleads (List.mem_of_getElem? hpos)] at hapart
      exact ⟨hpos, hret ▸ halive, hapart⟩
    · rintro ⟨hpos, halive, hapart⟩
      rw [← hleads (List.mem_of_getElem? hpos)] at hapart
      exact ⟨hcand ▸ hpos, hret ▸ halive, hapart⟩
  refine ⟨htop ▸ (heligible _).mpr h.eligible, fun c hc => ?_⟩
  have hc' := (heligible c).mp hc
  rw [htop]
  exact (h.least c hc').congr hv (hsame _ g.shape_mem) (hsame _ (List.mem_of_getElem? hc'.at_pos))

/-- Which shapes lead to a group is not changed by a turn of this group: a way to it ends
where it first arrives. -/
theorem leadsTo_of_turned (hv : m.Valid) (hv' : m'.Valid) (hsize : m'.size = m.size)
    (hrep : ∀ i, i ≠ id → m'.rep? i = m.rep? i) (hlive : ∀ i ∈ s.inputs, i < m.size) :
    m'.leadsTo s id = m.leadsTo s id := by
  have hreaches : ∀ {m m' : Memo}, (∀ i, i ≠ id → m'.rep? i = m.rep? i) → ∀ {i},
      Reaches m.children i id → Reaches m'.children i id := by
    intro m m' hrep i h
    induction h using ReflTransGen.head_induction_on with
    | refl => exact .refl
    | @head x y hxy _ ih =>
      by_cases heq : x = id
      · exact heq ▸ .refl
      · refine .head ?_ ih
        rwa [Links, children_congr (hrep x heq)]
  rw [Bool.eq_iff_iff, hv.leadsTo_iff hlive, hv'.leadsTo_iff (hsize ▸ hlive)]
  constructor
  · rintro ⟨i, hi, hreach⟩
    exact ⟨i, hi, hreaches (fun i hi => (hrep i hi).symm) hreach⟩
  · rintro ⟨i, hi, hreach⟩
    exact ⟨i, hi, hreaches hrep hreach⟩

/-- Below a shape that does not lead to the turned group nothing has changed. -/
theorem sameBelow_of_apart (hv : m.Valid) (hrep : ∀ i, i ≠ id → m'.rep? i = m.rep? i)
    (hlive : ∀ i ∈ s.inputs, i < m.size) (hapart : m.leadsTo s id = false) :
    ∀ i ∈ s.inputs, m.SameBelow m' i := by
  intro i hi
  refine .of_ne (fun j hj _ => hrep j hj) hv (hlive i hi) fun hreach => ?_
  have hlead := (hv.leadsTo_iff hlive).mpr ⟨i, hi, hreach⟩
  rw [hapart] at hlead
  cases hlead

/-! ## Calls -/

theorem Valid.eligible_top (hv : m.Valid) (hat : m.groups[id]? = some g) :
    m.Eligible id g g.top where
  at_pos := g.getElem?_representative
  alive := (hv.group hat).alive
  apart := by
    have hrep := rep?_of_group hat
    rw [Bool.eq_false_iff]
    intro hlead
    obtain ⟨i, hi, hreach⟩ := (hv.leadsTo_iff (hv.live_rep hrep)).mp hlead
    exact not_reaches_of_links hv.acyclic ((links_of_rep hrep).mpr hi) hreach

/-- A group is ranked if no candidate but its representative may represent it. -/
theorem Valid.ranked_of_only (hv : m.Valid) (hat : m.groups[id]? = some g)
    (h : ∀ c, m.Eligible id g c → c = g.top) : m.Ranked key id g := by
  refine ⟨hv.eligible_top hat, fun c hc => ?_⟩
  rw [h c hc]
  exact hv.outranks_self (hv.live_rep (rep?_of_group hat))

theorem Eligible.eq_top (h : m.Eligible id g c) (hpos : c.2 = g.representative) :
    c = g.top :=
  Prod.ext (Group.shape_eq_of_getElem? (hpos ▸ h.at_pos)).symm hpos

/-- The only candidate of a pinned group that may represent it. -/
theorem Eligible.eq_top_of_pin {pos : Nat} (h : m.Eligible id (g.pin pos) c)
    (hpos : pos < g.candidates.length) : c = (g.pin pos).top := by
  have hlt := (List.getElem?_eq_some_iff.mp h.at_pos).1
  have halive := h.alive
  rw [Group.mem_retired_pin hpos] at halive
  rw [Group.candidates_pin] at hlt
  refine h.eq_top ?_
  rw [Group.representative_pin hpos]
  exact by_contra fun hne => halive ⟨hlt, hne⟩

/-- A group stays ranked when no group turns. -/
theorem Ranked.of_rep? (h : m.Ranked key id g) (hv : m.Valid) (hv' : m'.Valid)
    (hext : m.Extends m') (hrep : ∀ i < m.size, m'.rep? i = m.rep? i)
    (hat : m.groups[id]? = some g) (hcand : g'.candidates = g.candidates)
    (hret : g'.retired = g.retired) (hpos : g'.representative = g.representative) :
    m'.Ranked key id g' := by
  refine h.congr hv hv' hext hat hcand hret hpos fun s hs i hi j hj => ?_
  exact hrep j (hv.lt_of_reaches (hv.live ⟨g, hat, hs⟩ i hi) hj)

/-- Every group but one stays ranked when the others keep their representatives. -/
theorem Ordered.edit {f : Group → Group} (h : m.Ordered key) (hv : m.Valid)
    (hv' : (m.edit id f).Valid) (hext : m.Extends (m.edit id f)) (hat : m.groups[id]? = some g)
    (hshape : (f g).shape = g.shape)
    (hself : (f g).stale = false → (m.edit id f).Ranked key id (f g)) :
    (m.edit id f).Ordered key := by
  have hrep : ∀ i, (m.edit id f).rep? i = m.rep? i := by
    refine rep?_edit_of_shape fun g' hg' => ?_
    obtain rfl : g = g' := Option.some.inj (hat.symm.trans hg')
    exact hshape
  intro j g' hg' hstale
  by_cases heq : j = id
  · subst heq
    rw [groups_edit_self hat] at hg'
    cases hg'
    exact hself hstale
  · rw [groups_edit_ne heq] at hg'
    exact (h j g' hg' hstale).of_rep? hv hv' hext (fun i _ => hrep i) hg' rfl rfl rfl

theorem Create.ordered (h : Create m m') (hv : m.Valid) (hord : m.Ordered key) :
    m'.Ordered key := by
  have hv' := h.valid hv
  have hquiet := Quiet.create h
  obtain ⟨-, -⟩ := h
  intro id g' hg' hstale
  rcases group_withGroup_cases hg' with ⟨g, hg, rfl⟩ | ⟨rfl, rfl⟩
  · exact (hord id g hg hstale).of_rep? hv hv' hquiet.extends (fun i hi => hquiet.rep? hi) hg rfl
      rfl rfl
  · refine hv'.ranked_of_only hg' fun c hc => hc.eq_top ?_
    exact Nat.lt_one_iff.mp (List.getElem?_eq_some_iff.mp hc.at_pos).1

theorem Grows.ordered (h : m.Grows m') (hv : m.Valid) (hord : m.Ordered key) : m'.Ordered key := by
  induction h with
  | refl => exact hord
  | tail hfirst hcreate ih => exact hcreate.ordered (Grows.valid hfirst hv) ih

section Swing

variable {f : Group → Group} (hv : m.Valid) (hv' : ((m.edit id f).invalidate id).Valid)
  (hf : Group.Swings f)

theorem rep?_swing (m : Memo) (f : Group → Group) (hne : j ≠ id) :
    ((m.edit id f).invalidate id).rep? j = m.rep? j := by
  rw [rep?_invalidate, rep?, groups_edit_ne hne, rep?]

theorem size_swing (m : Memo) (id : GroupId) (f : Group → Group) :
    ((m.edit id f).invalidate id).size = m.size :=
  (size_invalidate _ _).trans (size_edit _ _ _)

include hv hv' hf

/-- The turned group is ranked if its new representative was the earliest of the best
candidates before the turn. -/
theorem ranked_swing_self (hat : m.groups[id]? = some g)
    (hat' : ((m.edit id f).invalidate id).groups[id]? = some g')
    (hbest : ∀ c, m.Eligible id (f g) c → m.Outranks key (f g).top c) :
    ((m.edit id f).invalidate id).Ranked key id g' := by
  have hrep := fun i (hi : i ≠ id) => rep?_swing m f hi
  have hg' : g' = (f g).reopen (m.above id) id id := by
    rw [groups_swing m f hf.parents, hat] at hat'
    simpa using hat'.symm
  have htop : g'.top = (f g).top := by simp [hg', Group.top]
  have hlive : ∀ c : Shape × Nat, (f g).candidates[c.2]? = some c.1 →
      ∀ i ∈ c.1.inputs, i < m.size := fun c hc =>
    hv.live ⟨g, hat, hf.candidates g ▸ List.mem_of_getElem? hc⟩
  have heligible : ∀ c, ((m.edit id f).invalidate id).Eligible id g' c → m.Eligible id (f g) c := by
    rintro c ⟨hpos, halive, hapart⟩
    simp only [hg', Group.candidates_reopen, Group.retired_reopen] at hpos halive
    rw [leadsTo_of_turned hv hv' (size_swing m id f) hrep (hlive c hpos)] at hapart
    exact ⟨hpos, halive, hapart⟩
  have hsame : ∀ c, m.Eligible id (f g) c →
      ∀ i ∈ c.1.inputs, m.SameBelow ((m.edit id f).invalidate id) i :=
    fun c hc => sameBelow_of_apart hv hrep (hlive c hc.at_pos) hc.apart
  have hnew := hv'.eligible_top hat'
  refine ⟨hnew, fun c hc => ?_⟩
  rw [htop] at hnew ⊢
  exact (hbest c (heligible c hc)).congr hv (hsame _ (heligible _ hnew)) (hsame _ (heligible c hc))

/-- A group that does not get stale by the turn of another one stays ranked. -/
theorem ranked_swing_ne (hid : id < m.size) (hne : j ≠ id) (hat : m.groups[j]? = some g)
    (hat' : ((m.edit id f).invalidate id).groups[j]? = some g') (hstale : g'.stale = false)
    (h : g.stale = false → m.Ranked key j g) :
    ((m.edit id f).invalidate id).Ranked key j g' := by
  have habove : j ∉ m.above id ∧ g' = g := by
    rw [groups_swing m f hf.parents, hat, Option.map_some, if_neg hne] at hat'
    obtain rfl := Option.some.inj hat'
    by_cases hin : j ∈ m.above id
    · simp [Group.reopen, hin, hne] at hstale
    · exact ⟨hin, Group.reopen_of_not_mem hin⟩
  obtain ⟨hnot, rfl⟩ := habove
  rw [hv.mem_above_iff_leads hid] at hnot
  have hext : m.Extends ((m.edit id f).invalidate id) := by
    refine ⟨fun hg => ?_, fun hk => hk⟩
    obtain ⟨g₁, hg₁, hc, hp⟩ := groups_edit_invalidate hf.candidates hf.parents hg
    exact ⟨g₁, hg₁, Group.extends_of_eq hc hp⟩
  refine (h hstale).congr hv hv' hext hat rfl rfl rfl fun s hs i hi => ?_
  refine .of_ne (fun k hk _ => rep?_swing m f hk) hv (hv.live ⟨g', hat, hs⟩ i hi) fun hreach => ?_
  exact hnot (.head ⟨s, ⟨g', hat, hs⟩, hi⟩ (hv.leads_of_reaches hreach))

/-- A turn leaves all groups ranked or stale, if the new representative is the earliest of the
best candidates of its group. -/
theorem ordered_swing (hat : m.groups[id]? = some g)
    (hothers : ∀ (j : GroupId) (h : Group), j ≠ id → m.groups[j]? = some h → h.stale = false →
      m.Ranked key j h)
    (hbest : g.stale = false → ∀ c, m.Eligible id (f g) c → m.Outranks key (f g).top c) :
    ((m.edit id f).invalidate id).Ordered key := by
  intro j g' hg' hstale
  have hback := hg'
  rw [groups_swing m f hf.parents] at hback
  obtain ⟨h, hh, hreopen⟩ := Option.map_eq_some_iff.mp hback
  by_cases heq : j = id
  · subst heq
    obtain rfl : g = h := Option.some.inj (hat.symm.trans hh)
    refine ranked_swing_self hv hv' hf hat hg' (hbest ?_)
    rw [← hreopen, if_pos rfl] at hstale
    rw [← hf.stale]
    unfold Group.reopen at hstale
    split at hstale
    · simpa using hstale
    · exact hstale
  · exact ranked_swing_ne hv hv' hf (lt_size_iff.mpr ⟨g, hat⟩) heq hh hg' hstale
      (hothers j h heq hh)

end Swing

/-- A pinned group is ranked whatever its candidates cost. -/
theorem ordered_force {pos : Nat} (hv : m.Valid) (hv' : ((m.force id pos).invalidate id).Valid)
    (hat : m.groups[id]? = some g) (hpos : pos < g.candidates.length)
    (hothers : ∀ (j : GroupId) (h : Group), j ≠ id → m.groups[j]? = some h → h.stale = false →
      m.Ranked key j h) : ((m.force id pos).invalidate id).Ordered key := by
  refine ordered_swing hv hv' (Group.swings_pin pos) hat hothers fun _ c hc => ?_
  rw [← hc.eq_top_of_pin hpos]
  have hmem := List.mem_of_getElem? hc.at_pos
  rw [Group.candidates_pin] at hmem
  exact hv.outranks_self (hv.live ⟨g, hat, hmem⟩)

/-! ### Placing a shape -/

theorem prefers_ok (hat : m.groups[id]? = some g) {wins : Bool}
    (h : m.prefers model id s = .ok wins) : ∃ order,
      model.compare s.overGroups g.shape.overGroups m.lookup = .ok order ∧
        wins = decide (order = .lt) := by
  unfold prefers at h
  rw [shape_of_rep (rep?_of_group hat)] at h
  obtain ⟨_, hshape, h⟩ := bind_eq_ok.mp h
  cases hshape
  obtain ⟨order, horder, h⟩ := bind_eq_ok.mp h
  cases h
  exact ⟨order, horder, rfl⟩

/-- A candidate of a group after a shape has come in. -/
theorem eligible_attach {f : Group → Group} (hf : Group.Swings f)
    (hret : ∀ g, (f g).retired = g.retired)
    (h : (m.attach id s).Eligible id (f ((g.adopt id s id).push s)) c) :
    m.Eligible id g c ∨ c = (s, g.candidates.length) := by
  obtain ⟨hpos, halive, hapart⟩ := h
  rw [hf.candidates] at hpos
  rw [hret] at halive
  rw [leadsTo_congr rfl (rep?_attach m id s) (size_attach m id s)] at hapart
  have hpos' : (g.candidates ++ [s])[c.2]? = some c.1 := hpos
  rcases Nat.lt_trichotomy c.2 g.candidates.length with hlt | heq | hgt
  · rw [List.getElem?_append_left hlt] at hpos'
    exact .inl ⟨hpos', halive, hapart⟩
  · rw [heq, List.getElem?_concat_length] at hpos'
    exact .inr (Prod.ext (Option.some.inj hpos').symm heq)
  · rw [List.getElem?_eq_none (by simp; omega)] at hpos'
    cases hpos'

/-- Whether a shape is preferred to the representative tells which one is at least as good. -/
theorem outranks_of_prefers (hkey : model.RanksBy key) (hm : m.Reachable)
    (hat : m.groups[id]? = some g) (hlive : ∀ i ∈ s.inputs, i < m.size) {wins : Bool}
    (h : m.prefers model id s = .ok wins) {n : Nat} (hn : g.representative ≤ n) :
    (wins = true → m.Outranks key (s, n) g.top) ∧ (wins = false → m.Outranks key g.top (s, n)) := by
  obtain ⟨order, horder, rfl⟩ := prefers_ok hat h
  obtain ⟨order', horder', hbefore, hafter⟩ :=
    outranks_of_compare (a := (s, n)) (b := g.top) hkey hm hlive
      (hm.valid.live_rep (rep?_of_group hat))
  obtain rfl : order = order' := Except.ok.inj (horder.symm.trans horder')
  refine ⟨fun hwins => hbefore (.inl (of_decide_eq_true hwins)), fun hloses => hafter ?_⟩
  cases order with
  | lt => cases hloses
  | eq => exact .inr ⟨rfl, hn⟩
  | gt => exact .inl rfl

theorem sameBelow_attach (m : Memo) (id : GroupId) (s : Shape) (j : GroupId) :
    m.SameBelow (m.attach id s) j := fun k _ => rep?_attach m id s k

/-- When a shape comes in, the other groups stay ranked. -/
theorem Ordered.attach_ne (h : m.Ordered key) (hv : m.Valid) (hv' : (m.attach id s).Valid)
    (hext : m.Extends (m.attach id s)) (hne : j ≠ id)
    (hat : (m.attach id s).groups[j]? = some g') (hstale : g'.stale = false) :
    (m.attach id s).Ranked key j g' := by
  obtain ⟨g, hg, ⟨rfl, -⟩ | ⟨-, rfl⟩⟩ := group_attach_cases hat
  · exact absurd rfl hne
  · exact (h j g hg hstale).of_rep? hv hv' hext (fun i _ => rep?_attach m id s i) hg rfl rfl rfl

/-- A shape that has come in but does not become the representative leaves its group ranked. -/
theorem ranked_attach_of_beaten (hkey : model.RanksBy key) (hm : m.Reachable)
    (hv' : (m.attach id s).Valid) (hlive : ∀ i ∈ s.inputs, i < m.size) (hat : m.groups[id]? = some g)
    (hbeaten : m.prefers model id s = .ok false) (hranked : m.Ranked key id g) :
    (m.attach id s).Ranked key id ((g.adopt id s id).push s) := by
  refine ⟨hv'.eligible_top (groups_attach_self hat s), fun c hc => ?_⟩
  have htop : ((g.adopt id s id).push s).top = g.top := by
    rw [Group.top, Group.shape_push]
    rfl
  rw [htop]
  have houtranks : m.Outranks key g.top c := by
    rcases eligible_attach Group.swings_id (fun _ => rfl) hc with hold | rfl
    · exact hranked.least c hold
    · exact (outranks_of_prefers hkey hm hat hlive hbeaten g.representative_lt.le).2 rfl
  exact houtranks.congr hm.valid (fun i _ => sameBelow_attach m id s i)
    fun i _ => sameBelow_attach m id s i

/-- A shape that is preferred to the representative of a ranked group is the earliest of the
best candidates once it has come in. -/
theorem outranks_attach_of_preferred (hkey : model.RanksBy key) (hm : m.Reachable)
    (hlive : ∀ i ∈ s.inputs, i < m.size) (hat : m.groups[id]? = some g)
    (hpreferred : m.prefers model id s = .ok true) (hranked : m.Ranked key id g)
    (hc : (m.attach id s).Eligible id (((g.adopt id s id).push s).promote g.candidates.length) c) :
    (m.attach id s).Outranks key (((g.adopt id s id).push s).promote g.candidates.length).top c := by
  have hlast := candidates_attach_last g id s
  have htop : (((g.adopt id s id).push s).promote g.candidates.length).top =
      (s, g.candidates.length) := by
    rw [Group.top, Group.shape_promote hlast,
      Group.representative_promote (List.getElem?_eq_some_iff.mp hlast).1]
  have hbeats := (outranks_of_prefers hkey hm hat hlive hpreferred g.representative_lt.le).1 rfl
  have houtranks : m.Outranks key (s, g.candidates.length) c := by
    rcases eligible_attach (Group.swings_promote _) (by simp) hc with hold | rfl
    · exact hbeats.trans (hranked.least c hold)
    · exact hm.valid.outranks_self hlive
  rw [htop]
  exact houtranks.congr hm.valid (fun i _ => sameBelow_attach m id s i)
    fun i _ => sameBelow_attach m id s i

/-- Placing a shape leaves all groups ranked or stale. -/
theorem Placement.ordered {forced : Bool} {r : Except Fault Outcome}
    (h : Placement model id s m forced r m') (hkey : model.RanksBy key) (hm : m.Reachable)
    (hv' : m'.Valid) (hlive : ∀ i ∈ s.inputs, i < m.size) (hord : m.Ordered key) :
    m'.Ordered key := by
  have hv := hm.valid
  cases h with
  | held => exact hord
  | unranked => exact hord
  | @pinned g hat =>
    have hext := (Quiet.pin hat).extends
    refine hord.edit hv hv' hext hat g.shape_pin_representative fun _ => ?_
    exact hv'.ranked_of_only (groups_edit_self hat _) fun c hc =>
      hc.eq_top_of_pin g.representative_lt
  | @revived g pos hat hpos hne =>
    obtain ⟨t, ht, -⟩ := candidate_of_position? hpos
    exact ordered_force hv hv' hat (List.getElem?_eq_some_iff.mp ht).1 fun j h _ => hord j h
  | @added g hat hfresh hbeaten =>
    have hext := (Quiet.attach hat hlive hfresh).extends
    intro j g' hg' hstale
    by_cases heq : j = id
    · subst heq
      obtain rfl := Option.some.inj ((groups_attach_self hat s).symm.trans hg')
      exact ranked_attach_of_beaten hkey hm hv' hlive hat hbeaten (hord j g hat hstale)
    · exact hord.attach_ne hv hv' hext heq hg' hstale
  | @won g hat hfresh hpreferred =>
    have hv₁ := valid_attach hv hat hlive hfresh
    have hext := (Quiet.attach hat hlive hfresh).extends
    refine ordered_swing hv₁ hv' (Group.swings_promote _) (groups_attach_self hat s)
      (fun j h hne hh => hord.attach_ne hv hv₁ hext hne hh) fun hstale c hc => ?_
    exact outranks_attach_of_preferred hkey hm hlive hat hpreferred (hord id g hat hstale) hc
  | @imposed g hat hfresh =>
    have hv₁ := valid_attach hv hat hlive hfresh
    have hext := (Quiet.attach hat hlive hfresh).extends
    have hlast := candidates_attach_last g id s
    exact ordered_force hv₁ hv' (groups_attach_self hat s) (List.getElem?_eq_some_iff.mp hlast).1
      fun j h hne hh => hord.attach_ne hv hv₁ hext hne hh

/-! ### Ranking again -/

/-- What a group is ranked by is at least as good as all that may represent it. -/
theorem outranks_of_best (hkey : model.RanksBy key) (hm : m.Reachable) {w : Shape × Nat}
    (hat : m.groups[id]? = some g) (hbest : m.best model id g.top (challengers g) = .ok w)
    (hc : m.Eligible id g c) : m.Outranks key w c := by
  have hlive : ∀ c ∈ challengers g, ∀ i ∈ c.1.inputs, i < m.size := fun c hc =>
    hm.valid.live ⟨g, hat, List.mem_of_getElem? (mem_challengers_iff.mp hc).1⟩
  obtain ⟨w', hw', htop, hall⟩ : ∃ w, m.best model id g.top (challengers g) = .ok w ∧
      m.Outranks key w g.top ∧
      ∀ c ∈ challengers g, m.leadsTo c.1 id = false → m.Outranks key w c :=
    best_spec hkey hm (hm.valid.live_rep (rep?_of_group hat)) hlive
  obtain rfl : w = w' := Except.ok.inj (hbest.symm.trans hw')
  by_cases hpos : c.2 = g.representative
  · exact hc.eq_top hpos ▸ htop
  · exact hall c (mem_challengers_iff.mpr ⟨hc.at_pos, hpos, hc.alive⟩) hc.apart

/-- Ranking a group again leaves all groups ranked or stale. -/
theorem Ranking.ordered {r : Except Fault Bool} (h : Ranking model id m r m')
    (hkey : model.RanksBy key) (hm : m.Reachable) (hv' : m'.Valid) (hord : m.Ordered key) :
    m'.Ordered key := by
  have hv := hm.valid
  have hsettle : ∀ j, (m.edit id Group.settle).rep? j = m.rep? j :=
    rep?_edit_of_shape fun _ _ => rfl
  cases h with
  | unknown => exact hord
  | rested => exact hord
  | failed => exact hord
  | @kept g s hat _ hbest =>
    have hext := (Quiet.settle hat).extends
    have htop : (s, g.representative) = g.top := by
      rcases best_cases hbest with heq | ⟨hmem, -⟩
      · exact heq
      · exact absurd rfl (mem_challengers_iff.mp hmem).2.1
    have hranked : m.Ranked key id g :=
      ⟨hv.eligible_top hat, fun _ hc => htop ▸ outranks_of_best hkey hm hat hbest hc⟩
    refine hord.edit hv hv' hext hat rfl fun _ => ?_
    exact hranked.of_rep? hv hv' hext (fun i _ => hsettle i) hat rfl rfl rfl
  | @moved g s pos hat hpos _ _ _ hbest =>
    have hv₁ := (Quiet.settle hat).valid hv
    have hext := (Quiet.settle hat).extends
    refine ordered_swing hv₁ hv' (Group.swings_promote pos) (groups_edit_self hat _) ?_ ?_
    · intro j h hne hh hstale
      rw [groups_edit_ne hne] at hh
      exact (hord j h hh hstale).of_rep? hv hv₁ hext (fun i _ => hsettle i) hh rfl rfl rfl
    · rintro - c ⟨hat_pos, halive, hapart⟩
      rw [Group.candidates_promote] at hat_pos
      rw [Group.retired_promote] at halive
      rw [leadsTo_congr rfl hsettle (size_edit m id _)] at hapart
      have htop : (g.settle.promote pos).top = (s, pos) := by
        have hpos' : g.settle.candidates[pos]? = some s := hpos
        rw [Group.top, Group.shape_promote hpos',
          Group.representative_promote (List.getElem?_eq_some_iff.mp hpos').1]
      rw [htop]
      exact (outranks_of_best hkey hm hat hbest ⟨hat_pos, halive, hapart⟩).congr hv
        (fun i _ j _ => hsettle j) fun i _ j _ => hsettle j

theorem Offering.ordered {o : Offer} {r : Except Fault Outcome}
    (h : Offering model id o m r m') (hkey : model.RanksBy key) (hm : m.Reachable)
    (hv' : m'.Valid) (hord : m.Ordered key) : m'.Ordered key := by
  cases h with
  | unknown => exact hord
  | itself => exact hord
  | dangling hgrows => exact hgrows.ordered hm.valid hord
  | refused hgrows => exact hgrows.ordered hm.valid hord
  | placed hgrows hs _ hplacement =>
    have hlive := (hgrows.valid hm.valid).live_normal? hs
    exact hplacement.ordered hkey (hgrows.reachable hm) hv' hlive (hgrows.ordered hm.valid hord)

/-- In a memo in which all plans have been ranked by one key, every group is ranked that is
not stale. -/
theorem ReachableBy.ordered (hkey : model.RanksBy key) (h : m.ReachableBy model) :
    m.Ordered key := by
  induction h with
  | empty => exact fun _ _ hg => nomatch hg
  | @call m _ c h ih =>
    have hm := h.reachable
    have hv' : ((c.edit model).runOn m).2.Valid := (c.moves model hm.valid).valid hm.valid
    cases c with
    | insert p =>
      obtain ⟨m', hgrows, ⟨id, hrun, -⟩ | ⟨i, hrun⟩⟩ := insert_cases p hm.valid
      · simpa only [Call.edit, hrun] using hgrows.ordered hm.valid ih
      · simpa only [Call.edit, hrun] using hgrows.ordered hm.valid ih
    | offer id o =>
      obtain ⟨r, m', hrun, hoffering⟩ := offer_cases hm.valid model id o
      simp only [Call.edit, hrun] at hv' ⊢
      exact hoffering.ordered hkey hm hv' ih
    | rerank id =>
      obtain ⟨r, m', hrun, hranking⟩ := rerank_cases model id m
      simp only [Call.edit, hrun] at hv' ⊢
      exact hranking.ordered hkey hm hv' ih
    | markExplored id key' =>
      cases hg : m.groups[id]? with
      | none =>
        simp only [Call.edit, runOn_markExplored_of_unknown hg]
        exact ih
      | some g =>
        simp only [Call.edit, runOn_markExplored_of_group hg] at hv' ⊢
        have hmove : Explore id key' m (m.edit id fun g => g.explore key') := .explore hg
        have hext := hmove.extends
        have hrep := hmove.rep?
        refine ih.edit (f := fun g => g.explore key') hm.valid hv' hext hg rfl fun hstale => ?_
        exact (ih id g hg hstale).of_rep? hm.valid hv' hext (fun i _ => hrep i) hg rfl rfl rfl

/-- Ranking a group again does not fail, and then the group is ranked. -/
theorem ReachableBy.ranked_of_rerank (hkey : model.RanksBy key) (h : m.ReachableBy model)
    (hid : id < m.size) :
    ∃ moved m' g, (rerank model id).runOn m = (.ok moved, m') ∧ m'.groups[id]? = some g ∧
      g.stale = false ∧ m'.Ranked key id g := by
  have hm := h.reachable
  have hord := (ReachableBy.call (.rerank id) h).ordered hkey
  obtain ⟨r, m', hrun, hranking⟩ := rerank_cases model id m
  simp only [Call.edit, hrun] at hord
  have hdone : ∃ moved g, r = .ok moved ∧ m'.groups[id]? = some g ∧ g.stale = false := by
    cases hranking with
    | unknown hnone =>
      obtain ⟨g, hg⟩ := lt_size_iff.mp hid
      cases hg.symm.trans hnone
    | @failed g f hat hbest =>
      have hlive : ∀ c ∈ challengers g, ∀ i ∈ c.1.inputs, i < m.size := fun c hc =>
        hm.valid.live ⟨g, hat, List.mem_of_getElem? (mem_challengers_iff.mp hc).1⟩
      obtain ⟨w, hw⟩ : ∃ w, m.best model id g.top (challengers g) = .ok w :=
        (best_spec hkey hm (hm.valid.live_rep (rep?_of_group hat)) hlive).imp fun _ hw => hw.1
      cases hbest.symm.trans hw
    | rested hat hstale => exact ⟨_, _, rfl, hat, hstale⟩
    | kept hat => exact ⟨_, _, rfl, groups_edit_self hat _, rfl⟩
    | moved hat =>
      have hself := groups_edit_self (groups_edit_self hat Group.settle)
      refine ⟨_, _, rfl, groups_invalidate_self (hself _), ?_⟩
      unfold Group.reopen
      split <;> simp [Group.settle]
  obtain ⟨moved, g, rfl, hg, hstale⟩ := hdone
  exact ⟨moved, m', g, hrun, hg, hstale, hord id g hg hstale⟩

end Memo

end PlanOptimizer
