import PlanOptimizer.Proofs.Fixpoint.Filters
import PlanOptimizer.Proofs.Memo.Held
import PlanOptimizer.Proofs.Memo.Steps
import PlanOptimizer.Proofs.Rules.Chains

/-!
# What a chain owes

The representatives below a group of a join-free plan make up a chain.  `Memo.Owes` counts what may
still be changed there: one for each filter, and one for pruning the scan, unless the projection over
the scan has been *sealed*, which is to say that it has been offered its narrow scan.

Exploring a group of the chain pays for what it changes (`Optimizer.meets_explore_of_owes`).  A filter
that goes away is one change.  The group may have taken over a sealed projection then, and is not
sealed itself.  But its notes have been wiped, so it is offered the narrow scan in the same
exploration, and there is one change in all.

The scan that is offered is the narrow scan of the foot of the chain, so there is one new group at
most (`Memo.Chained`).
-/

namespace PlanOptimizer

open Relation Edit Rule

variable {catalog : Catalog Float} {m m' m₀ m₁ : Memo} {id x y : GroupId} {f F : Foot} {k n : Nat}
  {s t t' : Shape} {g : Group} {es : List Expr} {names : List String} {c : Scan} {op : Unary}
  {model : CostModel} {b : Bool}

theorem Node.eq_scan_of_canon (h : t'.canon = (Node.scan c : Shape).canon) :
    ∃ c', t' = .scan c' ∧ c'.canon = c.canon := by
  cases t' with
  | scan c' => exact ⟨c', rfl, Node.scan.inj h⟩
  | unary _ _ => cases h
  | join _ _ _ => cases h

theorem Node.eq_unary_of_canon (h : t'.canon = (Node.unary op y : Shape).canon) :
    ∃ op', t' = .unary op' y ∧ op'.canon = op.canon := by
  cases t' with
  | scan _ => cases h
  | unary op' y' =>
    obtain ⟨hop, rfl⟩ := Node.unary.inj h
    exact ⟨op', rfl, hop⟩
  | join _ _ _ => cases h

namespace Memo

/-! ## Debts -/

/-- A projection over a scan that has been offered its narrow scan, if that saves anything. -/
structure Sealed (catalog : Catalog Float) (m : Memo) (id : GroupId) (es : List Expr)
    (names : List String) (c : Scan) : Prop where
  fresh : m.Fresh id
  project : ∃ x, m.rep? id = some (.unary (.project es names) x) ∧ m.Lone x (.scan c)
  pruned : saves (needed es) (columnsRead catalog c) = true →
    ∃ y t, m.home? (.scan { c with columns := needed es }) = some y ∧ m.Candidate id t ∧
      t.canon = (Node.unary (.project es names) y : Shape).canon

/-- What may still be changed in the chain from a group down, and the foot of the chain. -/
inductive Owes (catalog : Catalog Float) (m : Memo) : GroupId → Foot → Nat → Prop where
  /-- A scan may still be pruned. -/
  | scan {id : GroupId} {c : Scan} (lone : m.Lone id (.scan c)) : Owes catalog m id c.foot 1
  /-- A filter may go away. -/
  | unary {id x : GroupId} {op : Unary} {f : Foot} {k : Nat} (lone : m.Lone id (.unary op x))
      (below : Owes catalog m x f k) : Owes catalog m id (op.foot f) (op.filters + k)
  /-- All is done. -/
  | sealed {id : GroupId} {es : List Expr} {names : List String} {c : Scan}
      (done : m.Sealed catalog id es names c) :
      Owes catalog m id ((Unary.project es names).foot c.foot) 0

/-- A projection over a scan that reads just what is needed is sealed. -/
theorem sealed_of_needed (hfresh : m.Fresh id) (hrep : m.rep? id = some (.unary (.project es names) x))
    (hx : m.Lone x (.scan c)) (hcolumns : c.columns = needed es) (hne : needed es ≠ []) :
    m.Sealed catalog id es names c := by
  refine ⟨hfresh, ⟨x, hrep, hx⟩, fun hsaves => ?_⟩
  rw [← hcolumns] at hsaves hne
  cases (not_saves_of_columns hne).symm.trans hsaves

theorem Sealed.congr (h : m.Sealed catalog id es names c) (hext : m.Extends m')
    (hkeep : ∀ {j}, m.Leads id j → j < m.size → m.KeepsAt m' j) : m'.Sealed catalog id es names c := by
  obtain ⟨x, hrep, hlone⟩ := h.project
  have hid := hkeep .refl h.fresh.lt
  have hx := hkeep (.single ⟨_, candidate_of_rep? hrep, List.mem_singleton_self x⟩) hlone.lt
  refine ⟨hid.fresh h.fresh, ⟨x, hid.rep.trans hrep, hlone.congr hx.rep hx.stock⟩, fun hsaves => ?_⟩
  obtain ⟨y, t, hhome, ⟨g, hg, ht⟩, hcanon⟩ := h.pruned hsaves
  obtain ⟨g', hg', hgext⟩ := hext.group hg
  exact ⟨y, t, hext.home? hhome, ⟨g', hg', hgext.mem ht⟩, hcanon⟩

/-- A debt stays if all groups of the chain are kept. -/
theorem Owes.congr (h : m.Owes catalog id f k) (hext : m.Extends m')
    (hkeep : ∀ {j}, m.Leads id j → j < m.size → m.KeepsAt m' j) : m'.Owes catalog id f k := by
  induction h with
  | scan lone =>
    have hid := hkeep .refl lone.lt
    exact .scan (lone.congr hid.rep hid.stock)
  | @unary id x op f k lone _ ih =>
    have hid := hkeep .refl lone.lt
    have hx : m.Mentions id x := ⟨_, candidate_of_rep? lone.rep?, List.mem_singleton_self x⟩
    exact .unary (lone.congr hid.rep hid.stock) (ih fun hj => hkeep (.head hx hj))
  | sealed done => exact .sealed (done.congr hext hkeep)

theorem Owes.keeps (h : m.Owes catalog id f k) (hk : m.Keeps m') : m'.Owes catalog id f k :=
  h.congr hk.ext fun _ _ => hk.keeps _

theorem Owes.lt (h : m.Owes catalog id f k) : id < m.size := by
  cases h with
  | scan lone => exact lone.lt
  | unary lone => exact lone.lt
  | sealed done => exact done.fresh.lt

/-- The group does not turn when it is ranked again. -/
theorem Owes.settled (h : m.Owes catalog id f k) : m.Fresh id ∨ ∃ s, m.Lone id s := by
  cases h with
  | scan lone => exact .inr ⟨_, lone⟩
  | unary lone => exact .inr ⟨_, lone⟩
  | sealed done => exact .inl done.fresh

/-- A representative of a chain is no join. -/
theorem Owes.rep (h : m.Owes catalog id f k) :
    ∃ s, m.rep? id = some s ∧ ∀ j a b, s ≠ .join j a b := by
  cases h with
  | scan lone => exact ⟨_, lone.rep?, nofun⟩
  | unary lone => exact ⟨_, lone.rep?, nofun⟩
  | sealed done =>
    obtain ⟨x, hrep, -⟩ := done.project
    exact ⟨_, hrep, nofun⟩

/-- A scan may be pruned. -/
theorem Owes.of_scan (h : m.Owes catalog id f k) (hrep : m.rep? id = some (.scan c)) :
    m.Lone id (.scan c) ∧ f = c.foot ∧ k = 1 := by
  cases h with
  | scan lone =>
    cases lone.rep?.symm.trans hrep
    exact ⟨lone, rfl, rfl⟩
  | unary lone => cases lone.rep?.symm.trans hrep
  | sealed done =>
    obtain ⟨y, hy, -⟩ := done.project
    cases hy.symm.trans hrep

/-- A filter is paid for by itself. -/
theorem Owes.of_filter (h : m.Owes catalog id f k) {p : Expr}
    (hrep : m.rep? id = some (.unary (.filter p) x)) : ∃ k', m.Owes catalog x f k' ∧ k = 1 + k' := by
  cases h with
  | scan lone => cases lone.rep?.symm.trans hrep
  | unary lone below =>
    cases lone.rep?.symm.trans hrep
    exact ⟨_, below, rfl⟩
  | sealed done =>
    obtain ⟨y, hy, -⟩ := done.project
    cases hy.symm.trans hrep

/-- A group that takes over the representative of a chain owes what the chain owes.  If the chain is
sealed, the scan is to be pruned again. -/
theorem Owes.takeover (h : m.Owes catalog x f k) (hx : m.rep? x = some t) (ht : t'.canon = t.canon)
    (hlone : m'.Lone id t') (hext : m.Extends m')
    (hkeep : ∀ {j}, m.Leads x j → j < m.size → m.KeepsAt m' j) :
    m'.Owes catalog id f k ∨ ∃ es names y c, t' = .unary (.project es names) y ∧
      m'.Lone y (.scan c) ∧ f = (Unary.project es names).foot c.foot := by
  cases h with
  | @scan _ c lone =>
    obtain rfl : Node.scan c = t := Option.some.inj (lone.rep?.symm.trans hx)
    obtain ⟨c', rfl, hc⟩ := Node.eq_scan_of_canon ht
    exact .inl (Scan.foot_congr hc ▸ .scan hlone)
  | @unary _ y op f k lone below =>
    obtain rfl : Node.unary op y = t := Option.some.inj (lone.rep?.symm.trans hx)
    obtain ⟨op', rfl, hop⟩ := Node.eq_unary_of_canon ht
    have hy : m.Mentions x y := ⟨_, candidate_of_rep? lone.rep?, List.mem_singleton_self y⟩
    have hbelow := below.congr hext fun hj => hkeep (.head hy hj)
    rw [← Unary.foot_congr hop f, ← Unary.filters_congr hop]
    exact .inl (.unary hlone hbelow)
  | @sealed _ es names c done =>
    obtain ⟨y, hrep, hscan⟩ := done.project
    obtain rfl : Node.unary (.project es names) y = t := Option.some.inj (hrep.symm.trans hx)
    obtain ⟨op', rfl, hop⟩ := Node.eq_unary_of_canon ht
    have hy := hkeep (.single ⟨_, candidate_of_rep? hrep, List.mem_singleton_self y⟩) hscan.lt
    have hscan' := hscan.congr hy.rep hy.stock
    rw [← Unary.foot_congr hop]
    cases op' with
    | project es' names' => exact .inr ⟨es', names', y, c, rfl, hscan', rfl⟩
    | _ => cases hop

/-! ## Memos of a run -/

/-- A memo in the run of a chain that was inserted as `n` groups at most.  There is one more group at
most, the one for the narrow scan. -/
structure Chained (F : Foot) (n : Nat) (m : Memo) : Prop where
  sorted : m.Sorted
  size : m.size ≤ n + (m.index.find? (.scan F.narrow)).isSome.toNat
  /-- The group of the narrow scan has no other candidate. -/
  bare : ∀ {y}, m.index.find? (.scan F.narrow) = some y → ∃ c, m.Lone y (.scan c) ∧ c.canon = F.narrow

theorem Chained.valid (h : Chained F n m) : m.Valid := h.sorted.reachable.valid

theorem Chained.size_le (h : Chained F n m) : m.size ≤ n + 1 :=
  h.size.trans (Nat.add_le_add_left (Bool.toNat_le _) n)

theorem Chained.keeps (h : Chained F n m) (hk : m.Keeps m') (hm' : m'.Reachable) :
    Chained F n m' where
  sorted := h.sorted.of_candidates hm' hk.candidate
  size := by
    rw [hk.size, hk.index]
    exact h.size
  bare hy := by
    rw [hk.index] at hy
    obtain ⟨c, hlone, hcanon⟩ := h.bare hy
    exact ⟨c, hlone.congr (hk.keeps _).rep (hk.keeps _).stock, hcanon⟩

/-- A scan stays lone when there is a step at a group of another operator. -/
theorem Lone.of_scan (h : m.Lone y (.scan c)) (hleaves : m.Leaves id b m')
    (hrep : m.rep? id = some (.unary op x)) : m'.Lone y (.scan c) := by
  have hne : y ≠ id := by
    rintro rfl
    cases h.rep?.symm.trans hrep
  exact h.congr (hleaves.rep h.lt hne) (hleaves.stock h.lt hne)

/-- A shape that is no new scan is placed in a group of another operator. -/
theorem Chained.placed (h : Chained F n m) {forced : Bool} {outcome : Outcome}
    (hplacement : Placement model id t m forced (.ok outcome) m') (hm' : m'.Sorted)
    (hleaves : m.Leaves id b m') (hrep : m.rep? id = some (.unary op x))
    (ht : ∀ c, t = .scan c → (m.home? t).isSome = true) : Chained F n m' := by
  have hindex : m'.index.find? (.scan F.narrow) = m.index.find? (.scan F.narrow) := by
    refine hplacement.find?_index fun heq => ?_
    cases t with
    | scan c => exact ht c rfl
    | unary _ _ => cases heq
    | join _ _ _ => cases heq
  refine ⟨hm', by rw [hplacement.size, hindex]; exact h.size, fun hy => ?_⟩
  obtain ⟨c, hlone, hcanon⟩ := h.bare (hindex.symm.trans hy)
  exact ⟨c, hlone.of_scan hleaves hrep, hcanon⟩

/-- The narrow scan is there already, or its group is the new one. -/
theorem Chained.insert_narrow (h : Chained F n m) (hc : c.canon = F.narrow) :
    ∃ y m₁, (Memo.insert (.scan c)).runOn m = (.ok y, m₁) ∧ m.Grows m₁ ∧
      m₁.home? (.scan c) = some y ∧ Chained F n m₁ := by
  have hkey : (Node.scan c : Shape).canon = .scan F.narrow := congrArg Node.scan hc
  cases hhome : m.home? (.scan c) with
  | some y => exact ⟨y, m, runOn_insert_of_find? hhome, .refl, hhome, h⟩
  | none =>
    have hrun : (Memo.insert (.scan c)).runOn m = (.ok m.size, m.withGroup (.scan c)) := by
      show (enter (.scan c)).runOn m = _
      rw [runOn_enter, hhome]
    have hgrows : m.Grows (m.withGroup (.scan c)) := .single (.create (fun _ hi => nomatch hi) hhome)
    have hhome' : (m.withGroup (.scan c)).home? (.scan c) = some m.size := by
      rw [home?_withGroup, if_pos rfl]
    have hnone : m.index.find? (.scan F.narrow) = none := by rw [← hkey]; exact hhome
    have hfind : (m.withGroup (.scan c)).index.find? (.scan F.narrow) = some m.size := by
      rw [← hkey]
      exact hhome'
    obtain ⟨G, hG⟩ := h.sorted.graded
    obtain ⟨G', -, hG'⟩ := hG.grows h.valid hgrows
    refine ⟨m.size, _, hrun, hgrows, hhome', ⟨hgrows.reachable h.sorted.reachable, G', hG'⟩, ?_, ?_⟩
    · have hsize := h.size
      rw [hnone] at hsize
      rw [size_withGroup, hfind]
      exact Nat.succ_le_succ hsize
    · intro y hy
      obtain rfl : m.size = y := Option.some.inj (hfind.symm.trans hy)
      exact ⟨c, lone_of_single (groups_withGroup_size m _), hc⟩

/-! ## Offers -/

/-- What a rule offers is placed. -/
theorem Chained.offer {o : Offer} (h : Chained F n m) (htotal : model.Total)
    (hrep : m.rep? id = some s) (ho : Rewrite m s o) (hgrows : m.Grows m₁) (h₁ : Chained F n m₁)
    (hrun : (offered id o.plan).runOn m = (.ok (some t), m₁)) (ht : m₁.normal? o.plan = some t) :
    ∃ outcome m', (Memo.offer model id o).runOn m = (.ok outcome, m') ∧
      Placement model id t m₁ o.forced (.ok outcome) m' ∧ m'.Sorted ∧
      m₁.Leaves id outcome.isChange m' := by
  have hid := lt_of_candidate (candidate_of_rep? hrep)
  have hlive := h₁.valid.live_normal? ht
  obtain ⟨G, hG⟩ := h₁.sorted.graded
  have hadmits := ho.admits (candidate_of_rep? hrep) hgrows.extends h₁.valid hG ht
  obtain ⟨outcome, m', hoffer, hplacement⟩ := hG.offer_of_offered h.sorted.reachable hgrows htotal
    hid hlive hrun hadmits
  exact ⟨outcome, m', hoffer, hplacement,
    ⟨h.sorted.reachable.of_offer hoffer, G, hG.of_candidates hadmits hplacement.candidates⟩,
    hplacement.leaves h₁.valid hlive (hG.apart h₁.valid hlive hadmits)⟩

/-- What a replacement by a shape has come to. -/
structure Replaced (F : Foot) (n : Nat) (m : Memo) (id : GroupId) (t : Shape) (changed : Bool)
    (m' : Memo) : Prop where
  chained : Chained F n m'
  leaves : m.Leaves id changed m'
  /-- The group has no other candidate to turn to. -/
  lone : ∃ t', m'.Lone id t' ∧ t'.canon = t.canon
  /-- What is below the group is kept. -/
  below : ∀ {x j}, m.Mentions id x → m.Leads x j → j < m.size → m.KeepsAt m' j
  /-- If the group has another representative then, its notes are gone. -/
  wiped : ∀ {s}, m.rep? id = some s → s.canon ≠ t.canon →
    ∃ g, m'.groups[id]? = some g ∧ g.explored = []

theorem Chained.replace {p : Plan} (h : Chained F n m) (htotal : model.Total)
    (hrep : m.rep? id = some (.unary op x)) (ho : Rewrite m (.unary op x) (.replacement p))
    (hrun : (offered id p).runOn m = (.ok (some t), m)) (ht : m.normal? p = some t)
    (hhome : ∀ c, t = .scan c → (m.home? t).isSome = true) :
    ∃ outcome m', (Memo.offer model id (.replacement p)).runOn m = (.ok outcome, m') ∧
      Replaced F n m id t outcome.isChange m' := by
  obtain ⟨outcome, m', hoffer, hplacement, hsorted, hleaves⟩ :=
    h.offer htotal hrep ho .refl h hrun ht
  obtain ⟨G, hG⟩ := hsorted.graded
  refine ⟨outcome, m', hoffer, h.placed hplacement hsorted hleaves hrep hhome, hleaves,
    hplacement.lone, fun hx hj hlt => hleaves.keeps_below hG hx hj hlt, fun hs hne => ?_⟩
  obtain ⟨g, hg, rfl⟩ := rep?_eq_some_iff.mp hs
  exact hplacement.wiped h.valid (h.valid.live_normal? ht) hleaves.ext hg hne

/-- A projection over a scan is sealed when it has been offered its narrow scan.  If it was sealed
before, the offer is a duplicate. -/
theorem Chained.prune (h : Chained F n m) (htotal : model.Total)
    (hrep : m.rep? id = some (.unary (.project es names) x)) (hx : m.Lone x (.scan c))
    (hfresh : m.Fresh id) (hwithin : ((Unary.project es names).foot c.foot).Within F)
    (hsaves : saves (needed es) (columnsRead catalog c) = true) :
    ∃ outcome m' c', (Memo.offer model id (.alternative (.project es names
        (.scan { c with columns := needed es })))).runOn m = (.ok outcome, m') ∧
      Chained F n m' ∧ m.Leaves id outcome.isChange m' ∧ m'.Sealed catalog id es names c' ∧
      c'.foot = c.foot ∧ (m.Sealed catalog id es names c → outcome.isChange = false) := by
  have hnarrow : ({ c with columns := needed es } : Scan).canon = F.narrow :=
    (c.canon_narrow es names).trans (hwithin.narrow_eq rfl)
  obtain ⟨y, m₁, hinsert, hgrows, hhome, h₁⟩ := h.insert_narrow hnarrow
  have hnormal : m₁.normal? (.project es names (.scan { c with columns := needed es })) =
      some (.unary (.project es names) y) := over?_unary_iff.mpr ⟨y, hhome, rfl⟩
  obtain ⟨outcome, m', hoffer, hplacement, hsorted, hleaves⟩ :=
    h.offer htotal hrep (.prune hx.rep?) hgrows h₁ (runOn_offered_unary hinsert) hnormal
  have hrep₁ : m₁.rep? id = some (.unary (.project es names) x) :=
    (hgrows.rests.rep? hfresh.lt).trans hrep
  have hfresh' : m'.Fresh id :=
    (hleaves.fresh (hgrows.rests.fresh hfresh)).resolve_right fun hstale => hstale.1 rfl
  obtain ⟨hturn, t, ht, hcanon⟩ := hplacement.alternative
  have hend : ∃ c', m'.Sealed catalog id es names c' ∧ c'.foot = c.foot := by
    rcases hturn with hsame | hturned
    · have hx₁ : m₁.Lone x (.scan c) := hx.congr (hgrows.rests.rep? hx.lt) (hgrows.stock? hx.lt)
      exact ⟨c, ⟨hfresh', ⟨x, hsame.trans hrep₁, hx₁.of_scan hleaves hrep₁⟩, fun _ =>
        ⟨y, t, hleaves.ext.home? hhome, ht, hcanon⟩⟩, rfl⟩
    · obtain ⟨c', hy, hc'⟩ := h₁.bare (y := y) (by rw [← hnarrow]; exact hhome)
      have hsame : c'.canon = ({ c with columns := needed es } : Scan).canon := hc'.trans hnarrow.symm
      exact ⟨c', sealed_of_needed hfresh' hturned (hy.of_scan hleaves hrep₁)
        (congrArg Scan.columns hsame) (ne_nil_of_saves hsaves), (Scan.foot_congr hsame).trans rfl⟩
  obtain ⟨c', hsealed, hfoot⟩ := hend
  refine ⟨outcome, m', c', hoffer, h₁.placed hplacement hsorted hleaves hrep₁ nofun, ?_, hsealed, hfoot,
    fun hbefore => ?_⟩
  · have hall := (hgrows.leaves id).trans hleaves
    rwa [Bool.false_or] at hall
  · obtain ⟨y', t', hhome', ⟨g, hg, ht'⟩, hcanon'⟩ := hbefore.pruned hsaves
    obtain rfl : y = y' := Option.some.inj (hhome.symm.trans (hgrows.extends.home? hhome'))
    obtain ⟨g₁, hg₁, hext⟩ := hgrows.extends.group hg
    exact hplacement.unchanged hg₁ (Group.holds_iff.mpr ⟨t', hext.mem ht', hcanon'⟩)

end Memo

end PlanOptimizer
