import Mathlib.Data.Finset.Card
import Mathlib.Data.List.Dedup
import PlanOptimizer.Proofs.Memo.Meaning
import PlanOptimizer.Proofs.Memo.Resolvable

/-!
# Canonical memos

Plans without references are inserted one after the other into the empty memo.  The memo they
leave is told by the plans up to the spelling of literals: there is one group with one candidate
for each different part of them, and each plan is in the group that resolves to it
(`Memo.canonical_of_insertions`).

That no two parts share a group is seen from a meaning: a plan means its own canonical form
(`Meaning.spelled`), and all that is found under one number means the same.  That no part has two
groups is seen from the search, which goes by canonical forms (`Memo.find?_eq_of_canon`).  And
that every group is the group of a part is a property of one insertion that is carried along.
-/

namespace PlanOptimizer

open Relation

/-! ## Parts -/

namespace Plan

/-- A plan and all parts of it, from left to right and from the top down. -/
def subplans : Plan → List Plan
  | .scan s => [.scan s]
  | .unary op a => .unary op a :: a.subplans
  | .join j a b => .join j a b :: (a.subplans ++ b.subplans)
  | .group id => [.group id]

theorem hasGroups_of_subplans {p : Plan} (hp : p.hasGroups = false) :
    ∀ u ∈ p.subplans, u.hasGroups = false := by
  intro u hu
  induction p with
  | scan s => exact List.mem_singleton.mp hu ▸ hp
  | unary op a ih =>
    rcases List.mem_cons.mp hu with rfl | hu
    · exact hp
    · exact ih hp hu
  | join j a b iha ihb =>
    obtain ⟨ha, hb⟩ := Bool.or_eq_false_iff.mp hp
    rcases List.mem_cons.mp hu with rfl | hu
    · exact hp
    · rcases List.mem_append.mp hu with hu | hu
      · exact iha ha hu
      · exact ihb hb hu
  | group id => cases hp

theorem length_subplans (p : Plan) : p.subplans.length = p.nodeCount := by
  induction p with
  | scan _ | group _ => rfl
  | unary op a ih => rw [subplans, List.length_cons, ih, nodeCount, Nat.add_comm]
  | join j a b iha ihb =>
    rw [subplans, List.length_cons, List.length_append, iha, ihb, nodeCount]
    omega

end Plan

/-! ## Canonical forms as meanings -/

namespace Meaning

/-- The canonical form. -/
def spelled : Meaning Plan where
  scan s := .scan s.canon
  unary op v := .unary op.canon v
  join j v w := .join j.canon v w
  scan_same h := congrArg Plan.scan h
  unary_same v h := congrArg (Plan.unary · v) h
  join_same v w h := congrArg (Plan.join · v w) h

/-- A plan without references means its canonical form. -/
theorem spelled_value {p : Plan} (hp : p.hasGroups = false) (D : GroupId → Plan) :
    spelled.value D p = p.canon := by
  induction p with
  | scan s => rfl
  | unary op a ih => exact congrArg (Plan.unary op.canon) (ih hp)
  | join j a b iha ihb =>
    obtain ⟨ha, hb⟩ := Bool.or_eq_false_iff.mp hp
    exact congrArg₂ (Plan.join j.canon) (iha ha) (ihb hb)
  | group id => cases hp

end Meaning

namespace Memo

variable {m m' : Memo} {p p' u : Plan} {id : GroupId} {s : Shape}

/-! ## Finding parts -/

theorem home?_eq_of_canon {t : Shape} (h : s.canon = t.canon) : m.home? s = m.home? t :=
  congrArg m.index.find? h

/-- Plans that are the same are found alike. -/
theorem find?_eq_of_canon (h : p.canon = p'.canon) : m.find? p = m.find? p' := by
  induction p generalizing p' with
  | scan s =>
    cases p' with
    | scan t => exact home?_eq_of_canon (congrArg Node.scan (Plan.scan.inj h))
    | unary _ _ => cases h
    | join _ _ _ => cases h
    | group _ => cases h
  | unary op a ih =>
    cases p' with
    | unary op' a' =>
      obtain ⟨hop, ha⟩ := Plan.unary.inj h
      rw [find?, find?, ih ha]
      exact congrArg _ (funext fun x => home?_eq_of_canon (congrArg (Node.unary · x) hop))
    | scan _ => cases h
    | join _ _ _ => cases h
    | group _ => cases h
  | join j a b iha ihb =>
    cases p' with
    | join j' a' b' =>
      obtain ⟨hj, ha, hb⟩ := Plan.join.inj h
      rw [find?, find?, iha ha, ihb hb]
      exact congrArg _ (funext fun x => congrArg _ (funext fun y =>
        home?_eq_of_canon (congrArg (Node.join · x y) hj)))
    | scan _ => cases h
    | unary _ _ => cases h
    | group _ => cases h
  | group i =>
    cases p' with
    | group i' => rw [Plan.group.inj h]
    | scan _ => cases h
    | unary _ _ => cases h
    | join _ _ _ => cases h

/-- All parts of a plan that is found are found. -/
theorem find?_of_subplans (h : m.find? p = some id) (hu : u ∈ p.subplans) :
    ∃ j, m.find? u = some j := by
  induction p generalizing id with
  | scan s => exact ⟨id, List.mem_singleton.mp hu ▸ h⟩
  | unary op a ih =>
    rcases List.mem_cons.mp hu with rfl | hu
    · exact ⟨id, h⟩
    · obtain ⟨x, hx, -⟩ := find?_unary_iff.mp h
      exact ih hx hu
  | join j a b iha ihb =>
    rcases List.mem_cons.mp hu with rfl | hu
    · exact ⟨id, h⟩
    · obtain ⟨x, y, hx, hy, -⟩ := find?_join_iff.mp h
      rcases List.mem_append.mp hu with hu | hu
      · exact iha hx hu
      · exact ihb hy hu
  | group i => exact ⟨id, List.mem_singleton.mp hu ▸ h⟩

/-! ## New groups -/

/-- Every group of a memo is there already or is the group of one of some plans. -/
def NewFrom (us : List Plan) (m m' : Memo) : Prop :=
  ∀ j < m'.size, j < m.size ∨ ∃ u ∈ us, m'.find? u = some j

/-- What is new in a later memo is new in the earlier one or has come in between. -/
theorem NewFrom.trans {us vs : List Plan} {m₁ : Memo} (h : NewFrom us m m₁)
    (h' : NewFrom vs m₁ m') (hext : m₁.Extends m') : NewFrom (us ++ vs) m m' := by
  intro j hj
  rcases h' j hj with hj | ⟨u, hu, hfind⟩
  · rcases h j hj with hj | ⟨u, hu, hfind⟩
    · exact .inl hj
    · exact .inr ⟨u, List.mem_append_left _ hu, find?_mono hext hfind⟩
  · exact .inr ⟨u, List.mem_append_right _ hu, hfind⟩

/-- Entering a shape makes no group but its own. -/
theorem lt_or_eq_of_enter (h : (enter s).runOn m = (.ok id, m')) :
    ∀ j < m'.size, j < m.size ∨ j = id := by
  rw [runOn_enter] at h
  intro j hj
  split at h
  · cases h
    exact .inl hj
  · cases h
    rw [size_withGroup] at hj
    exact Nat.lt_succ_iff_lt_or_eq.mp hj

theorem extends_of_enter (hlive : ∀ i ∈ s.inputs, i < m.size)
    (h : (enter s).runOn m = (.ok id, m')) : m.Extends m' := by
  obtain ⟨_, _, hrun, hgrows, -⟩ := enter_cases hlive
  cases hrun.symm.trans h
  exact hgrows.extends

/-- The shape of a plan is entered when its parts have been inserted. -/
theorem NewFrom.enter {us : List Plan} {m₁ : Memo} (h : NewFrom us m m₁)
    (hlive : ∀ i ∈ s.inputs, i < m₁.size) (henter : (enter s).runOn m₁ = (.ok id, m'))
    (hfind : m'.find? p = some id) : NewFrom (p :: us) m m' := by
  intro j hj
  rcases lt_or_eq_of_enter henter j hj with hj | rfl
  · rcases h j hj with hj | ⟨u, hu, hu'⟩
    · exact .inl hj
    · exact .inr ⟨u, List.mem_cons_of_mem _ hu, find?_mono (extends_of_enter hlive henter) hu'⟩
  · exact .inr ⟨p, List.mem_cons_self, hfind⟩

/-- Inserting a plan makes no groups but those of its parts. -/
theorem newFrom_of_insert (hv : m.Valid) (h : (Memo.insert p).runOn m = (.ok id, m')) :
    NewFrom p.subplans m m' := by
  have hfind := find?_of_insert hv h
  induction p generalizing m id m' with
  | scan s =>
    have hnone : NewFrom [] m m := fun _ hj => .inl hj
    exact hnone.enter (s := .scan s) (fun _ hi => nomatch hi) h hfind
  | unary op a ih =>
    rw [runOn_insert_unary] at h
    obtain ⟨x, m₁, ha, henter⟩ := Edit.runOn_bind_ok_iff.mp h
    have hx := find?_of_insert hv ha
    have hv₁ := (grows_of_insert hv ha).valid hv
    have hover : m₁.over? (.unary op a) = some (.unary op x) :=
      over?_unary_iff.mpr ⟨x, hx, rfl⟩
    exact (ih hv ha hx).enter (hv₁.live_over? hover) henter hfind
  | join j a b iha ihb =>
    rw [runOn_insert_join] at h
    obtain ⟨x, m₁, ha, h⟩ := Edit.runOn_bind_ok_iff.mp h
    obtain ⟨y, m₂, hb, henter⟩ := Edit.runOn_bind_ok_iff.mp h
    have hx := find?_of_insert hv ha
    have hv₁ := (grows_of_insert hv ha).valid hv
    have hgrows := grows_of_insert hv₁ hb
    have hy := find?_of_insert hv₁ hb
    have hparts := (iha hv ha hx).trans (ihb hv₁ hb hy) hgrows.extends
    have hover : m₂.over? (.join j a b) = some (.join j x y) :=
      over?_join_iff.mpr ⟨x, y, find?_mono hgrows.extends hx, hy, rfl⟩
    exact hparts.enter ((hgrows.valid hv₁).live_over? hover) henter hfind
  | group i =>
    rw [Memo.insert, Edit.runOn_ask_bind] at h
    split at h
    · cases h
      exact fun _ hj => .inl hj
    · cases h

/-- There are no more groups than plans that they come from. -/
theorem NewFrom.size_le {us : List Plan} (h : NewFrom us .empty m) : m.size ≤ us.length := by
  have hids : List.range m.size ⊆ us.filterMap m.find? := fun j hj => by
    obtain ⟨u, hu, hfind⟩ := (h j (List.mem_range.mp hj)).resolve_left (Nat.not_lt_zero j)
    exact List.mem_filterMap.mpr ⟨u, hu, hfind⟩
  have hle := (List.subperm_of_subset List.nodup_range hids).length_le
  rw [List.length_range] at hle
  exact hle.trans (List.length_filterMap_le _ us)

/-! ## Inserting several plans -/

/-- Plans over groups that exist are all inserted, one after the other.  Each of them is found
then, and all new groups are those of their parts. -/
theorem insertAll_ok {ps : List Plan} (hv : m.Valid) (hps : ∀ p ∈ ps, ∀ i ∈ p.groups, i < m.size) :
    ∃ ids m', (ps.mapM Memo.insert).runOn m = (.ok ids, m') ∧ m.Grows m' ∧
      List.Forall₂ (fun p id => m'.find? p = some id) ps ids ∧
      NewFrom (ps.flatMap Plan.subplans) m m' := by
  induction ps generalizing m with
  | nil => exact ⟨[], m, rfl, .refl, .nil, fun _ hj => .inl hj⟩
  | cons p ps ih =>
    obtain ⟨id, m₁, hp, hgrows₁, hfind⟩ := insert_ok hv (hps p List.mem_cons_self)
    have hlive : ∀ p ∈ ps, ∀ i ∈ p.groups, i < m₁.size := fun q hq i hi =>
      hgrows₁.extends.size_le (hps q (List.mem_cons_of_mem _ hq) i hi)
    obtain ⟨ids, m', hrun, hgrows, hfound, hnew⟩ := ih (hgrows₁.valid hv) hlive
    refine ⟨id :: ids, m', ?_, hgrows₁.trans hgrows,
      .cons (find?_mono hgrows.extends hfind) hfound,
      (newFrom_of_insert hv hp).trans hnew hgrows.extends⟩
    rw [List.mapM_cons, Edit.runOn_bind_of_ok hp, Edit.runOn_bind_of_ok hrun, Edit.runOn_pure]

/-- Groups that have grown from nothing have one candidate each. -/
theorem Grows.single_candidate (h : Memo.empty.Grows m) {g : Group} (hg : m.groups[id]? = some g) :
    g.candidates.length = 1 := h.single_of_size_le hg (Nat.zero_le id)

/-- If some plans are all found, and every group is the group of one of them, there are as many
groups as different plans. -/
theorem size_eq_length_dedup {us : List Plan} {D : GroupId → Plan} (hv : m.Valid)
    (hD : Meaning.spelled.Models D m) (hclosed : ∀ u ∈ us, u.hasGroups = false)
    (hfound : ∀ u ∈ us, ∃ j, m.find? u = some j)
    (hgroups : ∀ j < m.size, ∃ u ∈ us, m.find? u = some j) :
    m.size = (us.map Plan.canon).dedup.length := by
  have hmeans : ∀ u ∈ us, ∀ j, m.find? u = some j → D j = u.canon := fun u hu j hj => by
    rw [← hD.find? hv hj, Meaning.spelled_value (hclosed u hu)]
  -- two groups that mean the same are found for plans that are the same
  have hinj : Set.InjOn D (Finset.range m.size) := by
    intro i hi j hj heq
    obtain ⟨u, hu, hui⟩ := hgroups i (Finset.mem_range.mp hi)
    obtain ⟨w, hw, hwj⟩ := hgroups j (Finset.mem_range.mp hj)
    rw [hmeans u hu i hui, hmeans w hw j hwj] at heq
    rw [find?_eq_of_canon heq, hwj] at hui
    exact (Option.some.inj hui).symm
  have himage : (Finset.range m.size).image D = (us.map Plan.canon).toFinset := by
    ext v
    simp only [Finset.mem_image, Finset.mem_range, List.mem_toFinset, List.mem_map]
    constructor
    · rintro ⟨j, hj, rfl⟩
      obtain ⟨u, hu, huj⟩ := hgroups j hj
      exact ⟨u, hu, (hmeans u hu j huj).symm⟩
    · rintro ⟨u, hu, rfl⟩
      obtain ⟨j, hj⟩ := hfound u hu
      exact ⟨j, hv.lt_of_find? hj, hmeans u hu j hj⟩
  calc m.size = (Finset.range m.size).card := (Finset.card_range _).symm
    _ = ((Finset.range m.size).image D).card := (Finset.card_image_of_injOn hinj).symm
    _ = (us.map Plan.canon).dedup.length := by rw [himage, List.card_toFinset]

/-- Plans without references are all inserted into the empty memo.  Each is in a group that
resolves to it, two of them are in one group if they are the same, and there is one group with
one candidate for each different part of them. -/
theorem canonical_of_insertions (ps : List Plan) (hps : ∀ p ∈ ps, p.hasGroups = false) :
    ∃ ids m, (ps.mapM Memo.insert).runOn .empty = (.ok ids, m) ∧ ids.length = ps.length ∧
      (∀ x ∈ ps.zip ids,
        ∃ q, (Plan.group x.2).resolve m.lookup = .ok q ∧ Plan.same q x.1 = true) ∧
      (∀ x ∈ ps.zip ids, ∀ y ∈ ps.zip ids, x.2 = y.2 ↔ Plan.same x.1 y.1 = true) ∧
      m.size = ((ps.flatMap Plan.subplans).map Plan.canon).dedup.length ∧
      ∀ g ∈ m.groups, g.candidates.length = 1 := by
  obtain ⟨ids, m, hrun, hgrows, hfound, hnew⟩ := insertAll_ok valid_empty fun p hp i hi =>
    absurd hi (Plan.not_mem_groups (hps p hp) i)
  have hv := hgrows.valid valid_empty
  obtain ⟨D, -, hD⟩ := (Meaning.spelled.models_empty Plan.group).grows valid_empty hgrows
  obtain ⟨hlength, hzip⟩ := List.forall₂_iff_zip.mp hfound
  have hmeans : ∀ x ∈ ps.zip ids, D x.2 = x.1.canon := fun x hx => by
    rw [← hD.find? hv (hzip hx), Meaning.spelled_value (hps _ (List.of_mem_zip hx).1)]
  refine ⟨ids, m, hrun, hlength.symm, fun x hx => ?_, fun x hx y hy => ?_, ?_, fun g hg => ?_⟩
  · obtain ⟨q, hq, hclosed⟩ := hv.resolve_ok (hv.lt_of_find? (hzip hx))
    refine ⟨q, hq, Plan.same_iff.mpr ?_⟩
    rw [← Meaning.spelled_value hclosed D, hD.resolve hq, hmeans x hx]
  · rw [Plan.same_iff]
    constructor
    · intro heq
      rw [← hmeans x hx, ← hmeans y hy, heq]
    · intro heq
      have hsame : m.find? x.1 = m.find? y.1 := find?_eq_of_canon heq
      rw [hzip hx, hzip hy] at hsame
      exact Option.some.inj hsame
  · have hall : ∀ p ∈ ps, ∃ id, m.find? p = some id :=
      ((List.forall₂_and_left _ _).mp (hfound.imp fun p id h => ⟨⟨id, h⟩, h⟩)).1
    refine size_eq_length_dedup hv hD (fun u hu => ?_) (fun u hu => ?_) fun j hj => ?_
    · obtain ⟨p, hp, hu⟩ := List.mem_flatMap.mp hu
      exact Plan.hasGroups_of_subplans (hps p hp) u hu
    · obtain ⟨p, hp, hu⟩ := List.mem_flatMap.mp hu
      obtain ⟨id, hid⟩ := hall p hp
      exact find?_of_subplans hid hu
    · exact (hnew j hj).resolve_left (Nat.not_lt_zero j)
  · obtain ⟨id, hid⟩ := List.mem_iff_getElem?.mp hg
    exact hgrows.single_candidate hid

section Respelled

/-- A scan whose predicate is a literal. -/
private def guarded (x : Float) : Plan := .scan ⟨⟨"s", "t"⟩, [], some (.literal (.float x))⟩

private def respelled : List Plan :=
  [.limit 0 5 (guarded 0.0),
    .join ⟨.cross, .always⟩ (guarded (-0.0)) (.limit 0 5 (guarded (-0.0))), guarded (-0.0)]

/-- Three plans have seven parts, and three different ones. -/
theorem canonical_of_respelled :
    (∀ p ∈ respelled, p.hasGroups = false) ∧ (respelled.flatMap Plan.subplans).length = 7 ∧
      ∃ m, (respelled.mapM Memo.insert).runOn .empty = (.ok [1, 2, 0], m) ∧ m.size = 3 ∧
        (∀ g ∈ m.groups, g.candidates.length = 1) ∧
        ∃ q, (Plan.group 0).resolve m.lookup = .ok q ∧ Plan.same q (guarded (-0.0)) = true := by
  have hclosed : ∀ p ∈ respelled, p.hasGroups = false := by decide +kernel
  have hids : ((respelled.mapM Memo.insert).runOn .empty).1 = .ok [1, 2, 0] := by decide +kernel
  have hparts : ((respelled.flatMap Plan.subplans).map Plan.canon).dedup.length = 3 := by
    decide +kernel
  obtain ⟨ids, m, hrun, -, hresolve, -, hsize, hone⟩ := canonical_of_insertions respelled hclosed
  obtain rfl : [1, 2, 0] = ids := by
    rw [hrun] at hids
    exact (Except.ok.inj hids).symm
  exact ⟨hclosed, by decide +kernel, m, hrun, hsize.trans hparts, hone,
    hresolve (guarded (-0.0), 0) (by decide +kernel)⟩

end Respelled

end Memo

end PlanOptimizer
