import Mathlib.Tactic.Tauto
import PlanOptimizer.Group.Resolution
import PlanOptimizer.Proofs.Except

/-!
# Expansion

`Lookup.expand` says what a plan without references stands for a plan: each
reference is replaced by the expanded plan of its group, from left to right.  It
carries the *path*, the groups whose plans are being expanded.  A group that is
met again on its own path is a cyclic reference.

Resolution works through an agenda and keeps what it has resolved.  Both agree for
every lookup (`Plan.resolve_eq_expand`).  A group may be taken from the store of
resolved ones, since its expansion uses resolved groups only, and none of these is
on the path.
-/

namespace PlanOptimizer

namespace Lookup

/-- The known groups that are not on a path. -/
def unvisited (lookup : Lookup) (path : List GroupId) : List GroupId :=
  lookup.known.filter fun id => !path.contains id

theorem length_unvisited_cons_lt {lookup : Lookup} {path : List GroupId} {id : GroupId} {p : Plan}
    (hfind : lookup.find id = some p) (hpath : id ∉ path) :
    (lookup.unvisited (id :: path)).length < (lookup.unvisited path).length := by
  have hsub : lookup.unvisited (id :: path) = without id (lookup.unvisited path) := by
    simp only [unvisited, without, List.filter_filter]
    refine List.filter_congr fun x _ => ?_
    by_cases h : x = id <;> simp [h]
  rw [hsub]
  refine length_without_lt (List.mem_filter.mpr ⟨lookup.known_of_find hfind, ?_⟩)
  simpa using hpath

/-- Replace every reference of a plan by the expanded plan of its group. -/
def expand (lookup : Lookup) (path : List GroupId) (p : Plan) :
    Except Fault Plan :=
  match p with
  | .scan s => .ok (.scan s)
  | .unary op a => do
    let input ← lookup.expand path a
    return .unary op input
  | .join j a b => do
    let left ← lookup.expand path a
    let right ← lookup.expand path b
    return .join j left right
  | .group id =>
    if _hpath : id ∈ path then .error (.cyclicReference id)
    else
      match _hfind : lookup.find id with
      | none => .error (.unknownGroup id)
      | some p => lookup.expand (id :: path) p
termination_by ((lookup.unvisited path).length, p)
decreasing_by
  all_goals try exact Prod.Lex.right _ (by simp; try omega)
  exact Prod.Lex.left _ _ (length_unvisited_cons_lt _hfind _hpath)

variable {lookup : Lookup} {path : List GroupId}

/-! ## Laws of expansion -/

@[simp] theorem expand_scan (s : Scan) : lookup.expand path (.scan s) = .ok (.scan s) := by
  rw [expand]

theorem expand_unary (op : Unary) (a : Plan) :
    lookup.expand path (.unary op a) = (lookup.expand path a).map (.unary op) := by
  rw [expand]
  cases lookup.expand path a <;> rfl

theorem expand_join (j : Join) (a b : Plan) :
    lookup.expand path (.join j a b) =
      lookup.expand path a >>= fun left => (lookup.expand path b).map (.join j left) := by
  rw [expand]
  cases lookup.expand path a with
  | error f => rfl
  | ok left => cases lookup.expand path b <;> rfl

theorem expand_group_of_mem {id : GroupId} (hpath : id ∈ path) :
    lookup.expand path (.group id) = .error (.cyclicReference id) := by
  rw [expand, dif_pos hpath]

theorem expand_group_of_unknown {id : GroupId} (hpath : id ∉ path)
    (hfind : lookup.find id = none) :
    lookup.expand path (.group id) = .error (.unknownGroup id) := by
  rw [expand, dif_neg hpath]
  split
  · rfl
  · next h => rw [hfind] at h; cases h

theorem expand_group_of_find {id : GroupId} {p : Plan} (hpath : id ∉ path)
    (hfind : lookup.find id = some p) :
    lookup.expand path (.group id) = lookup.expand (id :: path) p := by
  rw [expand, dif_neg hpath]
  split
  · next h => rw [hfind] at h; cases h
  · next h => rw [hfind] at h; cases h; rfl

/-- A plan expands if all groups that it refers to do. -/
theorem expand_ok {p : Plan} (h : ∀ i ∈ p.groups, ∃ q, lookup.expand path (.group i) = .ok q) :
    ∃ q, lookup.expand path p = .ok q := by
  induction p with
  | scan s => exact ⟨_, expand_scan s⟩
  | unary op a ih =>
    obtain ⟨q, hq⟩ := ih h
    rw [expand_unary, hq]
    exact ⟨_, rfl⟩
  | join j a b iha ihb =>
    obtain ⟨q, hq⟩ := iha fun i hi => h i (List.mem_append_left _ hi)
    obtain ⟨r, hr⟩ := ihb fun i hi => h i (List.mem_append_right _ hi)
    rw [expand_join, hq, hr]
    exact ⟨_, rfl⟩
  | group id => exact h id (List.mem_singleton_self id)

/-- A plan expands alike through two lookups if all groups that it refers to do. -/
theorem expand_congr {lookup' : Lookup} {p : Plan}
    (h : ∀ i ∈ p.groups, lookup'.expand path (.group i) = lookup.expand path (.group i)) :
    lookup'.expand path p = lookup.expand path p := by
  induction p with
  | scan s => rw [expand_scan, expand_scan]
  | unary op a ih => rw [expand_unary, expand_unary, ih h]
  | join j a b iha ihb =>
    have ha := iha fun i hi => h i (List.mem_append_left _ hi)
    have hb := ihb fun i hi => h i (List.mem_append_right _ hi)
    rw [expand_join, expand_join, ha, hb]
  | group id => exact h id (List.mem_singleton_self id)

/-- An expanded plan refers to no group. -/
theorem hasGroups_of_expand {p q : Plan} (h : lookup.expand path p = .ok q) :
    q.hasGroups = false := by
  fun_induction expand lookup path p generalizing q with
  | case1 path s =>
    cases h
    rfl
  | case2 path op a ih =>
    obtain ⟨a', ha, h⟩ := bind_eq_ok.mp h
    cases h
    show a'.hasGroups = false
    exact ih ha
  | case3 path j a b iha ihb =>
    obtain ⟨a', ha, h⟩ := bind_eq_ok.mp h
    obtain ⟨b', hb, h⟩ := bind_eq_ok.mp h
    cases h
    simp [Plan.hasGroups, iha ha, ihb hb]
  | case4 path id hpath => cases h
  | case5 path id hpath hfind => cases h
  | case6 path id hpath p hfind ih => exact ih h

/-- A plan that refers to no group is its own expansion. -/
theorem expand_of_hasGroups {p : Plan} (h : p.hasGroups = false) :
    lookup.expand path p = .ok p := by
  induction p with
  | scan s => exact expand_scan s
  | unary op a ih =>
    rw [expand_unary, ih h]
    rfl
  | join j a b iha ihb =>
    obtain ⟨ha, hb⟩ := Bool.or_eq_false_iff.mp h
    rw [expand_join, iha ha, ihb hb]
    rfl
  | group id => cases h

end Lookup

/-! ## Resolution -/

namespace Progress

/-- A group has been resolved. -/
def Done (s : Progress) (id : GroupId) : Prop := (s.resolved.lookup id).isSome = true

/-- A plan has one expansion on all paths that avoid the resolved groups. -/
def Expands (lookup : Lookup) (s : Progress) (p q : Plan) : Prop :=
  ∀ path, (∀ x ∈ path, ¬ s.Done x) → lookup.expand path p = .ok q

/-- What holds of the progress between two tasks, when the groups of `path` are
open.  The store is sound on every path that avoids the resolved groups. -/
structure Consistent (lookup : Lookup) (path : List GroupId) (s : Progress) : Prop where
  /-- A known group is fresh, open or resolved. -/
  fresh : ∀ {id}, id ∈ s.fresh ↔ id ∈ lookup.known ∧ id ∉ path ∧ ¬ s.Done id
  /-- Open groups are not resolved. -/
  open_not_done : ∀ id ∈ path, ¬ s.Done id
  /-- Open groups have a plan. -/
  open_find : ∀ id ∈ path, (lookup.find id).isSome = true
  /-- The stored plan of a group is its expansion. -/
  sound : ∀ {id q}, s.resolved.lookup id = some q → s.Expands lookup (.group id) q

/-- A plan has been visited: its expansion is the newest result, and all groups that
were resolved still are. -/
structure Visited (lookup : Lookup) (path : List GroupId) (p q : Plan) (s s' : Progress) : Prop where
  results : s'.results = q :: s.results
  consistent : s'.Consistent lookup path
  keeps : ∀ x, s.Done x → s'.Done x
  expands : s'.Expands lookup p q

theorem not_done_iff {s : Progress} {id : GroupId} : ¬ s.Done id ↔ s.resolved.lookup id = none := by
  rw [Done, Bool.not_eq_true, Option.isSome_eq_false_iff, Option.isNone_iff_eq_none]

/-- What expands a plan still does when more groups are resolved. -/
theorem Expands.mono {lookup : Lookup} {s s' : Progress} {p q : Plan} (h : s.Expands lookup p q)
    (hkeeps : ∀ x, s.Done x → s'.Done x) : s'.Expands lookup p q :=
  fun path hfree => h path fun x hx hdone => hfree x hx (hkeeps x hdone)

theorem done_cons {fresh : List GroupId} {resolved : List (GroupId × Plan)} {results : List Plan}
    {id x : GroupId} {q : Plan} :
    Done ⟨fresh, (id, q) :: resolved, results⟩ x ↔ x = id ∨ Done ⟨fresh, resolved, results⟩ x := by
  unfold Done
  rw [List.lookup_cons]
  by_cases h : x = id
  · simp [h]
  · rw [show (x == id) = false by simpa using h]
    simp [h]

variable {lookup : Lookup} {path : List GroupId} {s : Progress}

theorem Consistent.withResults (h : s.Consistent lookup path) (results : List Plan) :
    Consistent lookup path { s with results := results } :=
  ⟨h.fresh, h.open_not_done, h.open_find, h.sound⟩

/-- Nothing is open and nothing is resolved at the start. -/
theorem consistent_start (lookup : Lookup) : Consistent lookup [] ⟨lookup.known, [], []⟩ where
  fresh := by simp [Done]
  open_not_done := by simp
  open_find := by simp
  sound := by simp

/-- A fresh group may be opened. -/
theorem Consistent.open {id : GroupId} {p : Plan} (h : s.Consistent lookup path)
    (hfind : lookup.find id = some p) (hdone : ¬ s.Done id) :
    Consistent lookup (id :: path) { s with fresh := without id s.fresh } where
  fresh := by
    intro x
    show x ∈ without id s.fresh ↔ x ∈ lookup.known ∧ x ∉ id :: path ∧ ¬ s.Done x
    rw [mem_without, h.fresh, List.mem_cons]
    tauto
  open_not_done := by
    intro x hx
    rcases List.mem_cons.mp hx with rfl | hx
    · exact hdone
    · exact h.open_not_done x hx
  open_find := by
    intro x hx
    rcases List.mem_cons.mp hx with rfl | hx
    · rw [hfind]
      rfl
    · exact h.open_find x hx
  sound := h.sound

/-- An open group may be closed with its expansion. -/
theorem Consistent.close {id : GroupId} {p q : Plan} (h : s.Consistent lookup (id :: path))
    (hpath : id ∉ path) (hfind : lookup.find id = some p)
    (hq : s.Expands lookup p q) :
    Consistent lookup path { s with resolved := (id, q) :: s.resolved } := by
  have hdone : ∀ {x}, Done { s with resolved := (id, q) :: s.resolved } x ↔ x = id ∨ s.Done x :=
    done_cons
  refine ⟨?_, ?_, ?_, ?_⟩
  · intro x
    rw [hdone]
    show x ∈ s.fresh ↔ _
    rw [h.fresh, List.mem_cons]
    tauto
  · intro x hx hdx
    rcases hdone.mp hdx with rfl | hdx
    · exact hpath hx
    · exact h.open_not_done x (List.mem_cons_of_mem _ hx) hdx
  · intro x hx
    exact h.open_find x (List.mem_cons_of_mem _ hx)
  · intro x q' hx path' hfree
    have hfree' : ∀ y ∈ path', y ≠ id ∧ ¬ s.Done y := fun y hy =>
      not_or.mp fun hor => hfree y hy (hdone.mpr hor)
    rw [List.lookup_cons] at hx
    by_cases heq : x = id
    · subst heq
      simp only [beq_self_eq_true, Option.some.injEq] at hx
      subst hx
      rw [Lookup.expand_group_of_find (fun hin => (hfree' _ hin).1 rfl) hfind]
      refine hq _ fun y hy => ?_
      rcases List.mem_cons.mp hy with rfl | hy
      · exact h.open_not_done y List.mem_cons_self
      · exact (hfree' y hy).2
    · rw [show (x == id) = false by simpa using heq] at hx
      exact h.sound hx path' fun y hy => (hfree' y hy).2

end Progress

namespace Lookup

variable {lookup : Lookup}

open Progress

/-! ### Meeting a reference -/

theorem resolveAll_group_of_done {s : Progress} {id : GroupId} {q : Plan} (rest : List Task)
    (h : s.resolved.lookup id = some q) :
    lookup.resolveAll (.visit (.group id) :: rest) s =
      lookup.resolveAll rest { s with results := q :: s.results } := by
  rw [resolveAll, h]

theorem resolveAll_group_of_unknown {s : Progress} {id : GroupId} (rest : List Task)
    (h : s.resolved.lookup id = none) (hfind : lookup.find id = none) :
    lookup.resolveAll (.visit (.group id) :: rest) s = .error (.unknownGroup id) := by
  rw [resolveAll]
  simp only [h]
  split
  · rfl
  · next h' => rw [hfind] at h'; cases h'

theorem resolveAll_group_of_find {s : Progress} {id : GroupId} {p : Plan} (rest : List Task)
    (h : s.resolved.lookup id = none) (hfind : lookup.find id = some p) :
    lookup.resolveAll (.visit (.group id) :: rest) s =
      if id ∈ s.fresh then
        lookup.resolveAll (.visit p :: .close id :: rest) { s with fresh := without id s.fresh }
      else .error (.cyclicReference id) := by
  rw [resolveAll]
  simp only [h]
  split
  · next h' => rw [hfind] at h'; cases h'
  · next h' => rw [hfind] at h'; cases h'; rfl

/-! ### The agenda -/

/-- Visiting a plan fails as its expansion does, or puts the expansion on the results. -/
structure Visits (lookup : Lookup) (path : List GroupId) (p : Plan) : Prop where
  fails : ∀ {s : Progress} {f : Fault}, s.Consistent lookup path →
    lookup.expand path p = .error f →
    ∀ rest, lookup.resolveAll (.visit p :: rest) s = .error f
  yields : ∀ {s : Progress} {q : Plan}, s.Consistent lookup path →
    lookup.expand path p = .ok q →
    ∀ rest, ∃ s', lookup.resolveAll (.visit p :: rest) s = lookup.resolveAll rest s' ∧
      Visited lookup path p q s s'

variable {path : List GroupId}

theorem visits_scan (path : List GroupId) (op : Scan) : lookup.Visits path (.scan op) where
  fails _ hf := by
    rw [expand_scan] at hf
    cases hf
  yields {s _} h hq rest := by
    rw [expand_scan] at hq
    cases hq
    refine ⟨{ s with results := .scan op :: s.results }, ?_, rfl, h.withResults _, fun _ hx => hx,
      fun _ _ => expand_scan op⟩
    rw [resolveAll]

/-- An operator is put on top once its input has been visited. -/
theorem Visits.unary {a : Plan} (ha : lookup.Visits path a) (op : Unary) :
    lookup.Visits path (.unary op a) where
  fails {s f} h hf rest := by
    rw [expand_unary, map_eq_error] at hf
    rw [resolveAll]
    exact ha.fails h hf _
  yields {s q} h hq rest := by
    rw [expand_unary] at hq
    obtain ⟨a', hqa, rfl⟩ := map_eq_ok.mp hq
    obtain ⟨s', hrun, hv⟩ := ha.yields h hqa (.unary op :: rest)
    refine ⟨{ s' with results := .unary op a' :: s.results }, ?_, rfl,
      hv.consistent.withResults _, hv.keeps, fun path' hfree => ?_⟩
    · rw [resolveAll, hrun, resolveAll, hv.results]
    · rw [expand_unary, hv.expands path' hfree]
      rfl

theorem resolveAll_join (j : Join) (a b : Plan) (rest : List Task) (s : Progress) :
    lookup.resolveAll (.visit (.join j a b) :: rest) s =
      lookup.resolveAll (.visit a :: .visit b :: .join j :: rest) s := by
  rw [resolveAll]

/-- The right input is visited with the groups that were resolved on the left. -/
theorem Visits.join {a b : Plan} (ha : lookup.Visits path a) (hb : lookup.Visits path b)
    (j : Join) : lookup.Visits path (.join j a b) where
  fails {s f} h hf rest := by
    rw [expand_join] at hf
    rw [resolveAll_join]
    rcases bind_eq_error.mp hf with hfa | ⟨a', hqa, hfb⟩
    · exact ha.fails h hfa _
    · obtain ⟨s₁, hrun, hv⟩ := ha.yields h hqa (.visit b :: .join j :: rest)
      rw [hrun]
      exact hb.fails hv.consistent (map_eq_error.mp hfb) _
  yields {s q} h hq rest := by
    rw [expand_join] at hq
    obtain ⟨a', hqa, hq⟩ := bind_eq_ok.mp hq
    obtain ⟨b', hqb, rfl⟩ := map_eq_ok.mp hq
    obtain ⟨s₁, hrun₁, hv₁⟩ := ha.yields h hqa (.visit b :: .join j :: rest)
    obtain ⟨s₂, hrun₂, hv₂⟩ := hb.yields hv₁.consistent hqb (.join j :: rest)
    refine ⟨{ s₂ with results := .join j a' b' :: s.results }, ?_, rfl,
      hv₂.consistent.withResults _, fun x hx => hv₂.keeps x (hv₁.keeps x hx),
      fun path' hfree => ?_⟩
    · rw [resolveAll_join, hrun₁, hrun₂, resolveAll, hv₂.results, hv₁.results]
    · rw [expand_join, hv₁.expands.mono hv₂.keeps path' hfree]
      show (lookup.expand path' b).map (Plan.join j a') = _
      rw [hv₂.expands path' hfree]
      rfl

/-- An open group is neither resolved nor fresh: it is met on its own path. -/
theorem visits_group_of_mem {id : GroupId} (hpath : id ∈ path) :
    lookup.Visits path (.group id) where
  fails {s f} h hf rest := by
    rw [expand_group_of_mem hpath] at hf
    cases hf
    have hnone : s.resolved.lookup id = none := not_done_iff.mp (h.open_not_done id hpath)
    have hfresh : id ∉ s.fresh := fun hin => (h.fresh.mp hin).2.1 hpath
    obtain ⟨p, hfind⟩ := Option.isSome_iff_exists.mp (h.open_find id hpath)
    rw [resolveAll_group_of_find rest hnone hfind, if_neg hfresh]
  yields _ hq := by
    rw [expand_group_of_mem hpath] at hq
    cases hq

/-- An unknown group has no expansion, so it is not in the store. -/
theorem visits_group_of_unknown {id : GroupId} (hpath : id ∉ path)
    (hfind : lookup.find id = none) : lookup.Visits path (.group id) where
  fails {s f} h hf rest := by
    rw [expand_group_of_unknown hpath hfind] at hf
    cases hf
    refine resolveAll_group_of_unknown rest ?_ hfind
    cases hq : s.resolved.lookup id with
    | none => rfl
    | some q =>
      have hexp := h.sound hq path h.open_not_done
      rw [expand_group_of_unknown hpath hfind] at hexp
      cases hexp
  yields _ hq := by
    rw [expand_group_of_unknown hpath hfind] at hq
    cases hq

/-- A known group is in the store, or it is opened, visited and closed. -/
theorem Visits.group {id : GroupId} {p : Plan} (hp : lookup.Visits (id :: path) p)
    (hpath : id ∉ path) (hfind : lookup.find id = some p) : lookup.Visits path (.group id) := by
  have hexp : lookup.expand path (.group id) = lookup.expand (id :: path) p :=
    expand_group_of_find hpath hfind
  have hopen : ∀ {s : Progress}, s.Consistent lookup path → s.resolved.lookup id = none → ∀ rest,
      Consistent lookup (id :: path) { s with fresh := without id s.fresh } ∧
        lookup.resolveAll (.visit (.group id) :: rest) s =
          lookup.resolveAll (.visit p :: .close id :: rest)
            { s with fresh := without id s.fresh } := by
    intro s h hlookup rest
    have hdone : ¬ s.Done id := not_done_iff.mpr hlookup
    have hfresh : id ∈ s.fresh := h.fresh.mpr ⟨lookup.known_of_find hfind, hpath, hdone⟩
    rw [resolveAll_group_of_find rest hlookup hfind, if_pos hfresh]
    exact ⟨h.open hfind hdone, rfl⟩
  constructor
  · intro s f h hf rest
    cases hlookup : s.resolved.lookup id with
    | some q =>
      rw [h.sound hlookup path h.open_not_done] at hf
      cases hf
    | none =>
      obtain ⟨hcon, hvisit⟩ := hopen h hlookup rest
      rw [hexp] at hf
      exact hvisit.trans (hp.fails hcon hf _)
  · intro s q h hq rest
    cases hlookup : s.resolved.lookup id with
    | some q' =>
      rw [h.sound hlookup path h.open_not_done] at hq
      cases hq
      exact ⟨_, resolveAll_group_of_done rest hlookup, rfl, h.withResults _, fun _ hx => hx,
        h.sound hlookup⟩
    | none =>
      obtain ⟨hcon, hvisit⟩ := hopen h hlookup rest
      rw [hexp] at hq
      obtain ⟨s', hrun, hv⟩ := hp.yields hcon hq (.close id :: rest)
      have hclose := hv.consistent.close hpath hfind hv.expands
      refine ⟨{ s' with resolved := (id, q) :: s'.resolved }, ?_, hv.results, hclose,
        fun x hx => done_cons.mpr (.inr (hv.keeps x hx)), hclose.sound ?_⟩
      · rw [hvisit, hrun, resolveAll, hv.results]
      · rw [List.lookup_cons, beq_self_eq_true]

/-- The agenda treats every plan as expansion does. -/
theorem visits (path : List GroupId) (p : Plan) : lookup.Visits path p := by
  fun_induction expand lookup path p with
  | case1 path op => exact visits_scan path op
  | case2 path op a ih => exact ih.unary op
  | case3 path j a b iha ihb => exact iha.join ihb j
  | case4 path id hpath => exact visits_group_of_mem hpath
  | case5 path id hpath hfind => exact visits_group_of_unknown hpath hfind
  | case6 path id hpath p hfind ih => exact ih.group hpath hfind

end Lookup

/-- Resolution is expansion. -/
theorem Plan.resolve_eq_expand (p : Plan) (lookup : Lookup) :
    p.resolve lookup = lookup.expand [] p := by
  have hstart := Progress.consistent_start lookup
  unfold Plan.resolve
  cases hexp : lookup.expand [] p with
  | error f =>
    rw [(Lookup.visits [] p).fails hstart hexp]
    rfl
  | ok q =>
    obtain ⟨s', hrun, hv⟩ := (Lookup.visits [] p).yields hstart hexp []
    rw [hrun, Lookup.resolveAll, hv.results]
    rfl

end PlanOptimizer
