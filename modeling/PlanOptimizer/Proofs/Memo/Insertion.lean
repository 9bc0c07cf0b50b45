import PlanOptimizer.Proofs.Edit
import PlanOptimizer.Proofs.Memo.Valid

/-!
# Insertion

`Memo.find?` looks for the group of a plan without changing the memo.  Inserting a
plan makes groups until the plan is found (`Memo.insert_cases`), a plan that is found
is inserted without any change (`Memo.runOn_insert_of_find?`), and it is found in
every later memo (`Memo.find?_mono`).

`Memo.normal?` is the shape that an offered plan comes down to: an operator over the
groups of its inputs, and for a reference the representative of the group.
-/

namespace PlanOptimizer

namespace Memo

open Relation

variable {m m' : Memo} {id : GroupId} {s : Shape}

/-! ## Finding plans -/

/-- The group of a plan that is there already. -/
def find? (m : Memo) : Plan → Option GroupId
  | .group id => if id < m.size then some id else none
  | .scan s => m.home? (.scan s)
  | .unary op a => (m.find? a).bind fun x => m.home? (.unary op x)
  | .join j a b => (m.find? a).bind fun x => (m.find? b).bind fun y => m.home? (.join j x y)

/-- An operator over the groups of its inputs, if these are there already. -/
def over? (m : Memo) : Node Plan → Option Shape
  | .scan s => some (.scan s)
  | .unary op a => (m.find? a).map fun x => .unary op x
  | .join j a b => (m.find? a).bind fun x => (m.find? b).map fun y => .join j x y

/-- The shape that an offered plan comes down to, if its parts are there already. -/
def normal? (m : Memo) : Plan → Option Shape
  | .group id => m.rep? id
  | .scan s => m.over? (.scan s)
  | .unary op a => m.over? (.unary op a)
  | .join j a b => m.over? (.join j a b)

theorem find?_unary_iff {op : Unary} {a : Plan} : m.find? (.unary op a) = some id ↔
    ∃ x, m.find? a = some x ∧ m.home? (.unary op x) = some id := Option.bind_eq_some_iff

theorem find?_join_iff {j : Join} {a b : Plan} : m.find? (.join j a b) = some id ↔
    ∃ x y, m.find? a = some x ∧ m.find? b = some y ∧ m.home? (.join j x y) = some id := by
  simp [find?, Option.bind_eq_some_iff]

theorem find?_group_iff {i : GroupId} : m.find? (.group i) = some id ↔ i < m.size ∧ i = id := by
  simp [find?]

theorem over?_unary_iff {op : Unary} {a : Plan} : m.over? (.unary op a) = some s ↔
    ∃ x, m.find? a = some x ∧ .unary op x = s := Option.map_eq_some_iff

theorem over?_join_iff {j : Join} {a b : Plan} : m.over? (.join j a b) = some s ↔
    ∃ x y, m.find? a = some x ∧ m.find? b = some y ∧ .join j x y = s := by
  simp [over?, Option.bind_eq_some_iff]

/-- The shape of a filter over a group. -/
theorem normal?_filter {p : Expr} {z : GroupId} (h : m.normal? (.filter p (.group z)) = some s) :
    s = .unary (.filter p) z := by
  obtain ⟨x, hx, rfl⟩ := over?_unary_iff.mp h
  obtain ⟨-, rfl⟩ := find?_group_iff.mp hx
  rfl

theorem Valid.lt_of_find? (hv : m.Valid) {p : Plan} (h : m.find? p = some id) : id < m.size := by
  cases p with
  | scan s => exact hv.lt_of_home? h
  | unary op a =>
    obtain ⟨x, -, hid⟩ := find?_unary_iff.mp h
    exact hv.lt_of_home? hid
  | join j a b =>
    obtain ⟨x, y, -, -, hid⟩ := find?_join_iff.mp h
    exact hv.lt_of_home? hid
  | group i =>
    obtain ⟨hi, rfl⟩ := find?_group_iff.mp h
    exact hi

theorem Valid.live_over? (hv : m.Valid) {n : Node Plan} (h : m.over? n = some s) :
    ∀ i ∈ s.inputs, i < m.size := by
  intro i hi
  cases n with
  | scan _ =>
    cases h
    cases hi
  | unary op a =>
    obtain ⟨x, hx, rfl⟩ := over?_unary_iff.mp h
    cases List.mem_singleton.mp hi
    exact hv.lt_of_find? hx
  | join j a b =>
    obtain ⟨x, y, hx, hy, rfl⟩ := over?_join_iff.mp h
    rcases List.mem_pair.mp hi with rfl | rfl
    · exact hv.lt_of_find? hx
    · exact hv.lt_of_find? hy

theorem Valid.live_normal? (hv : m.Valid) {p : Plan} (h : m.normal? p = some s) :
    ∀ i ∈ s.inputs, i < m.size := by
  cases p with
  | group other => exact hv.live_rep h
  | scan op => exact hv.live_over? (n := .scan op) h
  | unary op a => exact hv.live_over? (n := .unary op a) h
  | join j a b => exact hv.live_over? (n := .join j a b) h

/-- A plan that is found is found in every later memo. -/
theorem find?_mono (h : m.Extends m') {p : Plan} (hp : m.find? p = some id) :
    m'.find? p = some id := by
  induction p generalizing id with
  | scan s => exact h.home? hp
  | unary op a ih =>
    obtain ⟨x, hx, hid⟩ := find?_unary_iff.mp hp
    exact find?_unary_iff.mpr ⟨x, ih hx, h.home? hid⟩
  | join j a b iha ihb =>
    obtain ⟨x, y, hx, hy, hid⟩ := find?_join_iff.mp hp
    exact find?_join_iff.mpr ⟨x, y, iha hx, ihb hy, h.home? hid⟩
  | group i =>
    obtain ⟨hi, rfl⟩ := find?_group_iff.mp hp
    exact find?_group_iff.mpr ⟨h.size_le hi, rfl⟩

theorem over?_mono (h : m.Extends m') {n : Node Plan} (hn : m.over? n = some s) :
    m'.over? n = some s := by
  cases n with
  | scan _ => exact hn
  | unary op a =>
    obtain ⟨x, hx, rfl⟩ := over?_unary_iff.mp hn
    exact over?_unary_iff.mpr ⟨x, find?_mono h hx, rfl⟩
  | join j a b =>
    obtain ⟨x, y, hx, hy, rfl⟩ := over?_join_iff.mp hn
    exact over?_join_iff.mpr ⟨x, y, find?_mono h hx, find?_mono h hy, rfl⟩

/-! ## Inserting plans -/

theorem runOn_enter (m : Memo) (s : Shape) :
    (enter s).runOn m =
      match m.home? s with
      | some id => (.ok id, m)
      | none => (.ok m.size, m.withGroup s) := by
  rw [enter, Edit.runOn_get_bind]
  cases m.home? s with
  | some id => rfl
  | none => exact runOn_create m s

/-- Entering a shape does not fail. -/
theorem enter_ok (m : Memo) (s : Shape) : ∃ id m', (enter s).runOn m = (.ok id, m') := by
  rw [runOn_enter]
  cases m.home? s with
  | some id => exact ⟨id, m, rfl⟩
  | none => exact ⟨m.size, m.withGroup s, rfl⟩

theorem runOn_insert_unary (op : Unary) (a : Plan) (m : Memo) :
    (Memo.insert (.unary op a)).runOn m =
      (Memo.insert a >>= fun x => enter (.unary op x)).runOn m := rfl

theorem runOn_insert_join (j : Join) (a b : Plan) (m : Memo) :
    (Memo.insert (.join j a b)).runOn m =
      (Memo.insert a >>= fun x => Memo.insert b >>= fun y => enter (.join j x y)).runOn m := rfl

/-- A plan that is there already is inserted without any change. -/
theorem runOn_insert_of_find? {p : Plan} (h : m.find? p = some id) :
    (Memo.insert p).runOn m = (.ok id, m) := by
  induction p generalizing id with
  | scan s =>
    have hs : m.home? (.scan s) = some id := h
    show (enter (.scan s)).runOn m = _
    rw [runOn_enter, hs]
  | unary op a ih =>
    obtain ⟨x, hx, hid⟩ := find?_unary_iff.mp h
    rw [runOn_insert_unary, Edit.runOn_bind_of_ok (ih hx), runOn_enter, hid]
  | join j a b iha ihb =>
    obtain ⟨x, y, hx, hy, hid⟩ := find?_join_iff.mp h
    rw [runOn_insert_join, Edit.runOn_bind_of_ok (iha hx), Edit.runOn_bind_of_ok (ihb hy),
      runOn_enter, hid]
  | group i =>
    obtain ⟨hi, rfl⟩ := find?_group_iff.mp h
    obtain ⟨g, hg⟩ := lt_size_iff.mp hi
    rw [Memo.insert, Edit.runOn_ask_bind, group_eq_ok_iff.mpr hg]
    rfl

/-- Entering a shape over groups that exist makes its group, if it has none. -/
theorem enter_cases (hlive : ∀ i ∈ s.inputs, i < m.size) :
    ∃ id m', (enter s).runOn m = (.ok id, m') ∧ m.Grows m' ∧ m'.home? s = some id := by
  rw [runOn_enter]
  cases h : m.home? s with
  | some id => exact ⟨id, m, rfl, .refl, h⟩
  | none =>
    refine ⟨m.size, m.withGroup s, rfl, .single (.create hlive h), ?_⟩
    rw [home?_withGroup, if_pos rfl]

theorem Grows.valid (h : m.Grows m') (hv : m.Valid) : m'.Valid := h.rests.moves.valid hv

theorem Grows.extends (h : m.Grows m') : m.Extends m' := h.rests.moves.extends

/-- Inserting the plan makes new groups and no other change.  Either the plan is found
afterwards, or it refers to a group that does not exist. -/
def Inserts (p : Plan) : Prop :=
  ∀ {m : Memo}, m.Valid → ∃ m', m.Grows m' ∧
    ((∃ id, (Memo.insert p).runOn m = (.ok id, m') ∧ m'.find? p = some id) ∨
      ∃ i, (Memo.insert p).runOn m = (.error (.unknownGroup i), m'))

/-- What is done with the group of an inserted plan. -/
theorem Inserts.one {β : Type} {a : Plan} (ha : Inserts a) (hv : m.Valid) (k : GroupId → Edit β) :
    ∃ m', m.Grows m' ∧
      ((∃ x, m'.find? a = some x ∧ (Memo.insert a >>= k).runOn m = (k x).runOn m') ∨
        ∃ i, (Memo.insert a >>= k).runOn m = (.error (.unknownGroup i), m')) := by
  obtain ⟨m', hgrows, ⟨x, hrun, hx⟩ | ⟨i, hrun⟩⟩ := ha hv
  · exact ⟨m', hgrows, .inl ⟨x, hx, Edit.runOn_bind_of_ok hrun _⟩⟩
  · exact ⟨m', hgrows, .inr ⟨i, Edit.runOn_bind_of_error hrun _⟩⟩

/-- What is done with the groups of two plans that are inserted after each other. -/
theorem Inserts.both {β : Type} {a b : Plan} (ha : Inserts a) (hb : Inserts b) (hv : m.Valid)
    (k : GroupId → GroupId → Edit β) :
    ∃ m', m.Grows m' ∧
      ((∃ x y, m'.find? a = some x ∧ m'.find? b = some y ∧
          (Memo.insert a >>= fun x => Memo.insert b >>= k x).runOn m = (k x y).runOn m') ∨
        ∃ i, (Memo.insert a >>= fun x => Memo.insert b >>= k x).runOn m =
          (.error (.unknownGroup i), m')) := by
  obtain ⟨m₁, hgrows₁, ⟨x, hx, hrun₁⟩ | ⟨i, hrun₁⟩⟩ :=
    ha.one hv fun x => Memo.insert b >>= k x
  · obtain ⟨m₂, hgrows₂, ⟨y, hy, hrun₂⟩ | ⟨i, hrun₂⟩⟩ := hb.one (hgrows₁.valid hv) (k x)
    · have hx₂ := find?_mono hgrows₂.extends hx
      exact ⟨m₂, hgrows₁.trans hgrows₂, .inl ⟨x, y, hx₂, hy, hrun₁.trans hrun₂⟩⟩
    · exact ⟨m₂, hgrows₁.trans hgrows₂, .inr ⟨i, hrun₁.trans hrun₂⟩⟩
  · exact ⟨m₁, hgrows₁, .inr ⟨i, hrun₁⟩⟩

theorem insert_cases (p : Plan) : Inserts p := by
  induction p with
  | scan s =>
    intro m hv
    obtain ⟨id, m', hrun, hgrows, hhome⟩ := enter_cases (m := m) (s := .scan s) fun _ h => nomatch h
    exact ⟨m', hgrows, .inl ⟨id, hrun, hhome⟩⟩
  | unary op a ih =>
    intro m hv
    rw [runOn_insert_unary]
    obtain ⟨m₁, hgrows₁, ⟨x, hx, hrun₁⟩ | ⟨i, hrun₁⟩⟩ := ih.one hv fun x => enter (.unary op x)
    · have hlive : ∀ i ∈ (Node.unary op x : Shape).inputs, i < m₁.size := by
        intro i hi
        cases List.mem_singleton.mp hi
        exact (hgrows₁.valid hv).lt_of_find? hx
      obtain ⟨id, m', hrun, hgrows, hhome⟩ := enter_cases hlive
      refine ⟨m', hgrows₁.trans hgrows, .inl ⟨id, hrun₁.trans hrun, ?_⟩⟩
      exact find?_unary_iff.mpr ⟨x, find?_mono hgrows.extends hx, hhome⟩
    · exact ⟨m₁, hgrows₁, .inr ⟨i, hrun₁⟩⟩
  | join j a b iha ihb =>
    intro m hv
    rw [runOn_insert_join]
    obtain ⟨m₂, hgrows₂, ⟨x, y, hx, hy, hrun₂⟩ | ⟨i, hrun₂⟩⟩ :=
      iha.both ihb hv fun x y => enter (.join j x y)
    · have hv₂ := hgrows₂.valid hv
      have hlive : ∀ i ∈ (Node.join j x y : Shape).inputs, i < m₂.size := by
        intro i hi
        rcases List.mem_pair.mp hi with rfl | rfl
        · exact hv₂.lt_of_find? hx
        · exact hv₂.lt_of_find? hy
      obtain ⟨id, m', hrun, hgrows, hhome⟩ := enter_cases hlive
      refine ⟨m', hgrows₂.trans hgrows, .inl ⟨id, hrun₂.trans hrun, ?_⟩⟩
      exact find?_join_iff.mpr ⟨x, y, find?_mono hgrows.extends hx,
        find?_mono hgrows.extends hy, hhome⟩
    · exact ⟨m₂, hgrows₂, .inr ⟨i, hrun₂⟩⟩
  | group i =>
    intro m hv
    refine ⟨m, .refl, ?_⟩
    cases hg : m.groups[i]? with
    | some g =>
      have hi : m.find? (.group i) = some i := find?_group_iff.mpr ⟨lt_size_iff.mpr ⟨g, hg⟩, rfl⟩
      exact .inl ⟨i, runOn_insert_of_find? hi, hi⟩
    | none =>
      refine .inr ⟨i, ?_⟩
      rw [Memo.insert, Edit.runOn_ask_bind, group_of_unknown hg]

theorem grows_of_insert {p : Plan} {r : Except Fault GroupId} (hv : m.Valid)
    (h : (Memo.insert p).runOn m = (r, m')) : m.Grows m' := by
  obtain ⟨m₁, hgrows, ⟨_, hrun, -⟩ | ⟨_, hrun⟩⟩ := insert_cases p hv
  · exact (Prod.mk.inj (h.symm.trans hrun)).2 ▸ hgrows
  · exact (Prod.mk.inj (h.symm.trans hrun)).2 ▸ hgrows

/-- A plan is found where it has been inserted. -/
theorem find?_of_insert {p : Plan} (hv : m.Valid) (h : (Memo.insert p).runOn m = (.ok id, m')) :
    m'.find? p = some id := by
  obtain ⟨m₁, -, ⟨id₁, hrun, hfind⟩ | ⟨i, hrun⟩⟩ := insert_cases p hv
  · cases hrun.symm.trans h
    exact hfind
  · cases hrun.symm.trans h

theorem Grows.size_le (h : m.Grows m') : m.size ≤ m'.size := h.extends.size_mono

/-- A new group is as it was made, but for its parents. -/
theorem Grows.eq_single_of_size_le (h : m.Grows m') {g : Group} (hg : m'.groups[id]? = some g)
    (hid : m.size ≤ id) : ∃ s parents, g = { Group.single id s with parents := parents } := by
  induction h generalizing id g with
  | refl => exact absurd (lt_size_iff.mpr ⟨g, hg⟩) (Nat.not_lt.mpr hid)
  | tail _ hlast ih =>
    obtain ⟨-, -⟩ := hlast
    rcases group_withGroup_cases hg with ⟨g₀, hg₀, rfl⟩ | ⟨rfl, rfl⟩
    · obtain ⟨s, parents, rfl⟩ := ih hg₀ hid
      exact ⟨s, _, rfl⟩
    · exact ⟨_, [], rfl⟩

/-- A new group has one candidate. -/
theorem Grows.single_of_size_le (h : m.Grows m') {g : Group} (hg : m'.groups[id]? = some g)
    (hid : m.size ≤ id) : g.candidates.length = 1 := by
  obtain ⟨s, parents, rfl⟩ := h.eq_single_of_size_le hg hid
  rfl

/-- Inserting a plan fails only for a group that does not exist. -/
theorem fault_of_insert {p : Plan} {f : Fault} :
    ∀ {m m' : Memo}, m.Valid → (Memo.insert p).runOn m = (.error f, m') →
      ∃ i ∈ p.groups, m.size ≤ i := by
  have henter : ∀ {m m' : Memo} {s : Shape}, (enter s).runOn m ≠ (.error f, m') := by
    intro m m' s h
    obtain ⟨id, m₁, hrun⟩ := enter_ok m s
    cases hrun.symm.trans h
  induction p with
  | scan op =>
    intro m m' _ h
    exact absurd h henter
  | unary op a ih =>
    intro m m' hv h
    rw [runOn_insert_unary] at h
    rcases Edit.runOn_bind_error_iff.mp h with h | ⟨x, m₁, -, h⟩
    · exact ih hv h
    · exact absurd h henter
  | join j a b iha ihb =>
    intro m m' hv h
    rw [runOn_insert_join] at h
    rcases Edit.runOn_bind_error_iff.mp h with h | ⟨x, m₁, hrun, h⟩
    · obtain ⟨i, hi, hge⟩ := iha hv h
      exact ⟨i, List.mem_append_left _ hi, hge⟩
    · have hgrows := grows_of_insert hv hrun
      rcases Edit.runOn_bind_error_iff.mp h with h | ⟨y, m₂, -, h⟩
      · obtain ⟨i, hi, hge⟩ := ihb (hgrows.valid hv) h
        exact ⟨i, List.mem_append_right _ hi, hgrows.size_le.trans hge⟩
      · exact absurd h henter
  | group i =>
    intro m m' _ h
    refine ⟨i, List.mem_singleton_self i, Nat.le_of_not_lt fun hlt => ?_⟩
    rw [runOn_insert_of_find? (find?_group_iff.mpr ⟨hlt, rfl⟩)] at h
    cases h

/-- A plan over groups that exist is inserted. -/
theorem insert_ok {p : Plan} (hv : m.Valid) (hp : ∀ i ∈ p.groups, i < m.size) :
    ∃ id m', (Memo.insert p).runOn m = (.ok id, m') ∧ m.Grows m' ∧ m'.find? p = some id := by
  obtain ⟨m', hgrows, ⟨id, hrun, hfind⟩ | ⟨_, hrun⟩⟩ := insert_cases p hv
  · exact ⟨id, m', hrun, hgrows, hfind⟩
  · obtain ⟨i, hi, hge⟩ := fault_of_insert hv hrun
    exact absurd (hp i hi) (Nat.not_lt.mpr hge)

/-- A plan without references is inserted into the empty memo. -/
theorem insert_ok_of_closed {p : Plan} (hp : p.hasGroups = false) :
    ∃ id m, (Memo.insert p).runOn .empty = (.ok id, m) ∧ Memo.empty.Grows m ∧ m.find? p = some id := by
  exact insert_ok valid_empty fun i hi => absurd hi (Plan.not_mem_groups hp i)

/-! ## Inserting inputs -/

theorem runOn_insertInputs_of_over? {n : Node Plan} (h : m.over? n = some s) :
    (insertInputs n).runOn m = (.ok s, m) := by
  cases n with
  | scan _ =>
    cases h
    rfl
  | unary op a =>
    obtain ⟨x, hx, rfl⟩ := over?_unary_iff.mp h
    show (Memo.insert a >>= fun x => pure (Node.unary op x)).runOn m = _
    rw [Edit.runOn_bind_of_ok (runOn_insert_of_find? hx), Edit.runOn_pure]
  | join j a b =>
    obtain ⟨x, y, hx, hy, rfl⟩ := over?_join_iff.mp h
    show (Memo.insert a >>= fun x => Memo.insert b >>= fun y =>
      pure (Node.join j x y)).runOn m = _
    rw [Edit.runOn_bind_of_ok (runOn_insert_of_find? hx),
      Edit.runOn_bind_of_ok (runOn_insert_of_find? hy), Edit.runOn_pure]

/-- Inserting the inputs of an operator makes new groups and no other change. -/
theorem insertInputs_cases (n : Node Plan) (hv : m.Valid) : ∃ m', m.Grows m' ∧
    ((∃ s, (insertInputs n).runOn m = (.ok s, m') ∧ m'.over? n = some s) ∨
      ∃ i, (insertInputs n).runOn m = (.error (.unknownGroup i), m')) := by
  cases n with
  | scan op => exact ⟨m, .refl, .inl ⟨.scan op, rfl, rfl⟩⟩
  | unary op a =>
    obtain ⟨m', hgrows, ⟨x, hx, hrun⟩ | ⟨i, hrun⟩⟩ :=
      Inserts.one (insert_cases a) hv fun x => pure (Node.unary op x)
    · exact ⟨m', hgrows, .inl ⟨.unary op x, hrun, over?_unary_iff.mpr ⟨x, hx, rfl⟩⟩⟩
    · exact ⟨m', hgrows, .inr ⟨i, hrun⟩⟩
  | join j a b =>
    obtain ⟨m', hgrows, ⟨x, y, hx, hy, hrun⟩ | ⟨i, hrun⟩⟩ :=
      Inserts.both (insert_cases a) (insert_cases b) hv fun x y => pure (Node.join j x y)
    · exact ⟨m', hgrows, .inl ⟨.join j x y, hrun, over?_join_iff.mpr ⟨x, y, hx, hy, rfl⟩⟩⟩
    · exact ⟨m', hgrows, .inr ⟨i, hrun⟩⟩

/-- The inputs of an operator over groups that exist are inserted. -/
theorem insertInputs_ok {n : Node Plan} (hv : m.Valid) (hn : ∀ i ∈ n.plan.groups, i < m.size) :
    ∃ s m', (insertInputs n).runOn m = (.ok s, m') ∧ m.Grows m' ∧ m'.over? n = some s := by
  cases n with
  | scan op => exact ⟨_, m, rfl, .refl, rfl⟩
  | unary op a =>
    obtain ⟨x, m', hrun, hgrows, hx⟩ := insert_ok (p := a) hv hn
    exact ⟨_, m', Edit.runOn_bind_of_ok hrun _, hgrows, over?_unary_iff.mpr ⟨x, hx, rfl⟩⟩
  | join j a b =>
    obtain ⟨x, m₁, hrun₁, hgrows₁, hx⟩ := insert_ok (p := a) hv fun i hi =>
      hn i (List.mem_append_left _ hi)
    obtain ⟨y, m', hrun', hgrows', hy⟩ := insert_ok (p := b) (hgrows₁.valid hv) fun i hi =>
      hgrows₁.extends.size_le (hn i (List.mem_append_right _ hi))
    refine ⟨_, m', ?_, hgrows₁.trans hgrows',
      over?_join_iff.mpr ⟨x, y, find?_mono hgrows'.extends hx, hy, rfl⟩⟩
    exact (Edit.runOn_bind_of_ok hrun₁ _).trans (Edit.runOn_bind_of_ok hrun' _)

end Memo

end PlanOptimizer
