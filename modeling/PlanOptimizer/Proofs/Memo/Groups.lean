import Mathlib.Data.List.Perm.Subperm
import PlanOptimizer.Memo.Offer

/-!
# What a change does to a group

Every change of a memo is described by what it does to the group under each number.
A change that reaches one group only maps that group and leaves the others, and a
change of links or notes maps all groups at once.  The equations here say so for
`Memo.edit`, `Memo.link`, `Memo.attach`, `Memo.invalidate` and for a new group.

`Memo.rep?` is the view that references see: the representative of a group, if
there is such a group.
-/

namespace PlanOptimizer

/-! ## Sets of numbers -/

theorem insertId_insertId (x : Nat) (xs : List Nat) :
    insertId x (insertId x xs) = insertId x xs := by
  induction xs with
  | nil => simp [insertId]
  | cons y ys ih =>
    by_cases heq : x = y
    · simp [insertId, heq]
    · by_cases hlt : x < y
      · simp [insertId, heq, hlt]
      · simp [insertId, heq, hlt, ih]

/-- An ascending list of numbers stays ascending. -/
theorem pairwise_insertId (x : Nat) {xs : List Nat} (h : xs.Pairwise (· < ·)) :
    (insertId x xs).Pairwise (· < ·) := by
  induction xs with
  | nil => exact List.pairwise_singleton _ x
  | cons y ys ih =>
    obtain ⟨hy, hys⟩ := List.pairwise_cons.mp h
    unfold insertId
    split
    · exact h
    · next hne =>
      split
      · next hlt =>
        refine List.pairwise_cons.mpr ⟨fun z hz => ?_, h⟩
        rcases List.mem_cons.mp hz with rfl | hz
        · exact hlt
        · exact Nat.lt_trans hlt (hy z hz)
      · next hge =>
        refine List.pairwise_cons.mpr ⟨fun z hz => ?_, ih hys⟩
        rcases mem_insertId.mp hz with rfl | hz
        · omega
        · exact hy z hz

/-! ## Groups -/

namespace Group

variable {g : Group} {s : Shape} {pos : Nat}

theorem getElem?_representative (g : Group) : g.candidates[g.representative]? = some g.shape := by
  rw [List.getElem?_eq_getElem g.representative_lt]
  rfl

theorem shape_eq_of_getElem? (h : g.candidates[g.representative]? = some s) : g.shape = s := by
  rw [getElem?_representative] at h
  exact Option.some.inj h

theorem shape_mem (g : Group) : g.shape ∈ g.candidates :=
  List.mem_of_getElem? g.getElem?_representative

@[simp] theorem shape_single (id : GroupId) (s : Shape) : (single id s).shape = s := rfl

/-! ### Adding a candidate -/

@[simp] theorem id_push (g : Group) (s : Shape) : (g.push s).id = g.id := rfl

@[simp] theorem candidates_push (g : Group) (s : Shape) :
    (g.push s).candidates = g.candidates ++ [s] := rfl

@[simp] theorem representative_push (g : Group) (s : Shape) :
    (g.push s).representative = g.representative := rfl

@[simp] theorem retired_push (g : Group) (s : Shape) : (g.push s).retired = g.retired := rfl

@[simp] theorem parents_push (g : Group) (s : Shape) : (g.push s).parents = g.parents := rfl

@[simp] theorem stale_push (g : Group) (s : Shape) : (g.push s).stale = g.stale := rfl

@[simp] theorem explored_push (g : Group) (s : Shape) : (g.push s).explored = g.explored := rfl

@[simp] theorem shape_push (g : Group) (s : Shape) : (g.push s).shape = g.shape := by
  refine shape_eq_of_getElem? ?_
  rw [candidates_push, representative_push, List.getElem?_append_left g.representative_lt,
    getElem?_representative]

/-! ### Choosing a representative -/

@[simp] theorem id_promote (g : Group) (pos : Nat) : (g.promote pos).id = g.id := by
  unfold promote
  split <;> rfl

@[simp] theorem candidates_promote (g : Group) (pos : Nat) :
    (g.promote pos).candidates = g.candidates := by
  unfold promote
  split <;> rfl

@[simp] theorem retired_promote (g : Group) (pos : Nat) :
    (g.promote pos).retired = g.retired := by
  unfold promote
  split <;> rfl

@[simp] theorem parents_promote (g : Group) (pos : Nat) :
    (g.promote pos).parents = g.parents := by
  unfold promote
  split <;> rfl

@[simp] theorem stale_promote (g : Group) (pos : Nat) : (g.promote pos).stale = g.stale := by
  unfold promote
  split <;> rfl

@[simp] theorem explored_promote (g : Group) (pos : Nat) :
    (g.promote pos).explored = g.explored := by
  unfold promote
  split <;> rfl

theorem representative_promote (h : pos < g.candidates.length) :
    (g.promote pos).representative = pos := by
  unfold promote
  rw [dif_pos h]

theorem shape_promote (h : g.candidates[pos]? = some s) : (g.promote pos).shape = s := by
  refine shape_eq_of_getElem? ?_
  rw [candidates_promote, representative_promote (List.getElem?_eq_some_iff.mp h).1, h]

@[simp] theorem id_pin (g : Group) (pos : Nat) : (g.pin pos).id = g.id := by
  unfold pin
  split
  · exact id_promote g pos
  · rfl

@[simp] theorem candidates_pin (g : Group) (pos : Nat) :
    (g.pin pos).candidates = g.candidates := by
  unfold pin
  split
  · exact candidates_promote g pos
  · rfl

@[simp] theorem parents_pin (g : Group) (pos : Nat) : (g.pin pos).parents = g.parents := by
  unfold pin
  split
  · exact parents_promote g pos
  · rfl

@[simp] theorem stale_pin (g : Group) (pos : Nat) : (g.pin pos).stale = g.stale := by
  unfold pin
  split
  · exact stale_promote g pos
  · rfl

@[simp] theorem explored_pin (g : Group) (pos : Nat) : (g.pin pos).explored = g.explored := by
  unfold pin
  split
  · exact explored_promote g pos
  · rfl

theorem representative_pin (h : pos < g.candidates.length) :
    (g.pin pos).representative = pos := by
  unfold pin
  rw [if_pos h]
  exact representative_promote h

theorem mem_retired_pin (h : pos < g.candidates.length) {x : Nat} :
    x ∈ (g.pin pos).retired ↔ x < g.candidates.length ∧ x ≠ pos := by
  unfold pin
  rw [if_pos h]
  simp

theorem pairwise_retired_pin (h : pos < g.candidates.length) :
    (g.pin pos).retired.Pairwise (· < ·) := by
  unfold pin
  rw [if_pos h]
  exact List.pairwise_lt_range.filter _

theorem shape_pin (h : g.candidates[pos]? = some s) : (g.pin pos).shape = s := by
  refine shape_eq_of_getElem? ?_
  rw [candidates_pin, representative_pin (List.getElem?_eq_some_iff.mp h).1, h]

@[simp] theorem shape_pin_representative (g : Group) : (g.pin g.representative).shape = g.shape :=
  shape_pin g.getElem?_representative

/-! ### Links and notes -/

/-- The group under a number after another group has become the parent of all groups
that a shape refers to. -/
def adopt (parent : GroupId) (s : Shape) (id : GroupId) (g : Group) : Group :=
  { g with parents := if id ∈ s.inputs then insertId parent g.parents else g.parents }

@[simp] theorem shape_adopt (p : GroupId) (s : Shape) (id : GroupId) (g : Group) :
    (g.adopt p s id).shape = g.shape := rfl

theorem mem_parents_adopt {p x id : GroupId} :
    x ∈ (g.adopt p s id).parents ↔ x ∈ g.parents ∨ x = p ∧ id ∈ s.inputs := by
  unfold adopt
  by_cases h : id ∈ s.inputs
  · simp only [h, if_true, mem_insertId, and_true]
    exact or_comm
  · simp [h]

/-- The group under a number after the representative of a group has changed, when the
groups in `above` are that group and all groups above it. -/
def reopen (above : List GroupId) (changed id : GroupId) (g : Group) : Group :=
  if id ∈ above then { g with explored := [], stale := g.stale || decide (id ≠ changed) } else g

section Reopen

variable {above : List GroupId} {changed id : GroupId}

@[simp] theorem id_reopen : (g.reopen above changed id).id = g.id := by
  unfold reopen
  split <;> rfl

@[simp] theorem candidates_reopen : (g.reopen above changed id).candidates = g.candidates := by
  unfold reopen
  split <;> rfl

@[simp] theorem representative_reopen :
    (g.reopen above changed id).representative = g.representative := by
  unfold reopen
  split <;> rfl

@[simp] theorem retired_reopen : (g.reopen above changed id).retired = g.retired := by
  unfold reopen
  split <;> rfl

@[simp] theorem parents_reopen : (g.reopen above changed id).parents = g.parents := by
  unfold reopen
  split <;> rfl

@[simp] theorem shape_reopen : (g.reopen above changed id).shape = g.shape := by
  unfold reopen
  split <;> rfl

/-- A group above the change loses its exploration notes. -/
theorem explored_reopen_of_mem (h : id ∈ above) : (g.reopen above changed id).explored = [] := by
  unfold reopen
  rw [if_pos h]

/-- A group that is not above the change stays as it is. -/
theorem reopen_of_not_mem (h : id ∉ above) : g.reopen above changed id = g := if_neg h

end Reopen

theorem mem_explore {key x : RuleKey} : x ∈ (g.explore key).explored ↔ x = key ∨ x ∈ g.explored := by
  unfold explore
  by_cases h : key ∈ g.explored
  · rw [if_pos h]
    constructor
    · exact .inr
    · rintro (rfl | hx)
      · exact h
      · exact hx
  · rw [if_neg h, List.mem_cons]

/-- Settle a group: it has been ranked again. -/
def settle (g : Group) : Group := { g with stale := false }

end Group

/-- A lookup is told by the groups it knows and by their plans. -/
theorem Lookup.ext {a b : Lookup} (hknown : a.known = b.known) (hfind : a.find = b.find) : a = b := by
  cases a
  cases b
  cases hknown
  cases hfind
  rfl

/-- A shape as a plan refers to the groups under it. -/
@[simp] theorem Node.groups_overGroups (s : Shape) : s.overGroups.groups = s.inputs := by
  cases s <;> rfl

/-! ## Memos -/

namespace Memo

variable {m : Memo} {id j : GroupId} {s : Shape}

/-- The representative of a group, if there is such a group. -/
def rep? (m : Memo) (id : GroupId) : Option Shape := (m.groups[id]?).map Group.shape

theorem rep?_eq_some_iff : m.rep? id = some s ↔ ∃ g, m.groups[id]? = some g ∧ g.shape = s :=
  Option.map_eq_some_iff

theorem rep?_of_group {g : Group} (h : m.groups[id]? = some g) : m.rep? id = some g.shape := by
  rw [rep?, h]
  rfl

theorem shape_eq_of_rep {g : Group} (hg : m.groups[id]? = some g) (hs : m.rep? id = some s) :
    g.shape = s :=
  Option.some.inj ((rep?_of_group hg).symm.trans hs)

theorem lt_size_iff : id < m.size ↔ ∃ g, m.groups[id]? = some g := by
  constructor
  · intro h
    exact ⟨_, List.getElem?_eq_getElem h⟩
  · rintro ⟨g, h⟩
    exact (List.getElem?_eq_some_iff.mp h).1

theorem rep?_isSome_iff : (m.rep? id).isSome = true ↔ id < m.size := by
  rw [lt_size_iff, rep?, Option.isSome_map, Option.isSome_iff_exists]

theorem rep?_eq_none_iff : m.rep? id = none ↔ m.size ≤ id := by
  rw [rep?, Option.map_eq_none_iff]
  exact List.getElem?_eq_none_iff

theorem mem_ids_iff : id ∈ m.ids ↔ id < m.size := List.mem_range

/-- There are no more different groups below a bound than the bound says. -/
theorem length_le_of_lt {ids : List GroupId} {n : Nat} (hnodup : ids.Nodup) (hlt : ∀ x ∈ ids, x < n) :
    ids.length ≤ n := by
  have hsub : ids ⊆ List.range n := fun x hx => List.mem_range.mpr (hlt x hx)
  have hle := (List.subperm_of_subset hnodup hsub).length_le
  rwa [List.length_range] at hle

/-- A list of different groups that misses a group is shorter than the memo. -/
theorem length_lt_size {ids : List GroupId} (hnodup : ids.Nodup) (hlive : ∀ x ∈ ids, x < m.size)
    (hid : id < m.size) (hnew : id ∉ ids) : ids.length < m.size := by
  refine length_le_of_lt (List.nodup_cons.mpr ⟨hnew, hnodup⟩) fun x hx => ?_
  rcases List.mem_cons.mp hx with rfl | hx
  · exact hid
  · exact hlive x hx

theorem group_eq_ok_iff {g : Group} : m.group id = .ok g ↔ m.groups[id]? = some g := by
  unfold group
  cases m.groups[id]? <;> simp

theorem group_of_unknown (h : m.groups[id]? = none) : m.group id = .error (.unknownGroup id) := by
  unfold group
  rw [h]

theorem shape_of_rep (h : m.rep? id = some s) : m.shape id = .ok s := by
  obtain ⟨g, hg, rfl⟩ := rep?_eq_some_iff.mp h
  rw [shape, group_eq_ok_iff.mpr hg]
  rfl

theorem shape_of_unknown (h : m.groups[id]? = none) : m.shape id = .error (.unknownGroup id) := by
  rw [shape, group_of_unknown h]
  rfl

theorem children_of_rep (h : m.rep? id = some s) : m.children id = s.inputs := by
  obtain ⟨g, hg, rfl⟩ := rep?_eq_some_iff.mp h
  unfold children
  rw [hg]

theorem children_of_unknown (h : m.rep? id = none) : m.children id = [] := by
  have hnone : m.groups[id]? = none := Option.map_eq_none_iff.mp h
  unfold children
  rw [hnone]

/-- The links through representatives are told by the representatives. -/
theorem children_congr {m' : Memo} (h : m'.rep? id = m.rep? id) : m'.children id = m.children id := by
  cases hrep : m.rep? id with
  | none => rw [children_of_unknown hrep, children_of_unknown (h.trans hrep)]
  | some s => rw [children_of_rep hrep, children_of_rep (h.trans hrep)]

theorem find_lookup (m : Memo) (id : GroupId) :
    m.lookup.find id = (m.rep? id).map Node.overGroups := by
  show (m.groups[id]?).map _ = _
  rw [rep?, Option.map_map]
  rfl

theorem get_lookup_of_rep (h : m.rep? id = some s) : m.lookup.get id = .ok s.overGroups := by
  rw [Lookup.get, find_lookup, h]
  rfl

theorem get_lookup_of_unknown (h : m.rep? id = none) :
    m.lookup.get id = .error (.unknownGroup id) := by
  rw [Lookup.get, find_lookup, h]
  rfl

theorem length_known_lookup (m : Memo) : m.lookup.known.length = m.size := List.length_range

/-- What references stand for is told by the representatives. -/
theorem lookup_congr {m' : Memo} (h : ∀ j, m'.rep? j = m.rep? j) : m'.lookup = m.lookup := by
  have hle : ∀ j, m'.size ≤ j ↔ m.size ≤ j := by
    intro j
    rw [← rep?_eq_none_iff, ← rep?_eq_none_iff, h]
  have hsize : m'.size = m.size :=
    Nat.le_antisymm ((hle _).mpr (Nat.le_refl _)) ((hle _).mp (Nat.le_refl _))
  have hknown : m'.lookup.known = m.lookup.known := congrArg List.range hsize
  have hfind : m'.lookup.find = m.lookup.find := by
    funext j
    rw [find_lookup, find_lookup, h]
  exact Lookup.ext hknown hfind

theorem parents_of_group {g : Group} (h : m.groups[id]? = some g) : m.parents id = g.parents := by
  unfold parents
  rw [h]

/-- A shape is a candidate of a group. -/
def Candidate (m : Memo) (id : GroupId) (c : Shape) : Prop :=
  ∃ g : Group, m.groups[id]? = some g ∧ c ∈ g.candidates

theorem candidate_iff_of_group {g : Group} {c : Shape} (h : m.groups[id]? = some g) :
    m.Candidate id c ↔ c ∈ g.candidates := by
  constructor
  · rintro ⟨g', hg', hc⟩
    obtain rfl : g = g' := Option.some.inj (h.symm.trans hg')
    exact hc
  · intro hc
    exact ⟨g, h, hc⟩

theorem candidate_of_rep? (h : m.rep? id = some s) : m.Candidate id s := by
  obtain ⟨g, hg, rfl⟩ := rep?_eq_some_iff.mp h
  exact ⟨g, hg, g.shape_mem⟩

theorem lt_of_candidate (h : m.Candidate id s) : id < m.size := by
  obtain ⟨g, hg, -⟩ := h
  exact lt_size_iff.mpr ⟨g, hg⟩

/-- The candidates of a group are told by their list. -/
theorem candidate_congr {m' : Memo}
    (h : (m'.groups[id]?).map Group.candidates = (m.groups[id]?).map Group.candidates) :
    m'.Candidate id s ↔ m.Candidate id s := by
  have hiff : ∀ m : Memo, m.Candidate id s ↔
      ∃ cs, (m.groups[id]?).map Group.candidates = some cs ∧ s ∈ cs := by
    intro m
    constructor
    · rintro ⟨g, hg, hs⟩
      exact ⟨_, by rw [hg]; rfl, hs⟩
    · rintro ⟨cs, hcs, hs⟩
      obtain ⟨g, hg, rfl⟩ := Option.map_eq_some_iff.mp hcs
      exact ⟨g, hg, hs⟩
  rw [hiff, hiff, h]

/-! ### Changing one group -/

theorem groups_edit (m : Memo) (id j : GroupId) (f : Group → Group) :
    (m.edit id f).groups[j]? = (m.groups[j]?).map fun g => if j = id then f g else g := by
  show (m.groups.modify id f)[j]? = _
  rw [List.getElem?_modify]
  by_cases h : id = j
  · simp [h]
  · simp [h, Ne.symm h]

theorem groups_edit_self {g : Group} (h : m.groups[id]? = some g) (f : Group → Group) :
    (m.edit id f).groups[id]? = some (f g) := by
  rw [groups_edit, h, Option.map_some, if_pos rfl]

theorem groups_edit_ne (h : j ≠ id) (f : Group → Group) :
    (m.edit id f).groups[j]? = m.groups[j]? := by
  rw [groups_edit]
  simp [h]

@[simp] theorem size_edit (m : Memo) (id : GroupId) (f : Group → Group) :
    (m.edit id f).size = m.size := List.length_modify ..

@[simp] theorem index_edit (m : Memo) (id : GroupId) (f : Group → Group) :
    (m.edit id f).index = m.index := rfl

/-- A change that keeps the representative of the group is not seen by references. -/
theorem rep?_edit_of_shape {f : Group → Group}
    (hf : ∀ g, m.groups[id]? = some g → (f g).shape = g.shape) (j : GroupId) :
    (m.edit id f).rep? j = m.rep? j := by
  unfold rep?
  rw [groups_edit]
  cases hg : m.groups[j]? with
  | none => rfl
  | some g =>
    by_cases h : j = id
    · subst h
      simp [hf g hg]
    · simp [h]

/-- A note is not seen by references. -/
@[simp] theorem rep?_explore (m : Memo) (id j : GroupId) (key : RuleKey) :
    (m.edit id (·.explore key)).rep? j = m.rep? j :=
  rep?_edit_of_shape (f := (·.explore key)) (fun _ _ => rfl) j

@[simp] theorem lookup_explore (m : Memo) (id : GroupId) (key : RuleKey) :
    (m.edit id (·.explore key)).lookup = m.lookup :=
  lookup_congr fun j => m.rep?_explore id j key

theorem candidate_edit_iff {f : Group → Group} (hf : ∀ g, (f g).candidates = g.candidates)
    {c : Shape} : (m.edit id f).Candidate j c ↔ m.Candidate j c := by
  refine candidate_congr ?_
  rw [groups_edit, Option.map_map]
  cases m.groups[j]? with
  | none => rfl
  | some g =>
    by_cases h : j = id
    · simp [h, hf]
    · simp [h]

/-! ### Links -/

/-- The link of one parent to a list of groups. -/
theorem groups_foldl_link (parent : GroupId) (ids : List GroupId) (m : Memo) (j : GroupId) :
    (ids.foldl (fun m child =>
        m.edit child fun g => { g with parents := insertId parent g.parents }) m).groups[j]? =
      (m.groups[j]?).map fun g =>
        { g with parents := if j ∈ ids then insertId parent g.parents else g.parents } := by
  induction ids generalizing m with
  | nil => simp
  | cons i is ih =>
    rw [List.foldl_cons, ih, groups_edit, Option.map_map]
    cases m.groups[j]? with
    | none => rfl
    | some g =>
      by_cases hi : j = i
      · by_cases his : j ∈ is <;> simp [hi, hi ▸ his, insertId_insertId]
      · by_cases his : j ∈ is <;> simp [hi, his]

theorem groups_link (m : Memo) (parent : GroupId) (s : Shape) (j : GroupId) :
    (m.link parent s).groups[j]? = (m.groups[j]?).map (Group.adopt parent s j) :=
  groups_foldl_link parent s.inputs m j

theorem size_link (m : Memo) (parent : GroupId) (s : Shape) : (m.link parent s).size = m.size := by
  unfold link
  generalize s.inputs = ids
  induction ids generalizing m with
  | nil => rfl
  | cons i is ih => rw [List.foldl_cons, ih, size_edit]

theorem index_link (m : Memo) (parent : GroupId) (s : Shape) :
    (m.link parent s).index = m.index := by
  unfold link
  generalize s.inputs = ids
  induction ids generalizing m with
  | nil => rfl
  | cons i is ih => rw [List.foldl_cons, ih, index_edit]

/-! ### A new group -/

/-- The memo with a new group for a shape. -/
def withGroup (m : Memo) (s : Shape) : Memo :=
  ⟨(m.link m.size s).groups ++ [Group.single m.size s], m.index.set s.canon m.size⟩

theorem runOn_create (m : Memo) (s : Shape) :
    (create s).runOn m = (.ok m.size, m.withGroup s) := by
  unfold withGroup
  rw [← index_link m m.size s]
  rfl

@[simp] theorem size_withGroup (m : Memo) (s : Shape) : (m.withGroup s).size = m.size + 1 := by
  show ((m.link m.size s).groups ++ [Group.single m.size s]).length = _
  rw [List.length_append, List.length_singleton]
  exact congrArg (· + 1) (size_link m m.size s)

/-- The groups that were there only get a parent. -/
theorem groups_withGroup_of_lt (h : j < m.size) :
    (m.withGroup s).groups[j]? = (m.groups[j]?).map (Group.adopt m.size s j) := by
  rw [← groups_link]
  exact List.getElem?_append_left (Nat.lt_of_lt_of_eq h (size_link m m.size s).symm)

theorem groups_withGroup_size (m : Memo) (s : Shape) :
    (m.withGroup s).groups[m.size]? = some (Group.single m.size s) := by
  have hsize : (m.link m.size s).groups.length = m.size := size_link m m.size s
  show ((m.link m.size s).groups ++ [Group.single m.size s])[m.size]? = _
  rw [List.getElem?_append_right (Nat.le_of_eq hsize), hsize, Nat.sub_self]
  rfl

theorem rep?_withGroup_of_lt (h : j < m.size) : (m.withGroup s).rep? j = m.rep? j := by
  unfold rep?
  rw [groups_withGroup_of_lt h, Option.map_map]
  rfl

theorem rep?_withGroup_size (m : Memo) (s : Shape) : (m.withGroup s).rep? m.size = some s := by
  rw [rep?, groups_withGroup_size]
  rfl

theorem home?_withGroup (m : Memo) (s c : Shape) :
    (m.withGroup s).home? c = if c.canon = s.canon then some m.size else m.home? c :=
  Assoc.find?_set ..

/-- A new group has one candidate. -/
theorem candidate_withGroup_iff {c : Shape} :
    (m.withGroup s).Candidate j c ↔ m.Candidate j c ∨ j = m.size ∧ c = s := by
  constructor
  · intro h
    have hlt : j < m.size + 1 := size_withGroup m s ▸ lt_of_candidate h
    rcases Nat.lt_succ_iff_lt_or_eq.mp hlt with hj | rfl
    · left
      refine (candidate_congr ?_).mp h
      rw [groups_withGroup_of_lt hj, Option.map_map]
      rfl
    · rw [candidate_iff_of_group (groups_withGroup_size m s)] at h
      exact .inr ⟨rfl, List.mem_singleton.mp h⟩
  · rintro (h | ⟨rfl, rfl⟩)
    · refine (candidate_congr ?_).mpr h
      rw [groups_withGroup_of_lt (lt_of_candidate h), Option.map_map]
      rfl
    · exact ⟨_, groups_withGroup_size m c, List.mem_singleton_self c⟩

/-! ### A new candidate -/

theorem groups_attach (m : Memo) (id : GroupId) (s : Shape) (j : GroupId) :
    (m.attach id s).groups[j]? = (m.groups[j]?).map fun g =>
      if j = id then (g.adopt id s j).push s else g.adopt id s j := by
  unfold attach
  rw [groups_edit]
  show ((m.link id s).groups[j]?).map _ = _
  rw [groups_link, Option.map_map]
  rfl

theorem groups_attach_self {g : Group} (h : m.groups[id]? = some g) (s : Shape) :
    (m.attach id s).groups[id]? = some ((g.adopt id s id).push s) := by
  rw [groups_attach, h, Option.map_some, if_pos rfl]

theorem groups_attach_ne (h : j ≠ id) (s : Shape) :
    (m.attach id s).groups[j]? = (m.groups[j]?).map (Group.adopt id s j) := by
  rw [groups_attach]
  simp [h]

theorem size_attach (m : Memo) (id : GroupId) (s : Shape) : (m.attach id s).size = m.size := by
  unfold attach
  rw [size_edit]
  exact size_link m id s

theorem rep?_attach (m : Memo) (id : GroupId) (s : Shape) (j : GroupId) :
    (m.attach id s).rep? j = m.rep? j := by
  unfold rep?
  rw [groups_attach]
  cases m.groups[j]? with
  | none => rfl
  | some g => by_cases h : j = id <;> simp [h]

/-- One candidate comes in. -/
theorem candidate_attach_iff {g : Group} (hat : m.groups[id]? = some g) {c : Shape} :
    (m.attach id s).Candidate j c ↔ m.Candidate j c ∨ j = id ∧ c = s := by
  by_cases heq : j = id
  · subst heq
    rw [candidate_iff_of_group (groups_attach_self hat s), candidate_iff_of_group hat]
    show c ∈ g.candidates ++ [s] ↔ _
    rw [List.mem_append, List.mem_singleton]
    simp
  · have hsame : (m.attach id s).Candidate j c ↔ m.Candidate j c := by
      refine candidate_congr ?_
      rw [groups_attach_ne heq, Option.map_map]
      rfl
    rw [hsame]
    simp [heq]

/-- The index keeps the group a shape came into first. -/
theorem find?_index_attach (m : Memo) (id : GroupId) (s k : Shape) :
    (m.attach id s).index.find? k =
      if k = s.canon then some ((m.home? s).getD id) else m.index.find? k := by
  show (if ((m.link id s).home? s).isSome = true then (m.link id s).index
    else (m.link id s).index.set s.canon id).find? k = _
  have hhome : (m.link id s).home? s = m.home? s := by
    unfold home?
    rw [index_link]
  rw [hhome, index_link]
  cases hs : m.home? s with
  | none => simp [Assoc.find?_set]
  | some i =>
    by_cases hk : k = s.canon
    · subst hk
      simpa using show m.index.find? s.canon = some i from hs
    · simp [hk]

/-! ### A changed representative -/

/-- The groups above a group: the groups with a candidate that leads to it. -/
def above (m : Memo) (id : GroupId) : List GroupId := closure m.parents m.ids [id]

theorem groups_invalidate (m : Memo) (id j : GroupId) :
    (m.invalidate id).groups[j]? = (m.groups[j]?).map (Group.reopen (m.above id) id j) := by
  show (List.mapIdx _ m.groups)[j]? = _
  rw [List.getElem?_mapIdx]
  rfl

theorem groups_invalidate_self {g : Group} (h : m.groups[id]? = some g) :
    (m.invalidate id).groups[id]? = some (g.reopen (m.above id) id id) := by
  rw [groups_invalidate, h]
  rfl

theorem candidate_invalidate_iff {c : Shape} :
    (m.invalidate id).Candidate j c ↔ m.Candidate j c := by
  refine candidate_congr ?_
  rw [groups_invalidate, Option.map_map]
  cases m.groups[j]? with
  | none => rfl
  | some g => simp

theorem size_invalidate (m : Memo) (id : GroupId) : (m.invalidate id).size = m.size :=
  List.length_mapIdx

@[simp] theorem index_invalidate (m : Memo) (id : GroupId) :
    (m.invalidate id).index = m.index := rfl

@[simp] theorem rep?_invalidate (m : Memo) (id j : GroupId) :
    (m.invalidate id).rep? j = m.rep? j := by
  unfold rep?
  rw [groups_invalidate, Option.map_map]
  cases m.groups[j]? with
  | none => rfl
  | some g => simp

end Memo

end PlanOptimizer
