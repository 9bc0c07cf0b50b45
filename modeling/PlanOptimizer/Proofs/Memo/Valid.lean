import Mathlib.Data.List.Nodup
import PlanOptimizer.Proofs.Memo.Moves

/-!
# Valid memos

`Memo.Valid` is what every memo keeps that is built by its operations:

* candidates refer to groups that exist, and these know the groups they are referred
  to from,
* the index leads from every candidate to a group that holds it,
* the candidates of a group are all different, and its representative is alive,
* links through representatives do not lead in circles.

Each move keeps all of it (`Memo.Move.valid`).  Only a turn could close a circle.
Whether it does is asked in the memo before the turn, where the group still has its
old representative, and that is the right question: a way back to the group ends
there, so it does not use the new links of the group.
-/

namespace PlanOptimizer

open Relation

/-! ## The invariant -/

/-- What holds of one group. -/
structure Group.Valid (g : Group) : Prop where
  /-- The candidates are different, also up to the spelling of literals. -/
  distinct : (g.candidates.map Node.canon).Nodup
  /-- Retired positions are positions. -/
  retired_lt : ∀ pos ∈ g.retired, pos < g.candidates.length
  /-- The representative is alive. -/
  alive : g.representative ∉ g.retired

namespace Group

variable {g : Group} {s : Shape}

theorem valid_single (id : GroupId) (s : Shape) : (single id s).Valid :=
  ⟨List.nodup_singleton _, fun _ h => (nomatch h), fun h => (nomatch h)⟩

/-- A group does not hold a shape exactly when no candidate is the same. -/
theorem position?_eq_none_iff :
    g.position? s = none ↔ s.canon ∉ g.candidates.map Node.canon := by
  unfold position?
  rw [List.findIdx?_eq_none_iff, List.mem_map, not_exists]
  constructor
  · rintro h c ⟨hc, heq⟩
    have := h c hc
    rw [Node.same, decide_eq_false_iff_not] at this
    exact this heq.symm
  · intro h c hc
    rw [Node.same, decide_eq_false_iff_not]
    exact fun heq => h c ⟨hc, heq.symm⟩

/-- A group holds a shape exactly when some candidate is the same. -/
theorem holds_iff : g.holds s = true ↔ ∃ c ∈ g.candidates, c.canon = s.canon := by
  rw [holds, Option.isSome_iff_ne_none, Ne, position?_eq_none_iff, not_not, List.mem_map]

theorem valid_push (hg : g.Valid) (hs : g.position? s = none) :
    (g.push s).Valid where
  distinct := by
    rw [candidates_push, List.map_append, List.map_singleton]
    refine List.nodup_append.mpr ⟨hg.distinct, List.nodup_singleton _, ?_⟩
    intro a ha b hb heq
    cases List.mem_singleton.mp hb
    exact position?_eq_none_iff.mp hs (heq ▸ ha)
  retired_lt pos hpos := by
    rw [candidates_push, List.length_append]
    exact Nat.lt_add_right _ (hg.retired_lt pos hpos)
  alive := hg.alive

theorem valid_pin (hg : g.Valid) {pos : Nat} (hpos : pos < g.candidates.length) :
    (g.pin pos).Valid where
  distinct := by
    rw [candidates_pin]
    exact hg.distinct
  retired_lt x hx := by
    rw [candidates_pin]
    exact ((mem_retired_pin hpos).mp hx).1
  alive := by
    rw [mem_retired_pin hpos, representative_pin hpos]
    exact fun h => h.2 rfl

theorem valid_promote (hg : g.Valid) {pos : Nat} (hpos : pos < g.candidates.length)
    (halive : pos ∉ g.retired) : (g.promote pos).Valid where
  distinct := by
    rw [candidates_promote]
    exact hg.distinct
  retired_lt x hx := by
    rw [candidates_promote]
    rw [retired_promote] at hx
    exact hg.retired_lt x hx
  alive := by
    rw [representative_promote hpos, retired_promote]
    exact halive

/-- What a group knows of its surroundings has no part in its validity. -/
theorem Valid.congr {g' : Group} (hg : g.Valid) (hc : g'.candidates = g.candidates)
    (hr : g'.retired = g.retired) (h : g'.representative = g.representative) : g'.Valid where
  distinct := by
    rw [hc]
    exact hg.distinct
  retired_lt x hx := by
    rw [hc]
    rw [hr] at hx
    exact hg.retired_lt x hx
  alive := by
    rw [hr, h]
    exact hg.alive

theorem valid_adopt (hg : g.Valid) (p : GroupId) (s : Shape) (id : GroupId) :
    (g.adopt p s id).Valid := hg.congr rfl rfl rfl

theorem valid_settle (hg : g.Valid) : g.settle.Valid := hg.congr rfl rfl rfl

theorem valid_explore (hg : g.Valid) (key : RuleKey) : (g.explore key).Valid :=
  hg.congr rfl rfl rfl

theorem valid_reopen (hg : g.Valid) (above : List GroupId) (changed id : GroupId) :
    (g.reopen above changed id).Valid :=
  hg.congr candidates_reopen retired_reopen representative_reopen

end Group

namespace Memo

/-- Some candidate of a group refers to another group. -/
def Mentions (m : Memo) (p id : GroupId) : Prop :=
  ∃ c, m.Candidate p c ∧ id ∈ c.inputs

/-- What holds of every memo that is built by operations. -/
structure Valid (m : Memo) : Prop where
  /-- Each group is valid. -/
  group : ∀ {id : GroupId} {g : Group}, m.groups[id]? = some g → g.Valid
  /-- Candidates refer to groups that exist. -/
  live : ∀ {id c}, m.Candidate id c → ∀ i ∈ c.inputs, i < m.size
  /-- A group knows the groups that refer to it. -/
  parents : ∀ {id : GroupId} {g : Group}, m.groups[id]? = some g → ∀ p, p ∈ g.parents ↔ m.Mentions p id
  /-- The index has an entry for every candidate. -/
  indexed : ∀ {id c}, m.Candidate id c → (m.home? c).isSome = true
  /-- An entry of the index names a group that holds the shape. -/
  housed : ∀ {k id}, m.index.find? k = some id → ∃ c, m.Candidate id c ∧ c.canon = k
  /-- Links through representatives do not lead in circles. -/
  acyclic : WellFounded fun b a => Links m.children a b

/-! ### Consequences -/

variable {m m' : Memo} {id j : GroupId} {s : Shape}

theorem Valid.live_rep (hv : m.Valid) (h : m.rep? id = some s) : ∀ i ∈ s.inputs, i < m.size :=
  hv.live (candidate_of_rep? h)

theorem Valid.lt_of_home? (hv : m.Valid) (h : m.home? s = some id) : id < m.size := by
  obtain ⟨c, hc, -⟩ := hv.housed h
  exact lt_of_candidate hc

/-- A group links to the inputs of its representative. -/
theorem links_of_rep (h : m.rep? id = some s) : Links m.children id j ↔ j ∈ s.inputs := by
  rw [Links, children_of_rep h]

theorem not_links_of_unknown (h : m.rep? id = none) : ¬ Links m.children id j := by
  rw [Links, children_of_unknown h]
  exact List.not_mem_nil

/-- Links through representatives stay among the groups that exist. -/
theorem Valid.lt_of_links (hv : m.Valid) {a b : GroupId} (h : Links m.children a b) :
    a < m.size ∧ b < m.size := by
  cases hrep : m.rep? a with
  | none =>
    exact absurd h (not_links_of_unknown hrep)
  | some s =>
    exact ⟨rep?_isSome_iff.mp (by rw [hrep]; rfl), hv.live_rep hrep b ((links_of_rep hrep).mp h)⟩

/-- A shape leads to a group exactly when links through representatives do. -/
theorem Valid.leadsTo_iff (hv : m.Valid) (hs : ∀ i ∈ s.inputs, i < m.size) :
    m.leadsTo s id = true ↔ ∃ i ∈ s.inputs, Reaches m.children i id := by
  rw [leadsTo, List.contains_iff_mem]
  refine mem_closure_iff ?_ fun i hi => mem_ids_iff.mpr (hs i hi)
  intro a _ b hab
  exact mem_ids_iff.mpr (hv.lt_of_links hab).2

theorem Valid.lt_of_parents (hv : m.Valid) {a b : GroupId} (h : Links m.parents a b) :
    a < m.size ∧ m.Mentions b a := by
  cases hg : m.groups[a]? with
  | none =>
    rw [Links, Memo.parents, hg] at h
    cases h
  | some g =>
    rw [Links, parents_of_group hg] at h
    exact ⟨lt_size_iff.mpr ⟨g, hg⟩, (hv.parents hg b).mp h⟩

/-- The groups above a group are those from which candidates lead to it. -/
theorem Valid.mem_above_iff (hv : m.Valid) (hid : id < m.size) :
    j ∈ m.above id ↔ Reaches m.parents id j := by
  rw [above, mem_closure_iff]
  · simp
  · intro a _ b hab
    obtain ⟨-, c, hc, -⟩ := hv.lt_of_parents hab
    exact mem_ids_iff.mpr (lt_of_candidate hc)
  · intro p hp
    cases List.mem_singleton.mp hp
    exact mem_ids_iff.mpr hid

/-- A group whose representative leads to a group is above it. -/
theorem Valid.mem_above_of_reaches (hv : m.Valid) (hid : id < m.size)
    (h : Reaches m.children j id) : j ∈ m.above id := by
  rw [hv.mem_above_iff hid]
  induction h using ReflTransGen.head_induction_on with
  | refl => exact .refl
  | @head a b hab _ ih =>
    refine ih.tail ?_
    obtain ⟨ha, hb⟩ := hv.lt_of_links hab
    obtain ⟨g, hg⟩ := lt_size_iff.mp ha
    obtain ⟨g', hg'⟩ := lt_size_iff.mp hb
    have hrep := rep?_of_group hg
    rw [Links, parents_of_group hg', hv.parents hg']
    exact ⟨g.shape, candidate_of_rep? hrep, (links_of_rep hrep).mp hab⟩

/-! ## The empty memo -/

theorem valid_empty : Memo.empty.Valid where
  group h := by simp [Memo.empty] at h
  live h := absurd (lt_of_candidate h) (Nat.not_lt_zero _)
  parents h := by simp [Memo.empty] at h
  indexed h := absurd (lt_of_candidate h) (Nat.not_lt_zero _)
  housed h := nomatch h
  acyclic := by
    refine ⟨fun a => Acc.intro a fun b hab => ?_⟩
    exact absurd hab (not_links_of_unknown rfl)

/-! ## Moves that make groups and candidates -/

theorem group_withGroup_cases {g : Group} (h : (m.withGroup s).groups[id]? = some g) :
    (∃ g₀, m.groups[id]? = some g₀ ∧ g = g₀.adopt m.size s id) ∨
      id = m.size ∧ g = Group.single m.size s := by
  have hlt : id < m.size + 1 := size_withGroup m s ▸ lt_size_iff.mpr ⟨g, h⟩
  rcases Nat.lt_succ_iff_lt_or_eq.mp hlt with hid | rfl
  · rw [groups_withGroup_of_lt hid] at h
    obtain ⟨g₀, hg₀, rfl⟩ := Option.map_eq_some_iff.mp h
    exact .inl ⟨g₀, hg₀, rfl⟩
  · rw [groups_withGroup_size] at h
    exact .inr ⟨rfl, (Option.some.inj h).symm⟩

/-- A memo stays valid if it gets one candidate whose links exist, the group of the
candidate is in the index and on the lists of the groups it refers to, and no circle is
closed. -/
theorem Valid.of_added (hv : m.Valid) (hlive : ∀ i ∈ s.inputs, i < m.size)
    (hcand : ∀ {id c}, m'.Candidate id c ↔ m.Candidate id c ∨ id = j ∧ c = s)
    (hsize : m.size ≤ m'.size)
    (hindex : ∀ k, m'.index.find? k =
      if k = s.canon then some ((m.home? s).getD j) else m.index.find? k)
    (hvalid : ∀ {id : GroupId} {g : Group}, m'.groups[id]? = some g → g.Valid)
    (hparents : ∀ {id : GroupId} {g : Group}, m'.groups[id]? = some g →
      ∀ p, p ∈ g.parents ↔ m.Mentions p id ∨ p = j ∧ id ∈ s.inputs)
    (hacyclic : WellFounded fun b a => Links m'.children a b) : m'.Valid := by
  refine ⟨hvalid, ?_, ?_, ?_, ?_, hacyclic⟩
  · intro id c hc i hi
    rcases hcand.mp hc with hc | ⟨-, rfl⟩
    · exact Nat.lt_of_lt_of_le (hv.live hc i hi) hsize
    · exact Nat.lt_of_lt_of_le (hlive i hi) hsize
  · intro id g hg p
    rw [hparents hg]
    unfold Mentions
    simp only [hcand, or_and_right, exists_or, and_assoc, exists_and_left, exists_eq_left]
  · intro id c hc
    rw [home?, hindex]
    split
    · rfl
    · next hne =>
      rcases hcand.mp hc with hc | ⟨-, rfl⟩
      · exact hv.indexed hc
      · exact absurd rfl hne
  · have hold : ∀ {k id}, m.index.find? k = some id → ∃ c, m'.Candidate id c ∧ c.canon = k := by
      intro k id hk
      obtain ⟨c, hc, hck⟩ := hv.housed hk
      exact ⟨c, hcand.mpr (.inl hc), hck⟩
    intro k id hk
    rw [hindex] at hk
    split at hk
    · next heq =>
      subst heq
      cases hs : m.home? s with
      | some i =>
        rw [hs] at hk
        cases hk
        exact hold hs
      | none =>
        rw [hs] at hk
        cases hk
        exact ⟨s, hcand.mpr (.inr ⟨rfl, rfl⟩), rfl⟩
    · exact hold hk

/-- A new group keeps the memo valid: nothing refers to it yet. -/
theorem Create.valid (h : Create m m') (hv : m.Valid) : m'.Valid := by
  obtain ⟨hlive, hfresh⟩ := h
  rename_i s
  refine hv.of_added (j := m.size) hlive candidate_withGroup_iff ?_ ?_ ?_ ?_ ?_
  · rw [size_withGroup]
    exact Nat.le_succ _
  · intro k
    rw [hfresh]
    exact Assoc.find?_set ..
  · intro id g hg
    rcases group_withGroup_cases hg with ⟨g₀, hg₀, rfl⟩ | ⟨rfl, rfl⟩
    · exact Group.valid_adopt (hv.group hg₀) _ _ _
    · exact Group.valid_single m.size s
  · intro id g hg p
    rcases group_withGroup_cases hg with ⟨g₀, hg₀, rfl⟩ | ⟨rfl, rfl⟩
    · rw [Group.mem_parents_adopt, hv.parents hg₀]
    · constructor
      · intro hp
        cases hp
      · rintro (⟨c, hc, hid⟩ | ⟨-, hid⟩)
        · exact absurd (hv.live hc _ hid) (Nat.lt_irrefl _)
        · exact absurd (hlive _ hid) (Nat.lt_irrefl _)
  · refine wellFounded_redirect (a := m.size) hv.acyclic ?_ ?_
    · intro x hx
      by_cases hlt : x < m.size
      · exact children_congr (rep?_withGroup_of_lt hlt)
      · have hle : m.size ≤ x := Nat.le_of_not_lt hlt
        have hle' : (m.withGroup s).size ≤ x := by
          rw [size_withGroup]
          exact Nat.lt_of_le_of_ne hle (Ne.symm hx)
        rw [children_of_unknown (rep?_eq_none_iff.mpr hle),
          children_of_unknown (rep?_eq_none_iff.mpr hle')]
    · intro y hy hback
      have hlink := (links_of_rep (rep?_withGroup_size m s)).mp hy
      -- a way to the new group would end in a link to it, and there was none
      rcases ReflTransGen.cases_tail hback with heq | ⟨z, -, hz⟩
      · exact absurd (hlive y hlink) (heq ▸ Nat.lt_irrefl _)
      · exact absurd (hv.lt_of_links hz).2 (Nat.lt_irrefl _)

theorem group_attach_cases {g : Group} (h : (m.attach j s).groups[id]? = some g) :
    ∃ g₀, m.groups[id]? = some g₀ ∧
      (id = j ∧ g = (g₀.adopt j s j).push s ∨ id ≠ j ∧ g = g₀.adopt j s id) := by
  rw [groups_attach] at h
  obtain ⟨g₀, hg₀, rfl⟩ := Option.map_eq_some_iff.mp h
  refine ⟨g₀, hg₀, ?_⟩
  by_cases heq : id = j
  · subst heq
    exact .inl ⟨rfl, if_pos rfl⟩
  · exact .inr ⟨heq, if_neg heq⟩

/-- A candidate that the group does not hold keeps the memo valid. -/
theorem valid_attach (hv : m.Valid) {g : Group} (hj : m.groups[j]? = some g)
    (hlive : ∀ i ∈ s.inputs, i < m.size) (hfresh : g.position? s = none) :
    (m.attach j s).Valid := by
  refine hv.of_added hlive (candidate_attach_iff hj) (size_attach m j s).ge
    (find?_index_attach m j s) ?_ ?_ ?_
  · intro id g' hg'
    obtain ⟨g₀, hg₀, ⟨rfl, rfl⟩ | ⟨-, rfl⟩⟩ := group_attach_cases hg'
    · obtain rfl : g = g₀ := Option.some.inj (hj.symm.trans hg₀)
      exact Group.valid_push (Group.valid_adopt (hv.group hg₀) _ _ _) hfresh
    · exact Group.valid_adopt (hv.group hg₀) _ _ _
  · intro id g' hg' p
    obtain ⟨g₀, hg₀, ⟨rfl, rfl⟩ | ⟨-, rfl⟩⟩ := group_attach_cases hg'
    · rw [Group.parents_push, Group.mem_parents_adopt, hv.parents hg₀]
    · rw [Group.mem_parents_adopt, hv.parents hg₀]
  · have hchildren : (m.attach j s).children = m.children :=
      funext fun id => children_congr (rep?_attach m j s id)
    rw [hchildren]
    exact hv.acyclic

/-! ## Moves that keep candidates and links -/

/-- A memo stays valid if only representatives and notes change, each group stays
valid, and no circle is closed. -/
theorem Valid.of_same_links (hv : m.Valid) (hindex : m'.index = m.index)
    (hgroup : ∀ {id : GroupId} {g : Group}, m.groups[id]? = some g →
      ∃ g', m'.groups[id]? = some g' ∧ g'.candidates = g.candidates ∧ g'.parents = g.parents)
    (hsize : m'.size = m.size)
    (hvalid : ∀ {id : GroupId} {g : Group}, m'.groups[id]? = some g → g.Valid)
    (hacyclic : WellFounded fun b a => Links m'.children a b) : m'.Valid := by
  have hback : ∀ {id : GroupId} {g' : Group}, m'.groups[id]? = some g' →
      ∃ g, m.groups[id]? = some g ∧ g'.candidates = g.candidates ∧ g'.parents = g.parents := by
    intro id g' hg'
    obtain ⟨g, hg⟩ := lt_size_iff.mp (hsize ▸ lt_size_iff.mpr ⟨g', hg'⟩)
    obtain ⟨g'', hg'', hc, hp⟩ := hgroup hg
    obtain rfl : g' = g'' := Option.some.inj (hg'.symm.trans hg'')
    exact ⟨g, hg, hc, hp⟩
  have hcand : ∀ {id : GroupId} {c : Shape}, m'.Candidate id c ↔ m.Candidate id c := by
    intro id c
    constructor
    · rintro ⟨g', hg', hc'⟩
      obtain ⟨g, hg, hc, -⟩ := hback hg'
      exact ⟨g, hg, hc ▸ hc'⟩
    · rintro ⟨g, hg, hc'⟩
      obtain ⟨g', hg', hc, -⟩ := hgroup hg
      exact ⟨g', hg', hc ▸ hc'⟩
  refine ⟨hvalid, ?_, ?_, ?_, ?_, hacyclic⟩
  · intro id c hc
    rw [hsize]
    exact hv.live (hcand.mp hc)
  · intro id g' hg' p
    obtain ⟨g, hg, -, hp⟩ := hback hg'
    unfold Mentions
    simp only [hp, hcand]
    exact hv.parents hg p
  · intro id c hc
    rw [home?, hindex]
    exact hv.indexed (hcand.mp hc)
  · intro k id hk
    rw [hindex] at hk
    obtain ⟨c, hc, hck⟩ := hv.housed hk
    exact ⟨c, hcand.mpr hc, hck⟩

/-- A memo stays valid under a change of one group that keeps its candidates, its links
and its representative. -/
theorem Valid.edit (hv : m.Valid) {g : Group} (hj : m.groups[j]? = some g) {f : Group → Group}
    (hc : (f g).candidates = g.candidates) (hp : (f g).parents = g.parents)
    (hs : (f g).shape = g.shape) (hf : (f g).Valid) : (m.edit j f).Valid := by
  have hrep : ∀ x, (m.edit j f).rep? x = m.rep? x := by
    refine rep?_edit_of_shape fun g' hg' => ?_
    obtain rfl : g = g' := Option.some.inj (hj.symm.trans hg')
    exact hs
  refine hv.of_same_links rfl ?_ (size_edit m j f) ?_ ?_
  · intro id g' hg'
    by_cases heq : id = j
    · subst heq
      obtain rfl : g = g' := Option.some.inj (hj.symm.trans hg')
      exact ⟨f g, groups_edit_self hj f, hc, hp⟩
    · exact ⟨g', (groups_edit_ne heq f).trans hg', rfl, rfl⟩
  · intro id g' hg'
    by_cases heq : id = j
    · subst heq
      rw [groups_edit_self hj f] at hg'
      cases hg'
      exact hf
    · rw [groups_edit_ne heq f] at hg'
      exact hv.group hg'
  · have hchildren : (m.edit j f).children = m.children :=
      funext fun id => children_congr (hrep id)
    rw [hchildren]
    exact hv.acyclic

theorem Quiet.valid (h : Quiet m m') (hv : m.Valid) : m'.Valid := by
  cases h with
  | create h => exact h.valid hv
  | attach hat hlive hfresh => exact valid_attach hv hat hlive hfresh
  | @pin id g hat =>
    refine hv.edit hat (g.candidates_pin _) (g.parents_pin _) g.shape_pin_representative ?_
    exact Group.valid_pin (hv.group hat) g.representative_lt
  | settle hat => exact hv.edit hat rfl rfl rfl (Group.valid_settle (hv.group hat))

theorem Explore.valid {key : RuleKey} (h : Explore j key m m') (hv : m.Valid) : m'.Valid := by
  obtain ⟨hat⟩ := h
  exact hv.edit (f := fun g => g.explore key) hat rfl rfl rfl
    (Group.valid_explore (hv.group hat) key)

/-! ## Turns -/

/-- A valid change of one group and the wiping of notes keep each group valid. -/
theorem group_valid_edit_invalidate (hv : m.Valid) {g : Group} (hj : m.groups[j]? = some g)
    {f : Group → Group} (hf : (f g).Valid) {g' : Group}
    (hg' : ((m.edit j f).invalidate j).groups[id]? = some g') : g'.Valid := by
  rw [groups_invalidate] at hg'
  obtain ⟨g₁, hg₁, rfl⟩ := Option.map_eq_some_iff.mp hg'
  refine Group.valid_reopen ?_ _ _ _
  by_cases heq : id = j
  · subst heq
    rw [groups_edit_self hj f] at hg₁
    cases hg₁
    exact hf
  · rw [groups_edit_ne heq f] at hg₁
    exact hv.group hg₁

theorem Turn.group_valid (h : Turn j m m') (hv : m.Valid) {g' : Group}
    (hg' : m'.groups[id]? = some g') : g'.Valid := by
  cases h with
  | promote hat hpos _ halive _ =>
    have hlt := (List.getElem?_eq_some_iff.mp hpos).1
    exact group_valid_edit_invalidate hv hat (Group.valid_promote (hv.group hat) hlt halive) hg'
  | @force _ pos _ hat hpos _ _ =>
    have hlt := (List.getElem?_eq_some_iff.mp hpos).1
    exact group_valid_edit_invalidate (f := (·.pin pos)) hv hat
      (Group.valid_pin (hv.group hat) hlt) hg'

theorem Turn.size_eq (h : Turn j m m') : m'.size = m.size := by
  cases h with
  | promote => exact (size_invalidate _ _).trans (size_edit _ _ _)
  | force => exact (size_invalidate _ _).trans (size_edit _ _ _)

theorem Turn.index_eq (h : Turn j m m') : m'.index = m.index := by
  cases h with
  | promote => rfl
  | force => rfl

/-- A turn keeps the memo valid.  The new representative did not lead back to its group,
so no circle is closed. -/
theorem Turn.valid (h : Turn j m m') (hv : m.Valid) : m'.Valid := by
  refine hv.of_same_links h.index_eq h.group h.size_eq (fun hg' => h.group_valid hv hg') ?_
  obtain ⟨s, hrep, hs, hapart⟩ := h.rep?_self
  refine wellFounded_redirect (a := j) hv.acyclic ?_ ?_
  · intro x hx
    exact children_congr (h.rep?_of_ne hx)
  · intro y hy hback
    have hlead := (hv.leadsTo_iff (hv.live hs)).mpr ⟨y, (links_of_rep hrep).mp hy, hback⟩
    rw [hapart] at hlead
    cases hlead

theorem Move.valid (h : Move m m') (hv : m.Valid) : m'.Valid := by
  cases h with
  | quiet h => exact h.valid hv
  | explore h => exact h.valid hv
  | turn h => exact h.valid hv

theorem Moves.valid (h : m.Moves m') (hv : m.Valid) : m'.Valid := by
  induction h with
  | refl => exact hv
  | tail _ hmove ih => exact hmove.valid ih

end Memo

end PlanOptimizer
