import PlanOptimizer.Proofs.Memo.Groups
import PlanOptimizer.Proofs.Reachability

/-!
# Moves

Every operation on a memo is a sequence of a few *moves*.  A quiet move leaves all
representatives and all exploration notes: it makes a group, attaches a candidate,
retires the candidates beside a representative, or notes that a group has been
ranked.  `Explore` adds one exploration note.  A `Turn` gives one group another
representative, which did not lead back to the group, and wipes the notes of that
group and of all groups above it.

What a whole run preserves is proved for one move at a time.  `Memo.Extends` is the
first such property: groups, candidates, links and index entries are never taken
away.
-/

namespace PlanOptimizer

open Relation

/-! ## Groups that only grow -/

/-- A group later on: more candidates and parents. -/
structure Group.Extends (g g' : Group) : Prop where
  /-- Candidates come in behind the others. -/
  candidates : g.candidates <+: g'.candidates
  /-- Parents stay. -/
  parents : g.parents ⊆ g'.parents

/-- A group later on, with its representative and its notes as they were. -/
structure Group.Steady (g g' : Group) : Prop extends g.Extends g' where
  /-- The representative is the same. -/
  shape : g'.shape = g.shape
  /-- The group has not become stale. -/
  stale : g'.stale = true → g.stale = true
  /-- The exploration notes are the same. -/
  explored : g'.explored = g.explored

namespace Group

variable {g g' g'' : Group}

theorem Extends.refl (g : Group) : g.Extends g := ⟨List.prefix_refl _, fun _ h => h⟩

theorem Extends.trans (h : g.Extends g') (h' : g'.Extends g'') : g.Extends g'' :=
  ⟨h.candidates.trans h'.candidates, fun _ hp => h'.parents (h.parents hp)⟩

theorem Extends.mem (h : g.Extends g') {c : Shape} (hc : c ∈ g.candidates) :
    c ∈ g'.candidates := h.candidates.subset hc

theorem extends_of_eq (hc : g'.candidates = g.candidates) (hp : g'.parents = g.parents) :
    g.Extends g' :=
  ⟨hc ▸ List.prefix_refl _, fun _ h => hp ▸ h⟩

theorem extends_push (g : Group) (s : Shape) : g.Extends (g.push s) :=
  ⟨List.prefix_append _ _, fun _ h => h⟩

theorem extends_adopt (g : Group) (p : GroupId) (s : Shape) (id : GroupId) :
    g.Extends (g.adopt p s id) :=
  ⟨List.prefix_refl _, fun _ h => mem_parents_adopt.mpr (.inl h)⟩

theorem Steady.refl (g : Group) : g.Steady g := ⟨.refl g, rfl, fun h => h, rfl⟩

theorem Steady.trans (h : g.Steady g') (h' : g'.Steady g'') : g.Steady g'' :=
  ⟨h.toExtends.trans h'.toExtends, h'.shape.trans h.shape, fun hs => h.stale (h'.stale hs),
    h'.explored.trans h.explored⟩

theorem steady_adopt (g : Group) (p : GroupId) (s : Shape) (id : GroupId) :
    g.Steady (g.adopt p s id) :=
  ⟨g.extends_adopt p s id, rfl, fun h => h, rfl⟩

theorem steady_push (g : Group) (s : Shape) : g.Steady (g.push s) :=
  ⟨g.extends_push s, g.shape_push s, fun h => h, rfl⟩

end Group

namespace Memo

variable {m m' m'' : Memo}

/-- A memo later on. -/
structure Extends (m m' : Memo) : Prop where
  /-- Groups stay, and they only grow. -/
  group : ∀ {id : GroupId} {g : Group}, m.groups[id]? = some g →
    ∃ g', m'.groups[id]? = some g' ∧ g.Extends g'
  /-- Entries of the index stay. -/
  index : ∀ {k id}, m.index.find? k = some id → m'.index.find? k = some id

theorem Extends.refl (m : Memo) : m.Extends m := ⟨fun h => ⟨_, h, .refl _⟩, fun h => h⟩

theorem Extends.trans (h : m.Extends m') (h' : m'.Extends m'') : m.Extends m'' where
  group hg := by
    obtain ⟨g', hg', hext⟩ := h.group hg
    obtain ⟨g'', hg'', hext'⟩ := h'.group hg'
    exact ⟨g'', hg'', hext.trans hext'⟩
  index hk := h'.index (h.index hk)

theorem Extends.size_le (h : m.Extends m') {id : GroupId} (hid : id < m.size) : id < m'.size := by
  obtain ⟨g, hg⟩ := lt_size_iff.mp hid
  obtain ⟨g', hg', -⟩ := h.group hg
  exact lt_size_iff.mpr ⟨g', hg'⟩

theorem Extends.size_mono (h : m.Extends m') : m.size ≤ m'.size :=
  Nat.le_of_not_lt fun hlt => Nat.lt_irrefl _ (h.size_le hlt)

theorem Extends.home? (h : m.Extends m') {s : Shape} {id : GroupId} (hs : m.home? s = some id) :
    m'.home? s = some id := h.index hs

/-! ## Moves -/

/-- A new group for a shape over groups that exist. -/
inductive Create : Memo → Memo → Prop where
  | create {m : Memo} {s : Shape} (live : ∀ i ∈ s.inputs, i < m.size) (fresh : m.home? s = none) :
      Create m (m.withGroup s)

/-- Any number of new groups. -/
abbrev Grows : Memo → Memo → Prop := ReflTransGen Create

/-- A move that leaves representatives and exploration notes. -/
inductive Quiet : Memo → Memo → Prop where
  /-- A new group. -/
  | create {m m' : Memo} (h : Create m m') : Quiet m m'
  /-- A candidate that the group does not hold. -/
  | attach {m : Memo} {id : GroupId} {g : Group} {s : Shape} (at_id : m.groups[id]? = some g)
      (live : ∀ i ∈ s.inputs, i < m.size) (fresh : g.position? s = none) :
      Quiet m (m.attach id s)
  /-- All candidates but the representative retire. -/
  | pin {m : Memo} {id : GroupId} {g : Group} (at_id : m.groups[id]? = some g) :
      Quiet m (m.force id g.representative)
  /-- The group has been ranked. -/
  | settle {m : Memo} {id : GroupId} {g : Group} (at_id : m.groups[id]? = some g) :
      Quiet m (m.edit id Group.settle)

/-- Any number of quiet moves. -/
abbrev Rests : Memo → Memo → Prop := ReflTransGen Quiet

/-- A note that a rule has been offered the representative of a group. -/
inductive Explore (id : GroupId) (key : RuleKey) : Memo → Memo → Prop where
  | explore {m : Memo} {g : Group} (at_id : m.groups[id]? = some g) :
      Explore id key m (m.edit id (·.explore key))

/-- Another candidate becomes the representative of a group.  It does not lead back to
the group. -/
inductive Turn (id : GroupId) : Memo → Memo → Prop where
  /-- By rank. -/
  | promote {m : Memo} {g : Group} {pos : Nat} {s : Shape} (at_id : m.groups[id]? = some g)
      (at_pos : g.candidates[pos]? = some s) (ne : pos ≠ g.representative)
      (alive : pos ∉ g.retired) (apart : m.leadsTo s id = false) :
      Turn id m ((m.edit id (·.promote pos)).invalidate id)
  /-- By force. -/
  | force {m : Memo} {g : Group} {pos : Nat} {s : Shape} (at_id : m.groups[id]? = some g)
      (at_pos : g.candidates[pos]? = some s) (ne : pos ≠ g.representative)
      (apart : m.leadsTo s id = false) :
      Turn id m ((m.force id pos).invalidate id)

/-- A move of any kind. -/
inductive Move : Memo → Memo → Prop where
  | quiet {m m' : Memo} (h : Quiet m m') : Move m m'
  | explore {m m' : Memo} {id : GroupId} {key : RuleKey} (h : Explore id key m m') : Move m m'
  | turn {m m' : Memo} {id : GroupId} (h : Turn id m m') : Move m m'

/-- Any number of moves. -/
abbrev Moves : Memo → Memo → Prop := ReflTransGen Move

/-- Quiet moves, and at the end one group turns or none. -/
inductive Changes (id : GroupId) : Memo → Memo → Prop where
  | rests {m m' : Memo} (h : m.Rests m') : Changes id m m'
  | turns {m m₁ m' : Memo} (h : m.Rests m₁) (h' : Turn id m₁ m') : Changes id m m'

theorem Grows.rests (h : m.Grows m') : m.Rests m' := ReflTransGen.mono (fun _ _ => Quiet.create) _ _ h

theorem Rests.moves (h : m.Rests m') : m.Moves m' := ReflTransGen.mono (fun _ _ => Move.quiet) _ _ h

theorem Changes.moves {id : GroupId} (h : Changes id m m') : m.Moves m' := by
  cases h with
  | rests h => exact h.moves
  | turns h h' => exact h.moves.tail (.turn h')

/-- New groups may come before a change. -/
theorem Changes.after {id : GroupId} (h : m.Grows m') (h' : Changes id m' m'') :
    Changes id m m'' := by
  cases h' with
  | rests h' => exact .rests (h.rests.trans h')
  | turns h' hturn => exact .turns (h.rests.trans h') hturn

/-! ## Moves on groups -/

theorem Create.steady (h : Create m m') {id : GroupId} {g : Group} (hg : m.groups[id]? = some g) :
    ∃ g', m'.groups[id]? = some g' ∧ g.Steady g' := by
  obtain ⟨-, -⟩ := h
  rename_i s
  refine ⟨g.adopt m.size s id, ?_, g.steady_adopt m.size s id⟩
  rw [groups_withGroup_of_lt (lt_size_iff.mpr ⟨g, hg⟩), hg]
  rfl

/-- A quiet move keeps every group steady. -/
theorem Quiet.steady (h : Quiet m m') {id : GroupId} {g : Group} (hg : m.groups[id]? = some g) :
    ∃ g', m'.groups[id]? = some g' ∧ g.Steady g' := by
  cases h with
  | create h => exact h.steady hg
  | @attach at' _ s =>
    by_cases heq : id = at'
    · subst heq
      exact ⟨_, groups_attach_self hg s, (g.steady_adopt id s id).trans (Group.steady_push _ s)⟩
    · rw [groups_attach_ne heq, hg]
      exact ⟨_, rfl, g.steady_adopt at' s id⟩
  | @pin at' h hat =>
    by_cases heq : id = at'
    · subst heq
      obtain rfl : g = h := Option.some.inj (hg.symm.trans hat)
      exact ⟨_, groups_edit_self hg _, Group.extends_of_eq (by simp) (by simp), by simp, by simp,
        by simp⟩
    · exact ⟨g, (groups_edit_ne heq _).trans hg, .refl g⟩
  | @settle at' =>
    by_cases heq : id = at'
    · subst heq
      exact ⟨_, groups_edit_self hg _, Group.extends_of_eq rfl rfl, rfl, fun hs => (nomatch hs), rfl⟩
    · exact ⟨g, (groups_edit_ne heq _).trans hg, .refl g⟩

/-- What a change of one group and a change of notes do to the candidates and links. -/
theorem groups_edit_invalidate {at' id : GroupId} {g : Group} {f : Group → Group}
    (hc : ∀ g, (f g).candidates = g.candidates) (hp : ∀ g, (f g).parents = g.parents)
    (hg : m.groups[id]? = some g) :
    ∃ g', ((m.edit at' f).invalidate at').groups[id]? = some g' ∧
      g'.candidates = g.candidates ∧ g'.parents = g.parents := by
  rw [groups_invalidate]
  by_cases heq : id = at'
  · subst heq
    rw [groups_edit_self hg]
    exact ⟨_, rfl, Group.candidates_reopen.trans (hc g), Group.parents_reopen.trans (hp g)⟩
  · rw [groups_edit_ne heq, hg]
    exact ⟨_, rfl, Group.candidates_reopen, Group.parents_reopen⟩

/-- A turn of one group keeps the candidates and links of all. -/
theorem Turn.group {at' : GroupId} (h : Turn at' m m') {id : GroupId} {g : Group}
    (hg : m.groups[id]? = some g) :
    ∃ g', m'.groups[id]? = some g' ∧ g'.candidates = g.candidates ∧ g'.parents = g.parents := by
  cases h with
  | promote => exact groups_edit_invalidate (by simp) (by simp) hg
  | force => exact groups_edit_invalidate (by simp) (by simp) hg

/-! ### Nothing is taken away -/

theorem Create.index (h : Create m m') {k : Shape} {id : GroupId}
    (hk : m.index.find? k = some id) : m'.index.find? k = some id := by
  obtain ⟨-, hfresh⟩ := h
  rename_i s
  show (m.index.set s.canon m.size).find? k = some id
  rw [Assoc.find?_set]
  by_cases heq : k = s.canon
  · subst heq
    rw [show m.index.find? s.canon = none from hfresh] at hk
    cases hk
  · rw [if_neg heq, hk]

theorem Quiet.extends (h : Quiet m m') : m.Extends m' where
  group hg := by
    obtain ⟨g', hg', hsteady⟩ := h.steady hg
    exact ⟨g', hg', hsteady.toExtends⟩
  index {k id} hk := by
    cases h with
    | create h => exact h.index hk
    | @attach at' _ s =>
      rw [find?_index_attach]
      by_cases heq : k = s.canon
      · subst heq
        rw [if_pos rfl, show m.home? s = some id from hk]
        rfl
      · rw [if_neg heq, hk]
    | pin => exact hk
    | settle => exact hk

theorem Explore.extends {at' : GroupId} {key : RuleKey} (h : Explore at' key m m') :
    m.Extends m' := by
  obtain ⟨-⟩ := h
  refine ⟨fun {id g} hg => ?_, fun hk => hk⟩
  by_cases heq : id = at'
  · subst heq
    exact ⟨_, groups_edit_self hg _, Group.extends_of_eq rfl rfl⟩
  · exact ⟨g, (groups_edit_ne heq _).trans hg, .refl g⟩

theorem Turn.extends {at' : GroupId} (h : Turn at' m m') : m.Extends m' where
  group hg := by
    obtain ⟨g', hg', hc, hp⟩ := h.group hg
    exact ⟨g', hg', Group.extends_of_eq hc hp⟩
  index hk := by
    cases h with
    | promote => exact hk
    | force => exact hk

theorem Move.extends (h : Move m m') : m.Extends m' := by
  cases h with
  | quiet h => exact h.extends
  | explore h => exact h.extends
  | turn h => exact h.extends

theorem Moves.extends (h : m.Moves m') : m.Extends m' := by
  induction h with
  | refl => exact .refl m
  | tail _ hmove ih => exact ih.trans hmove.extends

/-! ### Representatives -/

/-- A quiet move keeps every representative. -/
theorem Quiet.rep? (h : Quiet m m') {id : GroupId} (hid : id < m.size) :
    m'.rep? id = m.rep? id := by
  obtain ⟨g, hg⟩ := lt_size_iff.mp hid
  obtain ⟨g', hg', hsteady⟩ := h.steady hg
  rw [rep?_of_group hg, rep?_of_group hg', hsteady.shape]

theorem Rests.steady (h : m.Rests m') {id : GroupId} {g : Group} (hg : m.groups[id]? = some g) :
    ∃ g', m'.groups[id]? = some g' ∧ g.Steady g' := by
  induction h with
  | refl => exact ⟨g, hg, .refl g⟩
  | tail _ hmove ih =>
    obtain ⟨g', hg', hsteady⟩ := ih
    obtain ⟨g'', hg'', hsteady'⟩ := hmove.steady hg'
    exact ⟨g'', hg'', hsteady.trans hsteady'⟩

/-- An exploration note changes no representative. -/
theorem Explore.rep? {at' : GroupId} {key : RuleKey} (h : Explore at' key m m') (id : GroupId) :
    m'.rep? id = m.rep? id := by
  obtain ⟨-⟩ := h
  exact m.rep?_explore at' id key

/-- A turn of one group keeps the representatives of the others. -/
theorem Turn.rep?_of_ne {at' : GroupId} (h : Turn at' m m') {id : GroupId} (hne : id ≠ at') :
    m'.rep? id = m.rep? id := by
  cases h with
  | promote => rw [rep?_invalidate, Memo.rep?, groups_edit_ne hne, Memo.rep?]
  | force => rw [rep?_invalidate, Memo.rep?, Memo.force, groups_edit_ne hne, Memo.rep?]

/-- The new representative did not lead back to its group. -/
theorem Turn.rep?_self {at' : GroupId} (h : Turn at' m m') :
    ∃ s, m'.rep? at' = some s ∧ m.Candidate at' s ∧ m.leadsTo s at' = false := by
  cases h with
  | @promote g pos s hat hpos _ _ hapart =>
    refine ⟨s, ?_, ⟨g, hat, List.mem_of_getElem? hpos⟩, hapart⟩
    rw [rep?_invalidate, rep?_of_group (groups_edit_self hat _), Group.shape_promote hpos]
  | @force g pos s hat hpos _ hapart =>
    refine ⟨s, ?_, ⟨g, hat, List.mem_of_getElem? hpos⟩, hapart⟩
    rw [rep?_invalidate, Memo.force, rep?_of_group (groups_edit_self hat _), Group.shape_pin hpos]

theorem Rests.rep? (h : m.Rests m') {id : GroupId} (hid : id < m.size) : m'.rep? id = m.rep? id := by
  obtain ⟨g, hg⟩ := lt_size_iff.mp hid
  obtain ⟨g', hg', hsteady⟩ := h.steady hg
  rw [rep?_of_group hg, rep?_of_group hg', hsteady.shape]

/-- A change of one group keeps the representatives of the others. -/
theorem Changes.rep?_of_ne {at' : GroupId} (h : Changes at' m m') {id : GroupId} (hid : id < m.size)
    (hne : id ≠ at') : m'.rep? id = m.rep? id := by
  cases h with
  | rests h => exact h.rep? hid
  | turns h hturn => exact (hturn.rep?_of_ne hne).trans (h.rep? hid)

end Memo

end PlanOptimizer
