import PlanOptimizer.Proofs.Memo.Calls
import PlanOptimizer.Proofs.Memo.Notes
import PlanOptimizer.Proofs.Memo.Resolved

/-!
# What a turn unsettles

When a group turns, all groups from which candidates lead to it lose their exploration notes,
and all of them but the group itself become stale.  No other group is touched
(`Memo.Swing.notes`), so the notes of a group whose plan has changed are gone.

The search for these groups follows the lists of parents.  In a valid memo they are the
candidate links read backwards, also where candidates lead in circles
(`Memo.Valid.mem_above_iff_leads`).
-/

namespace PlanOptimizer

open Relation

/-- The group that a call is about. -/
def Call.subject? {α : Type} : Call α → Option GroupId
  | .insert _ => none
  | .offer id _ => some id
  | .rerank id => some id
  | .markExplored id _ => some id

/-- Whether a call only makes a note. -/
def Call.isNote {α : Type} : Call α → Bool
  | .markExplored _ _ => true
  | _ => false

/-- The call ranks a group again. -/
def Call.Ranks {α : Type} (c : Call α) (id : GroupId) : Prop :=
  match c with
  | .rerank i => id = i
  | _ => False

namespace Memo

variable {m m' m₁ : Memo} {id j : GroupId} {s : Shape} {settled : GroupId → Prop}

/-- Candidates lead from a group to another one. -/
abbrev Leads (m : Memo) : GroupId → GroupId → Prop := ReflTransGen m.Mentions

/-- The representative of a group is another candidate than before. -/
def Moved (m m' : Memo) (id : GroupId) : Prop :=
  ∃ g g' : Group, m.groups[id]? = some g ∧ m'.groups[id]? = some g' ∧
    g'.representative ≠ g.representative

/-! ## Candidate links -/

theorem Valid.links_parents_iff (hv : m.Valid) : Links m.parents j id ↔ m.Mentions id j := by
  refine ⟨fun h => (hv.lt_of_parents h).2, fun h => ?_⟩
  obtain ⟨c, hc, hj⟩ := h
  obtain ⟨g, hg⟩ := lt_size_iff.mp (hv.live hc j hj)
  rw [Links, parents_of_group hg, hv.parents hg]
  exact ⟨c, hc, hj⟩

/-- The groups above a group are those from which candidates lead to it. -/
theorem Valid.mem_above_iff_leads (hv : m.Valid) (hid : id < m.size) :
    j ∈ m.above id ↔ m.Leads j id := by
  have hswap : Links m.parents = Function.swap m.Mentions := by
    funext a b
    exact propext hv.links_parents_iff
  rw [hv.mem_above_iff hid, Reaches, hswap, reflTransGen_swap]

theorem leads_congr (h : ∀ id c, m'.Candidate id c ↔ m.Candidate id c) : m'.Leads = m.Leads := by
  have hmentions : m'.Mentions = m.Mentions := by
    funext a b
    simp [Mentions, h]
  rw [Leads, hmentions]

theorem Valid.leads_of_reaches (hv : m.Valid) (h : Reaches m.children j id) : m.Leads j id := by
  refine ReflTransGen.mono (fun a b hab => ?_) _ _ h
  obtain ⟨g, hg⟩ := lt_size_iff.mp (hv.lt_of_links hab).1
  have hrep := rep?_of_group hg
  exact ⟨g.shape, candidate_of_rep? hrep, (links_of_rep hrep).mp hab⟩

theorem Extends.leads (h : m.Extends m') (hleads : m.Leads j id) : m'.Leads j id := by
  refine ReflTransGen.mono (fun a b hab => ?_) _ _ hleads
  obtain ⟨c, ⟨g, hg, hc⟩, hb⟩ := hab
  obtain ⟨g', hg', hext⟩ := h.group hg
  exact ⟨c, ⟨g', hg', hext.mem hc⟩, hb⟩

/-- A representative in the same place is the same one. -/
theorem Extends.rep? (h : m.Extends m') {g g' : Group} (hg : m.groups[id]? = some g)
    (hg' : m'.groups[id]? = some g') (hrep : g'.representative = g.representative) :
    m'.rep? id = m.rep? id := by
  obtain ⟨g'', hg'', hext⟩ := h.group hg
  obtain rfl : g' = g'' := Option.some.inj (hg'.symm.trans hg'')
  rw [rep?_of_group hg, rep?_of_group hg']
  refine congrArg some (Group.shape_eq_of_getElem? ?_)
  rw [hrep, ← g.getElem?_representative]
  exact (List.prefix_iff_getElem?.mp hext.candidates _ g.representative_lt).trans
    (List.getElem?_eq_getElem _).symm

/-! ## Nothing turns -/

/-- No group has turned, and all notes are as they were, except that the groups in `settled`
may have been ranked. -/
def Still (settled : GroupId → Prop) (m m' : Memo) : Prop :=
  ∀ (id : GroupId) (g : Group), m.groups[id]? = some g → ∃ g', m'.groups[id]? = some g' ∧
    g'.representative = g.representative ∧ g'.explored = g.explored ∧
      (g'.stale = g.stale ∨ settled id ∧ g'.stale = false)

theorem Still.refl (m : Memo) : m.Still settled m := fun _ g hg => ⟨g, hg, rfl, rfl, .inl rfl⟩

theorem Still.trans (h : m.Still settled m₁) (h' : m₁.Still settled m') : m.Still settled m' := by
  intro id g hg
  obtain ⟨g₁, hg₁, hrep, hexp, hstale⟩ := h id g hg
  obtain ⟨g', hg', hrep', hexp', hstale'⟩ := h' id g₁ hg₁
  refine ⟨g', hg', hrep'.trans hrep, hexp'.trans hexp, ?_⟩
  rcases hstale' with heq | hset
  · rcases hstale with heq₁ | ⟨hid, hset₁⟩
    · exact .inl (heq.trans heq₁)
    · exact .inr ⟨hid, heq.trans hset₁⟩
  · exact .inr hset

theorem still_withGroup (m : Memo) (s : Shape) : m.Still settled (m.withGroup s) := by
  intro id g hg
  refine ⟨g.adopt m.size s id, ?_, rfl, rfl, .inl rfl⟩
  rw [groups_withGroup_of_lt (lt_size_iff.mpr ⟨g, hg⟩), hg]
  rfl

theorem Grows.still (h : m.Grows m') : m.Still settled m' := by
  induction h with
  | refl => exact .refl m
  | tail _ hcreate ih =>
    obtain ⟨-, -⟩ := hcreate
    exact ih.trans (still_withGroup _ _)

theorem still_attach (m : Memo) (id : GroupId) (s : Shape) : m.Still settled (m.attach id s) := by
  intro j g hg
  refine ⟨_, by rw [groups_attach, hg]; rfl, ?_⟩
  by_cases heq : j = id
  · simp only [heq, if_true]
    exact ⟨rfl, rfl, .inl rfl⟩
  · simp only [heq, if_false]
    exact ⟨rfl, rfl, .inl rfl⟩

/-- A change of one group that keeps the position of its representative and its exploration
notes turns nothing. -/
theorem still_edit {f : Group → Group} {g : Group} (hat : m.groups[id]? = some g)
    (hrep : (f g).representative = g.representative) (hexp : (f g).explored = g.explored)
    (hstale : (f g).stale = g.stale ∨ settled id ∧ (f g).stale = false) :
    m.Still settled (m.edit id f) := by
  intro j g' hg'
  by_cases heq : j = id
  · subst heq
    obtain rfl : g = g' := Option.some.inj (hat.symm.trans hg')
    exact ⟨f g, groups_edit_self hat f, hrep, hexp, hstale⟩
  · exact ⟨g', (groups_edit_ne heq f).trans hg', rfl, rfl, .inl rfl⟩

theorem Still.not_moved (h : m.Still settled m') : ¬ m.Moved m' id := by
  rintro ⟨g, g', hg, hg', hne⟩
  obtain ⟨g'', hg'', hrep, -⟩ := h id g hg
  obtain rfl : g' = g'' := Option.some.inj (hg'.symm.trans hg'')
  exact hne hrep

theorem Still.rep? (h : m.Still settled m') (hext : m.Extends m') (hid : id < m.size) :
    m'.rep? id = m.rep? id := by
  obtain ⟨g, hg⟩ := lt_size_iff.mp hid
  obtain ⟨g', hg', hrep, -⟩ := h id g hg
  exact hext.rep? hg hg' hrep

/-! ## One group turns -/

/-- The group `id` has turned and no other one.  The groups from which candidates lead to it
have lost their notes, and they are stale but for the group itself.  Other groups keep their
notes. -/
structure Swung (settled : GroupId → Prop) (id : GroupId) (m m' : Memo) : Prop where
  /-- The group has turned. -/
  moved : m.Moved m' id
  /-- No other group has turned. -/
  only : ∀ {j : GroupId} {g : Group}, m.groups[j]? = some g → j ≠ id →
    ∃ g', m'.groups[j]? = some g' ∧ g'.representative = g.representative
  /-- What is above the group has to be explored and ranked again. -/
  above : ∀ {j : GroupId} {g' : Group}, m'.groups[j]? = some g' → m'.Leads j id →
    g'.explored = [] ∧ (j ≠ id → g'.stale = true)
  /-- Being ranked is left to the group itself. -/
  self : ∀ {g : Group}, m.groups[id]? = some g → ∃ g', m'.groups[id]? = some g' ∧
    (g'.stale = g.stale ∨ settled id ∧ g'.stale = false)
  /-- All else is as it was. -/
  apart : ∀ {j : GroupId} {g : Group}, m.groups[j]? = some g → ¬ m'.Leads j id →
    ∃ g', m'.groups[j]? = some g' ∧ g'.explored = g.explored ∧ g'.stale = g.stale

end Memo

/-- A change of a group that keeps all but its representative and the retired candidates. -/
structure Group.Swings (f : Group → Group) : Prop where
  candidates : ∀ g, (f g).candidates = g.candidates
  parents : ∀ g, (f g).parents = g.parents
  stale : ∀ g, (f g).stale = g.stale
  explored : ∀ g, (f g).explored = g.explored

theorem Group.swings_id : Swings fun g => g := by
  constructor <;> simp

theorem Group.swings_promote (pos : Nat) : Swings (·.promote pos) := by
  constructor <;> simp

theorem Group.swings_pin (pos : Nat) : Swings (·.pin pos) := by
  constructor <;> simp

namespace Memo

variable {m m' m₁ : Memo} {id j : GroupId} {s : Shape} {settled : GroupId → Prop}

/-- The groups after one of them has turned. -/
theorem groups_swing (m : Memo) (f : Group → Group) (hp : ∀ g, (f g).parents = g.parents)
    (j : GroupId) :
    ((m.edit id f).invalidate id).groups[j]? =
      (m.groups[j]?).map fun g => (if j = id then f g else g).reopen (m.above id) id j := by
  have habove : (m.edit id f).above id = m.above id := by
    unfold above ids
    rw [parents_edit hp, size_edit]
  rw [groups_invalidate, habove, groups_edit, Option.map_map]
  rfl

theorem swung_edit {f : Group → Group} {g : Group} (hv : m.Valid) (hat : m.groups[id]? = some g)
    (hf : Group.Swings f) (hne : (f g).representative ≠ g.representative) :
    m.Swung settled id ((m.edit id f).invalidate id) := by
  have hid : id < m.size := lt_size_iff.mpr ⟨g, hat⟩
  have hgroups : ∀ j, ((m.edit id f).invalidate id).groups[j]? =
      (m.groups[j]?).map fun g => (if j = id then f g else g).reopen (m.above id) id j :=
    groups_swing m f hf.parents
  have hleads : ((m.edit id f).invalidate id).Leads = m.Leads := by
    refine leads_congr fun i c => ?_
    rw [candidate_invalidate_iff, candidate_edit_iff hf.candidates]
  have hat' := (hgroups id).trans (congrArg _ hat)
  refine ⟨⟨g, _, hat, hat', ?_⟩, ?_, ?_, ?_, ?_⟩
  · simpa using hne
  · intro j h hj hne
    refine ⟨_, (hgroups j).trans (congrArg _ hj), ?_⟩
    simp [hne]
  · intro j g' hg' hlead
    rw [hleads, ← hv.mem_above_iff_leads hid] at hlead
    rw [hgroups] at hg'
    obtain ⟨h, -, rfl⟩ := Option.map_eq_some_iff.mp hg'
    refine ⟨Group.explored_reopen_of_mem hlead, fun hne => ?_⟩
    simp [Group.reopen, hlead, hne]
  · intro h hh
    obtain rfl : g = h := Option.some.inj (hat.symm.trans hh)
    refine ⟨_, hat', .inl ?_⟩
    have hmem : id ∈ m.above id := (hv.mem_above_iff_leads hid).mpr .refl
    simp [Group.reopen, hmem, hf.stale]
  · intro j h hj hlead
    have hne : j ≠ id := by
      rintro rfl
      exact hlead .refl
    rw [hleads, ← hv.mem_above_iff_leads hid] at hlead
    refine ⟨_, (hgroups j).trans (congrArg _ hj), ?_⟩
    simp [Group.reopen_of_not_mem hlead, hne]

/-- What has not turned anything may come before a turn. -/
theorem Still.swung (h : m.Still settled m₁) (hsettled : ∀ j, settled j → j = id)
    (hid : id < m.size) (hswing : m₁.Swung settled id m') : m.Swung settled id m' := by
  have hself : ∀ {g : Group}, m.groups[id]? = some g → ∃ g', m'.groups[id]? = some g' ∧
      (g'.stale = g.stale ∨ settled id ∧ g'.stale = false) := by
    intro g hg
    obtain ⟨g₁, hg₁, -, -, hstale⟩ := h id g hg
    obtain ⟨g', hg', heq | hset⟩ := hswing.self hg₁
    · rcases hstale with heq₁ | ⟨hid, hset⟩
      · exact ⟨g', hg', .inl (heq.trans heq₁)⟩
      · exact ⟨g', hg', .inr ⟨hid, heq.trans hset⟩⟩
    · exact ⟨g', hg', .inr hset⟩
  refine ⟨?_, ?_, hswing.above, hself, ?_⟩
  · obtain ⟨g, hg⟩ := lt_size_iff.mp hid
    obtain ⟨g₁, hg₁, hrep, -⟩ := h id g hg
    obtain ⟨g₂, g', hg₂, hg', hne⟩ := hswing.moved
    obtain rfl : g₁ = g₂ := Option.some.inj (hg₁.symm.trans hg₂)
    exact ⟨g, g', hg, hg', hrep ▸ hne⟩
  · intro j g hg hne
    obtain ⟨g₁, hg₁, hrep, -⟩ := h j g hg
    obtain ⟨g', hg', hrep'⟩ := hswing.only hg₁ hne
    exact ⟨g', hg', hrep'.trans hrep⟩
  · intro j g hg hlead
    obtain ⟨g₁, hg₁, -, hexp, hstale⟩ := h j g hg
    obtain ⟨g', hg', hexp', hstale'⟩ := hswing.apart hg₁ hlead
    refine ⟨g', hg', hexp'.trans hexp, hstale'.trans ?_⟩
    rcases hstale with heq | ⟨hj, -⟩
    · exact heq
    · exact absurd (hsettled j hj ▸ .refl) hlead

theorem Swung.not_moved (h : m.Swung settled id m') (hne : j ≠ id) : ¬ m.Moved m' j := by
  rintro ⟨g, g', hg, hg', hmoved⟩
  obtain ⟨g'', hg'', hrep⟩ := h.only hg hne
  obtain rfl : g' = g'' := Option.some.inj (hg'.symm.trans hg'')
  exact hmoved hrep

/-! ## Calls -/

variable {model : CostModel}

/-- A turn to a candidate that has just come in. -/
theorem swung_attach {f : Group → Group} {g : Group} (hv : m.Valid) (hat : m.groups[id]? = some g)
    (hlive : ∀ i ∈ s.inputs, i < m.size) (hfresh : g.position? s = none)
    (hsettled : ∀ j, settled j → j = id) (hf : Group.Swings f)
    (hlast : (f ((g.adopt id s id).push s)).representative = g.candidates.length) :
    m.Swung settled id (((m.attach id s).edit id f).invalidate id) := by
  refine (still_attach m id s).swung hsettled (lt_size_iff.mpr ⟨g, hat⟩) ?_
  refine swung_edit (valid_attach hv hat hlive hfresh) (groups_attach_self hat s) hf ?_
  rw [hlast]
  exact Nat.ne_of_gt g.representative_lt

/-- Placing a shape turns its own group or none. -/
theorem Placement.still_or_swung {forced : Bool} {r : Except Fault Outcome}
    (h : Placement model id s m forced r m') (hv : m.Valid) (hlive : ∀ i ∈ s.inputs, i < m.size)
    (hsettled : ∀ j, settled j → j = id) : m.Still settled m' ∨ m.Swung settled id m' := by
  cases h with
  | held => exact .inl (.refl m)
  | unranked => exact .inl (.refl m)
  | added => exact .inl (still_attach m id s)
  | @pinned g hat =>
    have hrep := Group.representative_pin g.representative_lt
    exact .inl (still_edit hat hrep (g.explored_pin _) (.inl (g.stale_pin _)))
  | @revived g pos hat hpos hne =>
    obtain ⟨c, hc, -⟩ := candidate_of_position? hpos
    refine .inr (swung_edit hv hat (Group.swings_pin pos) ?_)
    rwa [Group.representative_pin (List.getElem?_eq_some_iff.mp hc).1]
  | @won g hat hfresh =>
    have hlt := (List.getElem?_eq_some_iff.mp (candidates_attach_last g id s)).1
    exact .inr (swung_attach hv hat hlive hfresh hsettled (Group.swings_promote _)
      (Group.representative_promote hlt))
  | @imposed g hat hfresh =>
    have hlt := (List.getElem?_eq_some_iff.mp (candidates_attach_last g id s)).1
    exact .inr (swung_attach hv hat hlive hfresh hsettled (Group.swings_pin _)
      (Group.representative_pin hlt))

theorem Offering.still_or_swung {o : Offer} {r : Except Fault Outcome}
    (h : Offering model id o m r m') (hv : m.Valid) (hid : id < m.size)
    (hsettled : ∀ j, settled j → j = id) : m.Still settled m' ∨ m.Swung settled id m' := by
  cases h with
  | unknown => exact .inl (.refl m)
  | itself => exact .inl (.refl m)
  | dangling hgrows => exact .inl hgrows.still
  | refused hgrows => exact .inl hgrows.still
  | placed hgrows hs _ hplacement =>
    have hv₁ := hgrows.valid hv
    rcases hplacement.still_or_swung hv₁ (hv₁.live_normal? hs) hsettled with hstill | hswung
    · exact .inl (hgrows.still.trans hstill)
    · exact .inr (hgrows.still.swung hsettled hid hswung)

/-- A group that moves when it is ranked again turns, and its mark is cleared. -/
theorem Ranking.swung (h : Ranking model id m (.ok true) m') (hv : m.Valid) :
    m.Swung (· = id) id m' := by
  cases h with
  | @moved g s pos hat hpos hne =>
    have hsettle : m.Still (· = id) (m.edit id Group.settle) :=
      still_edit hat rfl rfl (.inr ⟨rfl, rfl⟩)
    have hv₁ : (m.edit id Group.settle).Valid := (Quiet.settle hat).valid hv
    refine hsettle.swung (fun _ h => h) (lt_size_iff.mpr ⟨g, hat⟩) ?_
    have hlt : pos < g.settle.candidates.length := (List.getElem?_eq_some_iff.mp hpos).1
    refine swung_edit hv₁ (groups_edit_self hat _) (Group.swings_promote pos) ?_
    rwa [Group.representative_promote hlt]

theorem Ranking.still (h : Ranking model id m (.ok false) m') : m.Still (· = id) m' := by
  cases h with
  | rested => exact .refl m
  | kept hat => exact still_edit hat rfl rfl (.inr ⟨rfl, rfl⟩)

/-- Ranking a group again turns it or none. -/
theorem Ranking.still_or_swung {r : Except Fault Bool} (h : Ranking model id m r m')
    (hv : m.Valid) : m.Still (· = id) m' ∨ m.Swung (· = id) id m' := by
  rcases r with f | _ | _
  · cases h <;> exact .inl (.refl m)
  · exact .inl h.still
  · exact .inr (h.swung hv)

/-- A group that has been ranked is not stale. -/
theorem Ranking.fresh {moved : Bool} (h : Ranking model id m (.ok moved) m') :
    ∃ g, m'.groups[id]? = some g ∧ g.stale = false := by
  cases h with
  | rested hat hstale => exact ⟨_, hat, hstale⟩
  | kept hat => exact ⟨_, groups_edit_self hat _, rfl⟩
  | moved hat =>
    refine ⟨_, groups_invalidate_self (groups_edit_self (groups_edit_self hat Group.settle) _), ?_⟩
    unfold Group.reopen
    split <;> simp [Group.settle]

end Memo

/-- A call that is no note turns the group that it is about or none. -/
theorem Call.still_or_swung {α : Type} (model : CostModel) (c : Call α) (hc : c.isNote = false)
    {m : Memo} (hv : m.Valid) :
    m.Still c.Ranks ((c.edit model).runOn m).2 ∨
      ∃ id, c.subject? = some id ∧ m.Swung c.Ranks id ((c.edit model).runOn m).2 := by
  cases c with
  | insert p =>
    left
    obtain ⟨m', hgrows, ⟨id, hrun, -⟩ | ⟨i, hrun⟩⟩ := Memo.insert_cases p hv
    · simpa [Call.edit, hrun] using hgrows.still
    · simpa [Call.edit, hrun] using hgrows.still
  | offer id o =>
    obtain ⟨r, m', hrun, hoffering⟩ := Memo.offer_cases hv model id o
    simp only [Call.edit, hrun]
    cases hg : m.groups[id]? with
    | none =>
      have hsame : (Memo.offer model id o).runOn m = (.error (.unknownGroup id), m) := by
        rw [Memo.offer, Edit.runOn_ask_bind, Memo.group_of_unknown hg]
      obtain ⟨-, rfl⟩ := Prod.mk.inj (hrun.symm.trans hsame)
      exact .inl (.refl m')
    | some g =>
      have hid := Memo.lt_size_iff.mpr ⟨g, hg⟩
      exact (hoffering.still_or_swung hv hid fun _ h => h.elim).imp_right fun h => ⟨id, rfl, h⟩
  | rerank id =>
    obtain ⟨r, m', hrun, hranking⟩ := Memo.rerank_cases model id m
    simp only [Call.edit, hrun]
    exact (hranking.still_or_swung hv).imp_right fun h => ⟨id, rfl, h⟩
  | markExplored id key => cases hc

namespace Memo

variable {m m' : Memo} {id j : GroupId}

theorem Still.resolve_group {settled : GroupId → Prop} (h : m.Still settled m')
    (hext : m.Extends m') (hv : m.Valid) (hj : j < m.size) :
    (Plan.group j).resolve m'.lookup = (Plan.group j).resolve m.lookup := by
  refine SameBelow.resolve_group (fun i hi => ?_) hv
  exact h.rep? hext (hv.lt_of_reaches hj hi)

/-- Only plans of groups that lead to the group that has turned are other ones than before. -/
theorem Swung.leads_of_resolve_ne {settled : GroupId → Prop} (h : m.Swung settled id m')
    (hext : m.Extends m') (hv : m.Valid) (hj : j < m.size)
    (hne : (Plan.group j).resolve m'.lookup ≠ (Plan.group j).resolve m.lookup) :
    m'.Leads j id := by
  by_contra hnot
  refine hne (SameBelow.resolve_group ?_ hv)
  refine .of_ne (j := id) (fun i hi hlt => ?_) hv hj fun hreach => ?_
  · obtain ⟨g, hg⟩ := lt_size_iff.mp hlt
    obtain ⟨g', hg', hrep⟩ := h.only hg hi
    exact hext.rep? hg hg' hrep
  · exact hnot (hext.leads (hv.leads_of_reaches hreach))

/-- **Invalidation is complete and exact.**  After a call that is no note:

* a group whose plan is another one than before has no notes, and it is stale unless the call
  is about it;
* if no group has turned, all groups keep their notes, and they stay stale or not, but for a
  group that has just been ranked;
* if a group has turned, the call is about it.  It and the groups from which candidates lead
  to it have no notes, these others are stale, and all groups beside them keep what they had. -/
theorem Reachable.notes_of_call (hm : m.Reachable) {α : Type} (model : CostModel) (c : Call α)
    (hc : c.isNote = false) {r : Except Fault α} (hrun : (c.edit model).runOn m = (r, m')) :
    (∀ j < m.size, (Plan.group j).resolve m'.lookup ≠ (Plan.group j).resolve m.lookup →
      ∃ g', m'.groups[j]? = some g' ∧ g'.explored = [] ∧
        (c.subject? ≠ some j → g'.stale = true)) ∧
    ((∀ id, ¬ m.Moved m' id) → ∀ (j : GroupId) (g : Group), m.groups[j]? = some g →
      ∃ g', m'.groups[j]? = some g' ∧ g'.explored = g.explored ∧
        (g'.stale = g.stale ∨ c.Ranks j ∧ g'.stale = false)) ∧
    ∀ id, m.Moved m' id → c.subject? = some id ∧
      (∀ (j : GroupId) (g' : Group), m'.groups[j]? = some g' → m'.Leads j id →
        g'.explored = [] ∧ (j ≠ id → g'.stale = true)) ∧
      (∀ g : Group, m.groups[id]? = some g → ∃ g', m'.groups[id]? = some g' ∧
        (g'.stale = g.stale ∨ c.Ranks id ∧ g'.stale = false)) ∧
      ∀ (j : GroupId) (g : Group), m.groups[j]? = some g → ¬ m'.Leads j id →
        ∃ g', m'.groups[j]? = some g' ∧ g'.explored = g.explored ∧ g'.stale = g.stale := by
  have hv := hm.valid
  have hend : ((c.edit model).runOn m).2 = m' := by rw [hrun]
  have hext : m.Extends m' := hend ▸ (c.moves model hv).extends
  rcases hend ▸ c.still_or_swung model hc hv with hstill | ⟨id, hsubject, hswung⟩
  · refine ⟨fun j hj hne => ?_, fun _ j g hg => ?_, fun id hmoved => ?_⟩
    · exact absurd (hstill.resolve_group hext hv hj) hne
    · obtain ⟨g', hg', -, hexplored, hstale⟩ := hstill j g hg
      exact ⟨g', hg', hexplored, hstale⟩
    · exact absurd hmoved hstill.not_moved
  · refine ⟨fun j hj hne => ?_, fun hnone => absurd hswung.moved (hnone id), fun j hmoved => ?_⟩
    · obtain ⟨g', hg'⟩ := lt_size_iff.mp (hext.size_le hj)
      have hlead := hswung.leads_of_resolve_ne hext hv hj hne
      obtain ⟨hexplored, hstale⟩ := hswung.above hg' hlead
      exact ⟨g', hg', hexplored, fun hother => hstale fun heq => hother (heq ▸ hsubject)⟩
    · obtain rfl : j = id := by
        by_contra hne
        exact hswung.not_moved hne hmoved
      exact ⟨hsubject, fun _ _ => hswung.above, fun _ => hswung.self, fun _ _ => hswung.apart⟩

section Replacing

private def noting : Edit Unit := do
  let id ← (Call.insert (.limit 0 5 (.scanAll "s" "t"))).edit .indifferent
  (Call.markExplored id ⟨"rules", "any"⟩).edit .indifferent

/-- A limit over a scan, with a note on the limit. -/
private def noted : Memo := (noting.runOn .empty).2

private def replacing : Call Outcome := .offer 0 (.replacement (.scanAll "s" "u"))

/-- The same with another scan. -/
private def replaced : Memo := ((replacing.edit .indifferent).runOn noted).2

/-- A replacement of the scan under a limit wipes the note on the limit. -/
theorem notes_of_replaced_scan :
    noted.Reachable ∧ noted.Moved replaced 0 ∧
      (noted.groups[1]?).map (fun g => (g.explored, g.stale)) = some ([⟨"rules", "any"⟩], false) ∧
      ∀ g' : Group, replaced.groups[1]? = some g' → g'.explored = [] ∧ g'.stale = true := by
  have hscript : noting.Scripted :=
    .bind (.call _ _) fun _ => .call _ _
  have hreach : noted.Reachable := hscript.reachable .empty
  have hmoved : noted.Moved replaced 0 := by
    have hbefore : (noted.groups[0]?).map Group.representative = some 0 := by decide +kernel
    have hafter : (replaced.groups[0]?).map Group.representative = some 1 := by decide +kernel
    obtain ⟨g, hg, hrep⟩ := Option.map_eq_some_iff.mp hbefore
    obtain ⟨g', hg', hrep'⟩ := Option.map_eq_some_iff.mp hafter
    exact ⟨g, g', hg, hg', by omega⟩
  have hlead : replaced.Leads 1 0 := by
    have hrep : replaced.rep? 1 = some (.unary (.limit 0 5) 0) := by decide +kernel
    exact .single ⟨_, candidate_of_rep? hrep, by simp [Node.inputs]⟩
  refine ⟨hreach, hmoved, by decide +kernel, fun g' hg' => ?_⟩
  obtain ⟨-, -, hturned⟩ := hreach.notes_of_call .indifferent replacing rfl rfl
  obtain ⟨-, habove, -⟩ := hturned 0 hmoved
  exact (habove 1 g' hg' hlead).imp_right fun h => h (by decide)

end Replacing

end Memo

end PlanOptimizer
