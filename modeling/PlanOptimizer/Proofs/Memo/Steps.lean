import PlanOptimizer.Proofs.Memo.Pinned
import PlanOptimizer.Proofs.Rules.Admitted

/-!
# Steps at a group

Exploring a group makes notes, ranks the group again, and offers plans to it.  All this is done at
one group.  The other groups keep their representatives, their candidates, and which of these have
retired.  Some of them may become stale, but only if the step is answered as a change, and only if
candidates lead from them to the group (`Memo.Leaves`).

A group is *lone* if all its candidates but the representative have retired.  It is lone when it is
made, and again after a replacement, and ranking it again changes nothing.
-/

namespace PlanOptimizer

open Relation

theorem Group.mem_live_iff {g : Group} {c : Shape} :
    c ∈ g.live ↔ ∃ pos, g.candidates[pos]? = some c ∧ pos ∉ g.retired := by
  simp [Group.live, Group.numbered, List.mem_zipIdx_iff_getElem?]

namespace Memo

variable {m m' m₁ m'' : Memo} {id j : GroupId} {s t : Shape} {g : Group} {model : CostModel}
  {a b : Bool}

/-! ## Lone groups -/

/-- The group is not stale. -/
def Fresh (m : Memo) (id : GroupId) : Prop := ∃ g : Group, m.groups[id]? = some g ∧ g.stale = false

/-- The shape is the representative of the group, and all other candidates have retired. -/
def Lone (m : Memo) (id : GroupId) (s : Shape) : Prop :=
  ∃ g : Group, m.groups[id]? = some g ∧ g.shape = s ∧ ∀ c ∈ g.live, c = s

theorem Lone.rep? (h : m.Lone id s) : m.rep? id = some s := by
  obtain ⟨g, hg, rfl, -⟩ := h
  exact rep?_of_group hg

theorem Lone.lt (h : m.Lone id s) : id < m.size := lt_of_candidate (candidate_of_rep? h.rep?)

/-- What is lone is told by the representative and by the candidates that have not retired. -/
theorem Lone.congr (h : m.Lone id s) (hrep : m'.rep? id = m.rep? id)
    (hstock : m'.stock? id = m.stock? id) : m'.Lone id s := by
  have hs := hrep.trans h.rep?
  obtain ⟨g, hg, -, hlive⟩ := h
  obtain ⟨g', hg', hshape⟩ := rep?_eq_some_iff.mp hs
  rw [stock?_of_group hg, stock?_of_group hg'] at hstock
  obtain ⟨hcandidates, hretired⟩ := Prod.mk.inj (Option.some.inj hstock)
  refine ⟨g', hg', hshape, fun c hc => hlive c ?_⟩
  rwa [Group.live, Group.numbered, hcandidates, hretired] at hc

theorem lone_of_forced (hg : m.groups[id]? = some g) (h : g.Forced) : m.Lone id g.shape := by
  refine ⟨g, hg, rfl, fun c hc => ?_⟩
  obtain ⟨pos, hpos, halive⟩ := Group.mem_live_iff.mp hc
  have hrep : pos = g.representative := by
    by_contra hne
    exact halive ((h pos).mpr ⟨(List.getElem?_eq_some_iff.mp hpos).1, hne⟩)
  subst hrep
  exact Option.some.inj (hpos.symm.trans g.getElem?_representative)

theorem lone_of_single {s : Shape} {parents : List GroupId}
    (hg : m.groups[id]? = some { Group.single id s with parents := parents }) : m.Lone id s :=
  ⟨_, hg, rfl, fun _ hc => by simpa [Group.live, Group.numbered, Group.single] using hc⟩

/-- A lone group has no other candidate to turn to. -/
theorem Lone.shape_eq (h : m.Lone id s) (hg : m.groups[id]? = some g) {pos : Nat} {c : Shape}
    (hpos : g.candidates[pos]? = some c) (halive : pos ∉ g.retired) : c = g.shape := by
  obtain ⟨g', hg', rfl, hlive⟩ := h
  obtain rfl : g = g' := Option.some.inj (hg.symm.trans hg')
  exact hlive c (Group.mem_live_iff.mpr ⟨pos, hpos, halive⟩)

/-! ## What a step leaves as it is -/

/-- A group has the representative it had, and the same candidates, and it has not become stale. -/
structure KeepsAt (m m' : Memo) (j : GroupId) : Prop where
  rep : m'.rep? j = m.rep? j
  stock : m'.stock? j = m.stock? j
  fresh : m.Fresh j → m'.Fresh j

/-- All groups are kept, and so is the index. -/
structure Keeps (m m' : Memo) : Prop where
  ext : m.Extends m'
  index : m'.index = m.index
  keeps : ∀ j, m.KeepsAt m' j

/-- A step at a group, answered as a change or not. -/
structure Leaves (m : Memo) (id : GroupId) (changed : Bool) (m' : Memo) : Prop where
  ext : m.Extends m'
  /-- The other groups keep their representatives. -/
  rep : ∀ {j}, j < m.size → j ≠ id → m'.rep? j = m.rep? j
  /-- The other groups keep their candidates. -/
  stock : ∀ {j}, j < m.size → j ≠ id → m'.stock? j = m.stock? j
  /-- Groups become stale by a change of the group that they lead to. -/
  fresh : ∀ {j}, m.Fresh j → m'.Fresh j ∨ j ≠ id ∧ changed = true ∧ m'.Leads j id

/-- Some groups have kept their representatives and their candidates. -/
def Undisturbed (js : List GroupId) (m m' : Memo) : Prop :=
  ∀ j ∈ js, j < m.size → m'.rep? j = m.rep? j ∧ m'.stock? j = m.stock? j

theorem Fresh.lt (h : m.Fresh id) : id < m.size := by
  obtain ⟨g, hg, -⟩ := h
  exact lt_size_iff.mpr ⟨g, hg⟩

theorem Keeps.refl (m : Memo) : m.Keeps m := ⟨.refl m, rfl, fun _ => ⟨rfl, rfl, fun h => h⟩⟩

theorem Keeps.trans (h : m.Keeps m₁) (h' : m₁.Keeps m') : m.Keeps m' :=
  ⟨h.ext.trans h'.ext, h'.index.trans h.index, fun j =>
    ⟨(h'.keeps j).rep.trans (h.keeps j).rep, (h'.keeps j).stock.trans (h.keeps j).stock,
      fun hj => (h'.keeps j).fresh ((h.keeps j).fresh hj)⟩⟩

theorem Keeps.leaves (h : m.Keeps m') (id : GroupId) : m.Leaves id false m' :=
  ⟨h.ext, fun _ _ => (h.keeps _).rep, fun _ _ => (h.keeps _).stock,
    fun hj => .inl ((h.keeps _).fresh hj)⟩

theorem Keeps.size (h : m.Keeps m') : m'.size = m.size := by
  refine Nat.le_antisymm ?_ h.ext.size_mono
  rw [← rep?_eq_none_iff, (h.keeps _).rep, rep?_eq_none_iff]

theorem Keeps.candidate (h : m.Keeps m') {c : Shape} (hc : m'.Candidate j c) : m.Candidate j c := by
  obtain ⟨g', hg', hmem⟩ := hc
  obtain ⟨g, hg, hcandidates⟩ := group_of_stock? (h.keeps j).stock hg'
  exact ⟨g, hg, hcandidates ▸ hmem⟩

theorem Leaves.trans (h : m.Leaves id a m₁) (h' : m₁.Leaves id b m') : m.Leaves id (a || b) m' where
  ext := h.ext.trans h'.ext
  rep hj hne := (h'.rep (h.ext.size_le hj) hne).trans (h.rep hj hne)
  stock hj hne := (h'.stock (h.ext.size_le hj) hne).trans (h.stock hj hne)
  fresh hj := by
    rcases h.fresh hj with hj | ⟨hne, rfl, hleads⟩
    · exact (h'.fresh hj).imp_right fun ⟨hne, hb, hleads⟩ => ⟨hne, by rw [hb, Bool.or_true], hleads⟩
    · exact .inr ⟨hne, Bool.true_or b, h'.ext.leads hleads⟩

/-- A group that does not lead to the group of the step is kept. -/
theorem Leaves.keepsAt (h : m.Leaves id b m') (hj : j < m.size) (hnot : ¬ m'.Leads j id) :
    m.KeepsAt m' j := by
  have hne : j ≠ id := fun heq => hnot (heq ▸ .refl)
  exact ⟨h.rep hj hne, h.stock hj hne, fun hfresh =>
    (h.fresh hfresh).resolve_right fun hstale => hnot hstale.2.2⟩

theorem Undisturbed.trans {js : List GroupId} (h : Undisturbed js m m₁) (h' : Undisturbed js m₁ m')
    (hext : m.Extends m₁) : Undisturbed js m m' := fun j hj hlt => by
  obtain ⟨hrep, hstock⟩ := h j hj hlt
  obtain ⟨hrep', hstock'⟩ := h' j hj (hext.size_le hlt)
  exact ⟨hrep'.trans hrep, hstock'.trans hstock⟩

theorem Keeps.undisturbed (h : m.Keeps m') (js : List GroupId) : Undisturbed js m m' :=
  fun j _ _ => ⟨(h.keeps j).rep, (h.keeps j).stock⟩

theorem Leaves.undisturbed {js : List GroupId} (h : m.Leaves id b m') (hid : id ∉ js) :
    Undisturbed js m m' := fun j hj hlt => by
  have hne : j ≠ id := fun heq => hid (heq ▸ hj)
  exact ⟨h.rep hlt hne, h.stock hlt hne⟩

/-! ### Notes and rankings -/

theorem keeps_edit {f : Group → Group} (hg : m.groups[id]? = some g) (hext : m.Extends (m.edit id f))
    (hshape : ∀ g, (f g).shape = g.shape) (hc : ∀ g, (f g).candidates = g.candidates)
    (hr : ∀ g, (f g).retired = g.retired) (hs : ∀ g, g.stale = false → (f g).stale = false) :
    m.Keeps (m.edit id f) := by
  refine ⟨hext, rfl, fun j => ⟨rep?_edit_of_shape (fun g _ => hshape g) j, stock?_edit hc hr, ?_⟩⟩
  rintro ⟨g', hg', hstale⟩
  by_cases heq : j = id
  · subst heq
    exact ⟨f g', groups_edit_self hg' f, hs g' hstale⟩
  · exact ⟨g', (groups_edit_ne heq f).trans hg', hstale⟩

theorem keeps_explore (hg : m.groups[id]? = some g) (key : RuleKey) :
    m.Keeps (m.edit id (·.explore key)) :=
  keeps_edit (f := (·.explore key)) hg (Explore.explore hg).extends (fun _ => rfl) (fun _ => rfl)
    (fun _ => rfl) fun _ h => h

/-- Ranking a group again changes nothing, if it is not stale or has no other candidate. -/
theorem Ranking.keeps {moved : Bool} (h : Ranking model id m (.ok moved) m') (hv : m.Valid)
    (hsettled : m.Fresh id ∨ ∃ s, m.Lone id s) : moved = false ∧ m.Keeps m' ∧ m'.Fresh id := by
  have hfresh := h.fresh
  cases h with
  | rested hat hstale => exact ⟨rfl, .refl m, hfresh⟩
  | kept hat =>
    have hsettle : m.Keeps (m.edit id Group.settle) :=
      keeps_edit (f := Group.settle) hat (Quiet.settle hat).extends (fun _ => rfl) (fun _ => rfl)
        (fun _ => rfl) fun _ _ => rfl
    exact ⟨rfl, hsettle, hfresh⟩
  | @moved g s pos hat hpos hne halive _ _ hstale =>
    rcases hsettled with ⟨g', hg', hfresh⟩ | ⟨s, hlone⟩
    · obtain rfl : g = g' := Option.some.inj (hat.symm.trans hg')
      rw [hstale] at hfresh
      cases hfresh
    · have hsame := hlone.shape_eq hat hpos halive
      exact absurd ((hv.group hat).eq_of_canon hpos g.getElem?_representative (by rw [hsame])) hne

/-! ### Offers -/

theorem Rests.fresh (h : m.Rests m') (hj : m.Fresh j) : m'.Fresh j := by
  obtain ⟨g, hg, hstale⟩ := hj
  obtain ⟨g', hg', hsteady⟩ := h.steady hg
  exact ⟨g', hg', Bool.eq_false_iff.mpr fun htrue => by cases (hsteady.stale htrue).symm.trans hstale⟩

theorem Grows.leaves (h : m.Grows m') (id : GroupId) : m.Leaves id false m' :=
  ⟨h.extends, fun hj _ => h.rests.rep? hj, fun hj _ => h.stock? hj, fun hj => .inl (h.rests.fresh hj)⟩

/-- Placing a shape is a step at its group. -/
theorem Placement.leaves {forced : Bool} {outcome : Outcome}
    (h : Placement model id s m forced (.ok outcome) m') (hv : m.Valid)
    (hlive : ∀ i ∈ s.inputs, i < m.size) (hapart : m.leadsTo s id = false) :
    m.Leaves id outcome.isChange m' where
  ext := (h.changes hv hlive hapart).moves.extends
  rep hj hne := (h.changes hv hlive hapart).rep?_of_ne hj hne
  stock _ hne := (h.stock? fun _ => hne).resolve_right fun hown => hne hown.1
  fresh {j} hj := by
    by_cases hturns : outcome = .newRepresentative
    · obtain ⟨g, hg, hstale⟩ := hj
      have hnone : ∀ i, False → i = id := fun _ hf => hf.elim
      rcases h.still_or_swung hv hlive hnone with hstill | hswung
      · obtain ⟨g', hg', -, -, hsame⟩ := hstill j g hg
        exact .inl ⟨g', hg', (hsame.resolve_right And.left).trans hstale⟩
      · by_cases heq : j = id
        · subst heq
          obtain ⟨g', hg', hsame⟩ := hswung.self hg
          exact .inl ⟨g', hg', (hsame.resolve_right And.left).trans hstale⟩
        · by_cases hleads : m'.Leads j id
          · exact .inr ⟨heq, hturns ▸ rfl, hleads⟩
          · obtain ⟨g', hg', -, hsame⟩ := hswung.apart hg hleads
            exact .inl ⟨g', hg', hsame.trans hstale⟩
    · exact .inl ((h.rests hlive fun heq => hturns (Except.ok.inj heq)).fresh hj)

/-- A placement adds the shape to the index, if it is not there yet. -/
theorem Placement.find?_index {forced : Bool} {r : Except Fault Outcome}
    (h : Placement model id s m forced r m') {k : Shape} (hk : k = s.canon → (m.home? s).isSome = true) :
    m'.index.find? k = m.index.find? k := by
  have hattach : (m.attach id s).index.find? k = m.index.find? k := by
    rw [find?_index_attach]
    split
    · next heq =>
      obtain ⟨i, hi⟩ := Option.isSome_iff_exists.mp (hk heq)
      rw [hi, heq]
      exact hi.symm
    · rfl
  cases h with
  | held => rfl
  | pinned => rfl
  | revived => rw [index_invalidate]; rfl
  | unranked => rfl
  | added => exact hattach
  | won => rw [index_invalidate]; exact hattach
  | imposed => rw [index_invalidate]; exact hattach

/-- A shape that is forced on a group with another representative wipes its notes. -/
theorem Placement.wiped {outcome : Outcome} (h : Placement model id s m true (.ok outcome) m')
    (hv : m.Valid) (hlive : ∀ i ∈ s.inputs, i < m.size) (hext : m.Extends m')
    (hg : m.groups[id]? = some g) (hne : g.shape.canon ≠ s.canon) :
    ∃ g', m'.groups[id]? = some g' ∧ g'.explored = [] := by
  obtain ⟨g', hg', -, hshape⟩ := h.holds
  refine ⟨g', hg', ?_⟩
  have hnone : ∀ i, False → i = id := fun _ hf => hf.elim
  rcases h.still_or_swung hv hlive hnone with hstill | hswung
  · obtain ⟨g₁, hg₁, hrep, -⟩ := hstill id g hg
    obtain rfl : g' = g₁ := Option.some.inj (hg'.symm.trans hg₁)
    have hsame := hext.rep? hg hg' hrep
    rw [rep?_of_group hg, rep?_of_group hg'] at hsame
    exact absurd (by rw [← Option.some.inj hsame, hshape rfl]) hne
  · exact (hswung.above hg' .refl).1

/-- A shape that is forced on a group is its representative, and the group is lone. -/
theorem Placement.lone {outcome : Outcome} (h : Placement model id s m true (.ok outcome) m') :
    ∃ t, m'.Lone id t ∧ t.canon = s.canon := by
  obtain ⟨g, hg, hforced⟩ := h.forced
  obtain ⟨g', hg', -, hshape⟩ := h.holds
  obtain rfl : g = g' := Option.some.inj (hg.symm.trans hg')
  exact ⟨g.shape, lone_of_forced hg hforced, hshape rfl⟩

/-- A shape that is offered as an alternative is the representative then, or that is what it was. -/
theorem Placement.alternative {outcome : Outcome} (h : Placement model id s m false (.ok outcome) m') :
    (m'.rep? id = m.rep? id ∨ m'.rep? id = some s) ∧ ∃ c, m'.Candidate id c ∧ c.canon = s.canon := by
  obtain ⟨g, hg, hholds, -⟩ := h.holds
  obtain ⟨c, hc, hcanon⟩ := Group.holds_iff.mp hholds
  refine ⟨?_, c, ⟨g, hg, hc⟩, hcanon⟩
  cases h with
  | held => exact .inl rfl
  | added => exact .inl (rep?_attach m id s id)
  | @won g₁ hat =>
    refine .inr ?_
    rw [rep?_invalidate, rep?_of_group (groups_edit_self (groups_attach_self hat s) _),
      Group.shape_promote (candidates_attach_last g₁ id s)]

/-! ## Groups below others -/

/-- A group never leads to a group that has a candidate over it. -/
theorem Graded.not_leads {G : Grading} (hG : m'.Graded G) (hext : m.Extends m') {i : GroupId}
    (h : m.Mentions id i) : ¬ m'.Leads i id := by
  obtain ⟨c, hc, hin⟩ := h
  exact fun hleads => ((hG.of_extends hext hc).rank_lt i hin).not_ge (hG.rank_le hleads)

/-- A step at a group keeps the groups below it. -/
theorem Leaves.keeps_below {G : Grading} (h : m.Leaves id b m') (hG : m'.Graded G) {i : GroupId}
    (hi : m.Mentions id i) (hj : m.Leads i j) (hlt : j < m.size) : m.KeepsAt m' j :=
  h.keepsAt hlt fun hback => hG.not_leads h.ext hi ((h.ext.leads hj).trans hback)

end Memo

end PlanOptimizer
