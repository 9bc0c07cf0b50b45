import PlanOptimizer.Proofs.Memo.Outcomes

/-!
# Forced replacements stick

A replacement retires all candidates of its group but one, and only another replacement of the
same group chooses anew which candidates are retired.  So the *stock* of a group, its candidates
together with the retired positions, tells how much of a replacement is left after a run:

* a call that forces nothing on a group keeps its stock or adds one candidate to it, and it adds
  one only if it answers so (`Call.stock?`);
* a candidate that was there keeps its position, a new one comes in behind it, and the
  representative is never retired, so it is the forced candidate or a new one
  (`Group.Forced.representative`).

A run is any calls one after the other, whatever model ranks plans in each of them, and calls that
fail count as well.
-/

namespace PlanOptimizer

open Relation

/-! ## Calls on a group -/

/-- Whether a call forces a plan on a group. -/
def Call.Forces (id : GroupId) : {α : Type} → Call α → Prop
  | _, .offer i (.replacement _) => i = id
  | _, _ => False

/-- Whether a call has answered that it has brought an alternative into a group. -/
def Call.Adds (id : GroupId) : {α : Type} → Call α → Except Fault α → Prop
  | _, .offer i (.alternative _), .ok o => i = id ∧ o.isChange = true
  | _, _, _ => False

namespace Memo

variable {m m' m₁ m₂ : Memo} {id j : GroupId} {s : Shape} {model : CostModel}

/-- A call that forces nothing on a group. -/
inductive Unforced (id : GroupId) (m : Memo) : Memo → Prop where
  | call {α : Type} (model : CostModel) (c : Call α) (h : ¬ c.Forces id) :
      Unforced id m ((c.edit model).runOn m).2

/-- A call that neither forces anything on a group nor brings an alternative into it. -/
inductive Untouched (id : GroupId) (m : Memo) : Memo → Prop where
  | call {α : Type} (model : CostModel) (c : Call α) (h : ¬ c.Forces id)
      (quiet : ¬ c.Adds id ((c.edit model).runOn m).1) :
      Untouched id m ((c.edit model).runOn m).2

theorem Untouched.unforced (h : Untouched id m m') : Unforced id m m' := by
  obtain ⟨model, c, h, -⟩ := h
  exact .call model c h

theorem Unforced.proceeds (h : Unforced id m m') : Proceeds m m' := by
  obtain ⟨model, c, -⟩ := h
  exact .call model c

/-! ## Stock -/

/-- The candidates of a group and the retired positions among them. -/
def stock? (m : Memo) (id : GroupId) : Option (List Shape × List Nat) :=
  (m.groups[id]?).map fun g => (g.candidates, g.retired)

theorem stock?_of_group {g : Group} (h : m.groups[id]? = some g) :
    m.stock? id = some (g.candidates, g.retired) := by
  rw [stock?, h]
  rfl

theorem group_of_stock? (h : m'.stock? j = m.stock? j) {g' : Group}
    (hg' : m'.groups[j]? = some g') :
    ∃ g, m.groups[j]? = some g ∧ g'.candidates = g.candidates := by
  rw [stock?_of_group hg'] at h
  obtain ⟨g, hg, hsame⟩ := Option.map_eq_some_iff.mp h.symm
  exact ⟨g, hg, (Prod.mk.inj hsame).1.symm⟩

theorem stock?_edit_ne (h : j ≠ id) (f : Group → Group) : (m.edit id f).stock? j = m.stock? j := by
  rw [stock?, stock?, groups_edit_ne h]

/-- A change of one group that keeps its candidates and the retired ones. -/
theorem stock?_edit {f : Group → Group} (hc : ∀ g, (f g).candidates = g.candidates)
    (hr : ∀ g, (f g).retired = g.retired) : (m.edit id f).stock? j = m.stock? j := by
  by_cases heq : j = id
  · subst heq
    cases hg : m.groups[j]? with
    | none => rw [stock?, stock?, groups_edit, hg]; rfl
    | some g => rw [stock?_of_group (groups_edit_self hg f), stock?_of_group hg, hc, hr]
  · exact stock?_edit_ne heq f

@[simp] theorem stock?_invalidate (m : Memo) (id j : GroupId) :
    (m.invalidate id).stock? j = m.stock? j := by
  rw [stock?, stock?, groups_invalidate, Option.map_map]
  congr 1
  funext g
  exact Prod.ext Group.candidates_reopen Group.retired_reopen

theorem stock?_attach_ne (h : j ≠ id) (s : Shape) : (m.attach id s).stock? j = m.stock? j := by
  rw [stock?, stock?, groups_attach_ne h, Option.map_map]
  rfl

theorem stock?_attach_self (m : Memo) (id : GroupId) (s : Shape) :
    (m.attach id s).stock? id = (m.stock? id).map fun x => (x.1 ++ [s], x.2) := by
  cases hg : m.groups[id]? with
  | none => rw [stock?, stock?, groups_attach, hg]; rfl
  | some g => rw [stock?_of_group (groups_attach_self hg s), stock?_of_group hg]; rfl

/-- New groups leave the stock of the others. -/
theorem Grows.stock? (h : m.Grows m') (hid : id < m.size) : m'.stock? id = m.stock? id := by
  obtain ⟨g, hg⟩ := lt_size_iff.mp hid
  obtain ⟨parents, hg', -⟩ := h.group_of_lt hg
  rw [stock?_of_group hg', stock?_of_group hg]

/-! ### What calls do to it -/

/-- The stock of a group has got one more candidate. -/
def Stocked (m : Memo) (id : GroupId) (m' : Memo) : Prop :=
  ∃ s, m'.stock? id = (m.stock? id).map fun x => (x.1 ++ [s], x.2)

/-- Placing a shape leaves the stock of every other group, and of its own unless the shape is
forced or comes in. -/
theorem Placement.stock? {forced : Bool} {r : Except Fault Outcome}
    (h : Placement model id s m forced r m') (hforced : forced = true → j ≠ id) :
    m'.stock? j = m.stock? j ∨
      j = id ∧ (∃ o : Outcome, r = .ok o ∧ o.isChange = true) ∧ m.Stocked id m' := by
  cases h with
  | held => exact .inl rfl
  | unranked => exact .inl rfl
  | pinned => exact .inl (stock?_edit_ne (hforced rfl) _)
  | revived => exact .inl ((stock?_invalidate _ _ _).trans (stock?_edit_ne (hforced rfl) _))
  | @added g hat =>
    by_cases heq : j = id
    · exact .inr ⟨heq, ⟨.added, rfl, rfl⟩, s, stock?_attach_self m id s⟩
    · exact .inl (stock?_attach_ne heq s)
  | @won g hat =>
    have hpromote : ∀ i, (((m.attach id s).edit id (·.promote g.candidates.length)).invalidate id).stock? i
        = (m.attach id s).stock? i := fun i => by
      rw [stock?_invalidate, stock?_edit (fun g => g.candidates_promote _) fun g => g.retired_promote _]
    by_cases heq : j = id
    · exact .inr ⟨heq, ⟨.newRepresentative, rfl, rfl⟩, s,
        (hpromote id).trans (stock?_attach_self m id s)⟩
    · exact .inl ((hpromote j).trans (stock?_attach_ne heq s))
  | imposed =>
    refine .inl ?_
    rw [stock?_invalidate, Memo.force, stock?_edit_ne (hforced rfl), stock?_attach_ne (hforced rfl)]

theorem Offering.stock? {o : Offer} {r : Except Fault Outcome} (h : Offering model id o m r m')
    (hforced : o.forced = true → j ≠ id) (hj : j < m.size) :
    m'.stock? j = m.stock? j ∨
      j = id ∧ (∃ o : Outcome, r = .ok o ∧ o.isChange = true) ∧ m.Stocked id m' := by
  cases h with
  | unknown => exact .inl rfl
  | itself => exact .inl rfl
  | dangling hgrows => exact .inl (hgrows.stock? hj)
  | refused hgrows => exact .inl (hgrows.stock? hj)
  | placed hgrows _ _ hplacement =>
    rcases hplacement.stock? hforced with hsame | ⟨rfl, hanswer, s, hmore⟩
    · exact .inl (hsame.trans (hgrows.stock? hj))
    · exact .inr ⟨rfl, hanswer, s, by rw [hmore, hgrows.stock? hj]⟩

/-- A ranking only chooses among the candidates that are alive. -/
theorem Ranking.stock? {r : Except Fault Bool} (h : Ranking model id m r m') :
    m'.stock? j = m.stock? j := by
  cases h with
  | unknown => rfl
  | rested => rfl
  | failed => rfl
  | kept => exact stock?_edit (fun _ => rfl) fun _ => rfl
  | moved =>
    rw [stock?_invalidate, stock?_edit (fun g => g.candidates_promote _) fun g => g.retired_promote _]
    exact stock?_edit (f := Group.settle) (fun _ => rfl) fun _ => rfl

end Memo

/-- A call that forces nothing on a group keeps its stock, or brings an alternative into it and
answers so. -/
theorem Call.stock? {α : Type} (model : CostModel) (c : Call α) {m : Memo} {id : GroupId}
    (hv : m.Valid) (hid : id < m.size) (hc : ¬ c.Forces id) :
    ((c.edit model).runOn m).2.stock? id = m.stock? id ∨
      c.Adds id ((c.edit model).runOn m).1 ∧ m.Stocked id ((c.edit model).runOn m).2 := by
  cases c with
  | insert p =>
    obtain ⟨m', hgrows, ⟨i, hrun, -⟩ | ⟨i, hrun⟩⟩ := Memo.insert_cases p hv
    · simpa only [Call.edit, hrun] using .inl (hgrows.stock? hid)
    · simpa only [Call.edit, hrun] using .inl (hgrows.stock? hid)
  | offer i o =>
    obtain ⟨r, m', hrun, hoffering⟩ := Memo.offer_cases hv model i o
    simp only [Call.edit, hrun]
    have hforced : o.forced = true → id ≠ i := by
      rintro hforced rfl
      cases o with
      | alternative p => cases hforced
      | replacement p => exact hc rfl
    rcases hoffering.stock? hforced hid with hsame | ⟨rfl, ⟨answer, rfl, hchange⟩, hmore⟩
    · exact .inl hsame
    · cases o with
      | alternative p => exact .inr ⟨⟨rfl, hchange⟩, hmore⟩
      | replacement p => exact absurd rfl hc
  | rerank i =>
    obtain ⟨r, m', hrun, hranking⟩ := Memo.rerank_cases model i m
    simpa only [Call.edit, hrun] using .inl hranking.stock?
  | markExplored i key =>
    left
    cases hg : m.groups[i]? with
    | none => rw [Call.edit, Memo.runOn_markExplored_of_unknown hg]
    | some g =>
      rw [Call.edit, Memo.runOn_markExplored_of_group hg]
      exact Memo.stock?_edit (f := fun g => g.explore key) (fun _ => rfl) fun _ => rfl

/-! ## Runs -/

/-- A group later on, with the same positions retired. -/
structure Group.Upholds (g g' : Group) : Prop where
  /-- Candidates come in behind the others. -/
  candidates : g.candidates <+: g'.candidates
  /-- None retires, and none comes back. -/
  retired : g'.retired = g.retired

/-- All candidates of a group are retired but for its representative. -/
def Group.Forced (g : Group) : Prop :=
  ∀ pos, pos ∈ g.retired ↔ pos < g.candidates.length ∧ pos ≠ g.representative

theorem Group.forced_pin {g : Group} {pos : Nat} (h : pos < g.candidates.length) :
    (g.pin pos).Forced := fun x => by
  rw [mem_retired_pin h, candidates_pin, representative_pin h]

theorem Group.forced_reopen {g : Group} (h : g.Forced) (above : List GroupId) (changed id : GroupId) :
    (g.reopen above changed id).Forced := fun x => by
  rw [retired_reopen, candidates_reopen, representative_reopen]
  exact h x

section Later

variable {g g' : Group}

/-- The representative stays, or one that has come in takes its place. -/
theorem Group.Forced.representative (h : g.Forced) (h' : g.Upholds g') (hv : g'.Valid) :
    g'.representative = g.representative ∨ g.candidates.length ≤ g'.representative := by
  by_contra! hnot
  exact hv.alive (h'.retired ▸ (h _).mpr ⟨hnot.2, hnot.1⟩)

theorem Group.Upholds.getElem? (h : g.Upholds g') {pos : Nat} {c : Shape}
    (hc : g.candidates[pos]? = some c) : g'.candidates[pos]? = some c := by
  obtain ⟨cs, hcs⟩ := h.candidates
  rw [← hcs, List.getElem?_append_left (List.getElem?_eq_some_iff.mp hc).1, hc]

theorem Group.Upholds.shape_eq (h : g.Upholds g') (hrep : g'.representative = g.representative) :
    g'.shape = g.shape :=
  shape_eq_of_getElem? (hrep ▸ h.getElem? g.getElem?_representative)

/-- No candidate that was there but the forced one is the representative later on. -/
theorem Group.Forced.shape_ne (h : g.Forced) (h' : g.Upholds g') (hv : g'.Valid) {c : Shape}
    (hc : c ∈ g.candidates) (hne : c ≠ g.shape) : g'.shape.canon ≠ c.canon := by
  obtain ⟨pos, hpos⟩ := List.mem_iff_getElem?.mp hc
  intro heq
  have hsame : g'.representative = pos :=
    hv.eq_of_canon g'.getElem?_representative (h'.getElem? hpos) heq
  rcases h.representative h' hv with hrep | hle
  · refine hne (Option.some.inj (hpos.symm.trans ?_))
    rw [← hsame, hrep, g.getElem?_representative]
  · exact absurd (hsame ▸ (List.getElem?_eq_some_iff.mp hpos).1) (Nat.not_lt.mpr hle)

end Later

namespace Memo

variable {m m' m₁ m₂ : Memo} {id : GroupId} {s : Shape} {model : CostModel} {g : Group}

theorem later_of_unforced (h : ReflTransGen (Unforced id) m m') : m.Later m' :=
  ReflTransGen.mono (fun _ _ => Unforced.proceeds) _ _ h

/-- After calls that force nothing on a group the same positions are retired. -/
theorem upholds_of_unforced (hm : m.Reachable) (hg : m.groups[id]? = some g)
    (h : ReflTransGen (Unforced id) m m') : ∃ g', m'.groups[id]? = some g' ∧ g.Upholds g' := by
  induction h with
  | refl => exact ⟨g, hg, List.prefix_refl _, rfl⟩
  | @tail m₁ m₂ hfirst hlast ih =>
    obtain ⟨g₁, hg₁, hcandidates, hretired⟩ := ih
    have hv₁ := ((later_of_unforced hfirst).reachable hm).valid
    obtain ⟨model, c, hc⟩ := hlast
    have hid : id < m₁.size := lt_size_iff.mpr ⟨g₁, hg₁⟩
    obtain ⟨g₂, hg₂, hext⟩ := (c.moves model hv₁).extends.group hg₁
    refine ⟨g₂, hg₂, hcandidates.trans hext.candidates, ?_⟩
    rcases c.stock? model hv₁ hid hc with hsame | ⟨-, s, hmore⟩
    · rw [stock?_of_group hg₂, stock?_of_group hg₁] at hsame
      exact (Prod.mk.inj (Option.some.inj hsame)).2.trans hretired
    · rw [stock?_of_group hg₂, stock?_of_group hg₁] at hmore
      exact (Prod.mk.inj (Option.some.inj hmore)).2.trans hretired

/-- After calls that bring nothing into a group it has the candidates that it had. -/
theorem stock?_of_untouched (hm : m.Reachable) (hid : id < m.size)
    (h : ReflTransGen (Untouched id) m m') : m'.stock? id = m.stock? id := by
  induction h with
  | refl => rfl
  | @tail m₁ m₂ hfirst hlast ih =>
    have hlater : m.Later m₁ := later_of_unforced (ReflTransGen.mono (fun _ _ => Untouched.unforced) _ _ hfirst)
    have hv₁ := (hlater.reachable hm).valid
    obtain ⟨model, c, hc, hquiet⟩ := hlast
    rcases c.stock? model hv₁ ((hlater.extends hm).size_le hid) hc with hsame | ⟨hadds, -⟩
    · exact hsame.trans ih
    · exact absurd hadds hquiet

/-! ## Replacements -/

/-- A placed replacement is forced. -/
theorem Placement.forced {o : Outcome} (h : Placement model id s m true (.ok o) m') :
    ∃ g', m'.groups[id]? = some g' ∧ g'.Forced := by
  cases h with
  | @pinned g hat => exact ⟨_, groups_edit_self hat _, Group.forced_pin g.representative_lt⟩
  | @revived g pos hat hpos =>
    obtain ⟨c, hc, -⟩ := candidate_of_position? hpos
    exact ⟨_, groups_invalidate_self (groups_edit_self hat _),
      Group.forced_reopen (Group.forced_pin (List.getElem?_eq_some_iff.mp hc).1) _ _ _⟩
  | @imposed g hat =>
    have hlt := (List.getElem?_eq_some_iff.mp (candidates_attach_last g id s)).1
    exact ⟨_, groups_invalidate_self (groups_edit_self (groups_attach_self hat s) _),
      Group.forced_reopen (Group.forced_pin hlt) _ _ _⟩

/-- A replacement that is answered has made its shape the only candidate that is not retired,
also if the shape was the representative already. -/
theorem forced_of_offer (hm : m.Reachable) {p : Plan} {outcome : Outcome} (hp : p ≠ .group id)
    (hrun : (offer model id (.replacement p)).runOn m = (.ok outcome, m₁)) :
    ∃ g s, m₁.groups[id]? = some g ∧ g.Forced ∧ m.Offers p m₁ s ∧ g.shape.canon = s.canon := by
  have hv := hm.valid
  obtain ⟨r, m₂, hrun₂, hoffering⟩ := offer_cases hv model id (.replacement p)
  cases hrun₂.symm.trans hrun
  cases hoffering with
  | itself h => exact absurd h hp
  | @placed s _ mid _ hgrows hs hvet hplacement hoffered =>
    obtain ⟨g, hg, hforced⟩ := hplacement.forced
    obtain ⟨g', hg', -, hshape⟩ := hplacement.holds
    obtain rfl : g = g' := Option.some.inj (hg.symm.trans hg')
    have hvmid := hgrows.valid hv
    have hchanges := hplacement.changes hvmid (hvmid.live_normal? hs) (leadsTo_of_vet hvet)
    have hoffers := offers_of_offered hs hoffered hchanges.moves.extends fun hj hne =>
      hchanges.rep?_of_ne hj hne
    exact ⟨g, s, hg, hforced, hoffers, hshape rfl⟩

/-- **A forced replacement sticks.**  When a group of a reachable memo has answered a replacement
by a plan other than a reference to itself, its representative is the shape that the plan comes
down to.  After any later calls that force nothing on the group, its candidates are still in
their places and the representative is that shape or one that has come in since, never another of
the candidates that were there.  If no alternative has come in either, the candidates and the
representative are what they were. -/
theorem Reachable.sticks_of_replacement (hm : m.Reachable) {p : Plan} {outcome : Outcome}
    (hp : p ≠ .group id)
    (hrun : (offer model id (.replacement p)).runOn m = (.ok outcome, m₁)) :
    ∃ g s, m₁.groups[id]? = some g ∧ m.Offers p m₁ s ∧ g.shape.canon = s.canon ∧
      (∀ m₂, ReflTransGen (Unforced id) m₁ m₂ → ∃ g₂, m₂.groups[id]? = some g₂ ∧
        g.candidates <+: g₂.candidates ∧
        (g₂.representative = g.representative ∧ g₂.shape = g.shape
          ∨ g.candidates.length ≤ g₂.representative) ∧
        ∀ c ∈ g.candidates, c ≠ g.shape → g₂.shape.canon ≠ c.canon) ∧
      ∀ m₂, ReflTransGen (Untouched id) m₁ m₂ → ∃ g₂, m₂.groups[id]? = some g₂ ∧
        g₂.candidates = g.candidates ∧ g₂.representative = g.representative ∧
        g₂.shape = g.shape := by
  obtain ⟨g, s, hg, hforced, hoffers, hshape⟩ := forced_of_offer hm hp hrun
  have hm₁ := hm.of_offer hrun
  have hstays : ∀ m₂, ReflTransGen (Unforced id) m₁ m₂ → ∃ g₂, m₂.groups[id]? = some g₂ ∧
      g.Upholds g₂ ∧ g₂.Valid := fun m₂ hlater => by
    obtain ⟨g₂, hg₂, hupholds⟩ := upholds_of_unforced hm₁ hg hlater
    exact ⟨g₂, hg₂, hupholds, ((later_of_unforced hlater).reachable hm₁).valid.group hg₂⟩
  refine ⟨g, s, hg, hoffers, hshape, fun m₂ hlater => ?_, fun m₂ hlater => ?_⟩
  · obtain ⟨g₂, hg₂, hupholds, hv₂⟩ := hstays m₂ hlater
    refine ⟨g₂, hg₂, hupholds.candidates, ?_, fun c hc hne => hforced.shape_ne hupholds hv₂ hc hne⟩
    exact (hforced.representative hupholds hv₂).imp_left fun hrep => ⟨hrep, hupholds.shape_eq hrep⟩
  · obtain ⟨g₂, hg₂, hupholds, hv₂⟩ :=
      hstays m₂ (ReflTransGen.mono (fun _ _ => Untouched.unforced) _ _ hlater)
    have hstock := stock?_of_untouched hm₁ (lt_size_iff.mpr ⟨g, hg⟩) hlater
    rw [stock?_of_group hg₂, stock?_of_group hg] at hstock
    have hcandidates : g₂.candidates = g.candidates := (Prod.mk.inj (Option.some.inj hstock)).1
    have hrep : g₂.representative = g.representative := by
      refine (hforced.representative hupholds hv₂).resolve_right (Nat.not_le.mpr ?_)
      exact hcandidates ▸ g₂.representative_lt
    exact ⟨g₂, hg₂, hcandidates, hrep, hupholds.shape_eq hrep⟩

section Contending

private def contending : Edit Outcome := do
  let id ← (Call.insert (.limit 0 5 (.scanAll "s" "t"))).edit .indifferent
  (Call.offer id (.alternative (.limit 0 7 (.scanAll "s" "t")))).edit .indifferent

/-- Group `1` holds two limits over the scan in group `0`, the first of them on top. -/
private def contended : Memo := (contending.runOn .empty).2

private def forcing : Call Outcome := .offer 1 (.replacement (.limit 0 7 (.scanAll "s" "t")))

private def forcedLimit : Memo := ((forcing.edit .indifferent).runOn contended).2

private def unsettling : Call Outcome := .offer 0 (.replacement (.scanAll "s" "u"))

private def unsettled : Memo := ((unsettling.edit .indifferent).runOn forcedLimit).2

private def retrying : Call Outcome := .offer 1 (.alternative (.limit 0 5 (.group 0)))

private def retried : Memo := ((retrying.edit .indifferent).runOn unsettled).2

private def ranking : Call Bool := .rerank 1

private def ranked : Memo := ((ranking.edit .indifferent).runOn retried).2

/-- The second limit is forced.  Then another scan makes the group stale, the first limit is
offered again, and the group is ranked by a model that would take the first of two equals. -/
theorem sticks_of_forced_limit :
    contended.Reachable ∧ Plan.limit 0 7 (.scanAll "s" "t") ≠ .group 1 ∧
      ((forcing.edit .indifferent).runOn contended).1 = .ok .newRepresentative ∧
      ReflTransGen (Untouched 1) forcedLimit ranked ∧
      (retried.groups[1]?).map Group.stale = some true ∧
      (forcedLimit.groups[1]?).map Group.representative = some 1 ∧
      (ranked.groups[1]?).map Group.representative = some 1 := by
  have hscript : contending.Scripted := .bind (.call _ _) fun _ => .call _ _
  have hreach : contended.Reachable := hscript.reachable .empty
  have hforced : ((forcing.edit .indifferent).runOn contended).1 = .ok .newRepresentative := by
    decide +kernel
  have hretried : ((retrying.edit .indifferent).runOn unsettled).1 = .ok .duplicate := by
    decide +kernel
  have hrun : ReflTransGen (Untouched 1) forcedLimit ranked := by
    have hunsettle : Untouched 1 forcedLimit unsettled :=
      .call .indifferent unsettling (by simp [unsettling, Call.Forces]) fun h => h.elim
    have hretry : Untouched 1 unsettled retried := by
      refine .call .indifferent retrying (fun h => h.elim) fun h => ?_
      rw [hretried] at h
      exact nomatch h.2
    have hrank : Untouched 1 retried ranked :=
      .call .indifferent ranking (fun h => h.elim) fun h => h.elim
    exact .tail (.tail (.single hunsettle) hretry) hrank
  have hbefore : (forcedLimit.groups[1]?).map Group.representative = some 1 := by decide +kernel
  refine ⟨hreach, nofun, hforced, hrun, by decide +kernel, hbefore, ?_⟩
  obtain ⟨g, s, hg, -, -, -, hquiet⟩ :=
    hreach.sticks_of_replacement (p := .limit 0 7 (.scanAll "s" "t")) nofun (Prod.ext hforced rfl)
  obtain ⟨g₂, hg₂, -, hrep, -⟩ := hquiet ranked hrun
  rw [hg₂, Option.map_some, hrep]
  exact (congrArg (Option.map Group.representative) hg).symm.trans hbefore

end Contending

end Memo

end PlanOptimizer
