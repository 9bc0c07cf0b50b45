import PlanOptimizer.Memo.Offer
import PlanOptimizer.Proofs.Except
import PlanOptimizer.Proofs.Memo.Insertion

/-!
# Offers and ranking

What an offer and a new ranking answer, and what memo they leave, one case for each
way they can go.  `Memo.Placement` is about a vetted shape, `Memo.Offering` about a
whole offer, and `Memo.Ranking` about a new ranking.

From the cases follows which moves are made.  An operation turns no group but the one
it is about (`changes`), and none at all unless the answer says so (`rests`).
-/

namespace PlanOptimizer

open Relation

/-- The canonical form of an operator has the same inputs. -/
@[simp] theorem Node.inputs_canon {α : Type} (n : Node α) : n.canon.inputs = n.inputs := by
  cases n <;> rfl

theorem Node.inputs_eq_of_canon {α : Type} {n n' : Node α} (h : n.canon = n'.canon) :
    n.inputs = n'.inputs := by
  rw [← inputs_canon n, h, inputs_canon]

namespace Memo

variable {model : CostModel} {m m' : Memo} {id : GroupId} {s : Shape}

/-! ## What is offered -/

/-- A reference to the group itself comes down to nothing. -/
theorem runOn_offered_itself (m : Memo) (id : GroupId) :
    (offered id (.group id)).runOn m = (.ok none, m) := by
  show (if id = id then pure none else some <$> Edit.ask (·.shape id) : Edit (Option Shape)).runOn m = _
  rw [if_pos rfl, Edit.runOn_pure]

/-- A reference to another group comes down to the representative of that group. -/
theorem runOn_offered_group {other : GroupId} (hne : other ≠ id) (m : Memo) :
    (offered id (.group other)).runOn m = ((m.shape other).map some, m) := by
  show (if other = id then pure none else some <$> Edit.ask (·.shape other) :
    Edit (Option Shape)).runOn m = _
  rw [if_neg hne, Edit.runOn_map, Edit.runOn_ask]

/-- An operator over one input comes down to the operator over the group of the input. -/
theorem runOn_offered_unary {op : Unary} {a : Plan} {y : GroupId}
    (h : (Memo.insert a).runOn m = (.ok y, m')) :
    (offered id (.unary op a)).runOn m = (.ok (some (.unary op y)), m') := by
  show (some <$> (Memo.insert a >>= fun x => pure (Node.unary op x))).runOn m = _
  rw [Edit.runOn_map, Edit.runOn_bind_of_ok h]
  rfl

/-- What an offered plan comes down to.  Only a reference to the group itself comes down
to nothing. -/
theorem offered_cases (hv : m.Valid) (id : GroupId) (p : Plan) :
    (p = .group id ∧ (offered id p).runOn m = (.ok none, m)) ∨
      ∃ m', m.Grows m' ∧
        ((∃ s, (offered id p).runOn m = (.ok (some s), m') ∧ m'.normal? p = some s) ∨
          ∃ i, (offered id p).runOn m = (.error (.unknownGroup i), m')) := by
  have hinputs : ∀ n : Node Plan, ∃ m', m.Grows m' ∧
      ((∃ s, (some <$> insertInputs n).runOn m = (.ok (some s), m') ∧ m'.over? n = some s) ∨
        ∃ i, (some <$> insertInputs n).runOn m = (.error (.unknownGroup i), m')) := by
    intro n
    obtain ⟨m', hgrows, ⟨s, hrun, hs⟩ | ⟨i, hrun⟩⟩ := insertInputs_cases n hv
    · refine ⟨m', hgrows, .inl ⟨s, ?_, hs⟩⟩
      rw [Edit.runOn_map, hrun]
      rfl
    · refine ⟨m', hgrows, .inr ⟨i, ?_⟩⟩
      rw [Edit.runOn_map, hrun]
      rfl
  cases p with
  | scan op => exact .inr (hinputs (.scan op))
  | unary op a => exact .inr (hinputs (.unary op a))
  | join j a b => exact .inr (hinputs (.join j a b))
  | group other =>
    by_cases heq : other = id
    · subst heq
      exact .inl ⟨rfl, runOn_offered_itself m other⟩
    · refine .inr ⟨m, .refl, ?_⟩
      rw [runOn_offered_group heq]
      cases hg : m.groups[other]? with
      | some g =>
        rw [shape_of_rep (rep?_of_group hg)]
        exact .inl ⟨g.shape, rfl, rep?_of_group hg⟩
      | none =>
        rw [shape_of_unknown hg]
        exact .inr ⟨other, rfl⟩

/-- A vetted shape does not lead back to the group. -/
theorem leadsTo_of_vet (h : m.vet id s = .ok ()) : m.leadsTo s id = false := by
  cases hlead : m.leadsTo s id with
  | false => rfl
  | true =>
    unfold vet at h
    rw [hlead, if_pos rfl] at h
    cases h

/-! ## Placing a vetted shape -/

/-- What becomes of a vetted shape that is placed in a group, and the memo it leaves. -/
inductive Placement (model : CostModel) (id : GroupId) (s : Shape) (m : Memo) :
    Bool → Except Fault Outcome → Memo → Prop where
  /-- The group holds it. -/
  | held {g : Group} {pos : Nat} (at_id : m.groups[id]? = some g) (at_pos : g.position? s = some pos) :
      Placement model id s m false (.ok .duplicate) m
  /-- It is the representative already. -/
  | pinned {g : Group} (at_id : m.groups[id]? = some g)
      (at_pos : g.position? s = some g.representative) :
      Placement model id s m true (.ok .duplicate) (m.force id g.representative)
  /-- The group holds it, and it becomes the representative again. -/
  | revived {g : Group} {pos : Nat} (at_id : m.groups[id]? = some g)
      (at_pos : g.position? s = some pos) (ne : pos ≠ g.representative) :
      Placement model id s m true (.ok .newRepresentative) ((m.force id pos).invalidate id)
  /-- It cannot be ranked. -/
  | unranked {g : Group} {f : Fault} (at_id : m.groups[id]? = some g)
      (fault : m.prefers model id s = .error f) : Placement model id s m false (.error f) m
  /-- It comes in beside the representative. -/
  | added {g : Group} (at_id : m.groups[id]? = some g) (fresh : g.position? s = none)
      (beaten : m.prefers model id s = .ok false) :
      Placement model id s m false (.ok .added) (m.attach id s)
  /-- It comes in and is preferred to the representative. -/
  | won {g : Group} (at_id : m.groups[id]? = some g) (fresh : g.position? s = none)
      (preferred : m.prefers model id s = .ok true) :
      Placement model id s m false (.ok .newRepresentative)
        (((m.attach id s).edit id (·.promote g.candidates.length)).invalidate id)
  /-- It comes in and is the representative. -/
  | imposed {g : Group} (at_id : m.groups[id]? = some g) (fresh : g.position? s = none) :
      Placement model id s m true (.ok .newRepresentative)
        (((m.attach id s).force id g.candidates.length).invalidate id)

theorem place_cases (model : CostModel) (s : Shape) (forced : Bool) (hid : id < m.size) :
    ∃ r m', (place model id s forced).runOn m = (r, m') ∧ Placement model id s m forced r m' := by
  obtain ⟨g, hg⟩ := lt_size_iff.mp hid
  unfold place
  rw [Edit.runOn_get_bind, Edit.runOn_ask_bind, group_eq_ok_iff.mpr hg]
  dsimp only
  cases hpos : g.position? s with
  | some pos =>
    cases forced with
    | false => exact ⟨_, _, rfl, .held hg hpos⟩
    | true =>
      by_cases hrep : pos = g.representative
      · subst hrep
        simp only [if_true]
        exact ⟨_, _, rfl, .pinned hg hpos⟩
      · simp only [if_true, hrep, if_false]
        exact ⟨_, _, rfl, .revived hg hpos hrep⟩
  | none =>
    cases forced with
    | false =>
      show ∃ r m', (Edit.ask (·.prefers model id s) >>= _).runOn m = (r, m') ∧ _
      rw [Edit.runOn_ask_bind]
      cases hprefers : m.prefers model id s with
      | error f => exact ⟨_, _, rfl, .unranked hg hprefers⟩
      | ok wins =>
        cases wins with
        | true => exact ⟨_, _, rfl, .won hg hpos hprefers⟩
        | false => exact ⟨_, _, rfl, .added hg hpos hprefers⟩
    | true => exact ⟨_, _, rfl, .imposed hg hpos⟩

/-- A position that is found is that of a candidate that is the same. -/
theorem candidate_of_position? {g : Group} {pos : Nat} (h : g.position? s = some pos) :
    ∃ c, g.candidates[pos]? = some c ∧ c.canon = s.canon := by
  obtain ⟨hlt, hsame, -⟩ := List.findIdx?_eq_some_iff_getElem.mp h
  exact ⟨_, List.getElem?_eq_getElem hlt, (Node.same_iff.mp hsame).symm⟩

/-- Where a shape leads is told by the groups under it and by the representatives. -/
theorem leadsTo_congr {c : Shape} (hc : c.inputs = s.inputs)
    (hrep : ∀ j, m'.rep? j = m.rep? j) (hsize : m'.size = m.size) :
    m'.leadsTo c id = m.leadsTo s id := by
  have hchildren : m'.children = m.children := funext fun j => children_congr (hrep j)
  unfold leadsTo ids
  rw [hc, hchildren, hsize]

/-- The group after a candidate has come in holds it in the last place. -/
theorem candidates_attach_last (g : Group) (id : GroupId) (s : Shape) :
    ((g.adopt id s id).push s).candidates[g.candidates.length]? = some s := by
  show (g.candidates ++ [s])[g.candidates.length]? = some s
  rw [List.getElem?_append_right (Nat.le_refl _), Nat.sub_self]
  rfl

namespace Placement

variable {forced : Bool} {r : Except Fault Outcome}

/-- A placement creates no group. -/
theorem size (h : Placement model id s m forced r m') : m'.size = m.size := by
  cases h <;> simp [force, size_attach, size_invalidate]

/-- Placing a shape turns no group unless the answer says so. -/
theorem rests (h : Placement model id s m forced r m') (hlive : ∀ i ∈ s.inputs, i < m.size)
    (hr : r ≠ .ok .newRepresentative) : m.Rests m' := by
  cases h with
  | held => exact .refl
  | pinned hat => exact .single (.pin hat)
  | unranked => exact .refl
  | added hat hfresh => exact .single (.attach hat hlive hfresh)
  | revived => exact absurd rfl hr
  | won => exact absurd rfl hr
  | imposed => exact absurd rfl hr

/-- Placing a shape turns no group but its own. -/
theorem changes (h : Placement model id s m forced r m') (hv : m.Valid)
    (hlive : ∀ i ∈ s.inputs, i < m.size) (hapart : m.leadsTo s id = false) : Changes id m m' := by
  have hafter : (m.attach id s).leadsTo s id = false := by
    rw [leadsTo_congr rfl (rep?_attach m id s) (size_attach m id s)]
    exact hapart
  cases h with
  | held => exact .rests .refl
  | pinned hat => exact .rests (.single (.pin hat))
  | unranked => exact .rests .refl
  | added hat hfresh => exact .rests (.single (.attach hat hlive hfresh))
  | @revived g pos hat hpos hne =>
    obtain ⟨c, hc, hcanon⟩ := candidate_of_position? hpos
    refine .turns .refl (.force hat hc hne ?_)
    rw [leadsTo_congr (Node.inputs_eq_of_canon hcanon) (fun _ => rfl) rfl]
    exact hapart
  | @won g hat hfresh =>
    refine .turns (.single (.attach hat hlive hfresh)) ?_
    refine .promote (groups_attach_self hat s) (candidates_attach_last g id s) ?_ ?_ hafter
    · exact Nat.ne_of_gt g.representative_lt
    · intro hretired
      exact Nat.lt_irrefl _ ((hv.group hat).retired_lt _ hretired)
  | @imposed g hat hfresh =>
    refine .turns (.single (.attach hat hlive hfresh)) ?_
    refine .force (groups_attach_self hat s) (candidates_attach_last g id s) ?_ hafter
    exact Nat.ne_of_gt g.representative_lt

/-- A shape that is placed is held by its group, and a forced one is the
representative. -/
theorem holds {o : Outcome} (h : Placement model id s m forced (.ok o) m') :
    ∃ g', m'.groups[id]? = some g' ∧ g'.holds s = true ∧
      (forced = true → g'.shape.canon = s.canon) := by
  cases h with
  | @held g pos hat hpos =>
    obtain ⟨c, hc, hcanon⟩ := candidate_of_position? hpos
    exact ⟨g, hat, Group.holds_iff.mpr ⟨c, List.mem_of_getElem? hc, hcanon⟩, fun hf => nomatch hf⟩
  | @pinned g hat hpos =>
    obtain ⟨c, hc, hcanon⟩ := candidate_of_position? hpos
    refine ⟨g.pin g.representative, groups_edit_self hat _, ?_, fun _ => ?_⟩
    · rw [Group.holds_iff, Group.candidates_pin]
      exact ⟨c, List.mem_of_getElem? hc, hcanon⟩
    · rw [Group.shape_pin hc]
      exact hcanon
  | @revived g pos hat hpos hne =>
    obtain ⟨c, hc, hcanon⟩ := candidate_of_position? hpos
    refine ⟨_, groups_invalidate_self (groups_edit_self hat _), ?_, fun _ => ?_⟩
    · rw [Group.holds_iff, Group.candidates_reopen, Group.candidates_pin]
      exact ⟨c, List.mem_of_getElem? hc, hcanon⟩
    · rw [Group.shape_reopen, Group.shape_pin hc]
      exact hcanon
  | @added g hat hfresh =>
    refine ⟨_, groups_attach_self hat s, ?_, fun hf => nomatch hf⟩
    exact Group.holds_iff.mpr ⟨s, List.mem_of_getElem? (candidates_attach_last g id s), rfl⟩
  | @won g hat hfresh =>
    refine ⟨_, groups_invalidate_self (groups_edit_self (groups_attach_self hat s) _), ?_,
      fun hf => nomatch hf⟩
    rw [Group.holds_iff, Group.candidates_reopen, Group.candidates_promote]
    exact ⟨s, List.mem_of_getElem? (candidates_attach_last g id s), rfl⟩
  | @imposed g hat hfresh =>
    refine ⟨_, groups_invalidate_self (groups_edit_self (groups_attach_self hat s) _), ?_,
      fun _ => ?_⟩
    · rw [Group.holds_iff, Group.candidates_reopen, Group.candidates_pin]
      exact ⟨s, List.mem_of_getElem? (candidates_attach_last g id s), rfl⟩
    · rw [Group.shape_reopen, Group.shape_pin (candidates_attach_last g id s)]

/-- An alternative that the group holds changes nothing. -/
theorem unchanged {g : Group} {o : Outcome} (h : Placement model id s m false (.ok o) m')
    (hg : m.groups[id]? = some g) (hheld : g.holds s = true) : o.isChange = false := by
  have hnot : ∀ g', m.groups[id]? = some g' → g'.position? s ≠ none := fun g' hg' hnew => by
    obtain rfl : g = g' := Option.some.inj (hg.symm.trans hg')
    rw [Group.holds, hnew] at hheld
    cases hheld
  cases h with
  | held => rfl
  | added hat hnew => exact absurd hnew (hnot _ hat)
  | won hat hnew => exact absurd hnew (hnot _ hat)

/-- A candidate after a placement was there before, or it is the shape in its group. -/
theorem candidates (h : Placement model id s m forced r m') {j : GroupId} {c : Shape}
    (hcand : m'.Candidate j c) : m.Candidate j c ∨ j = id ∧ c = s := by
  cases h with
  | held => exact .inl hcand
  | unranked => exact .inl hcand
  | pinned => exact .inl ((candidate_edit_iff fun g => g.candidates_pin _).mp hcand)
  | revived =>
    rw [candidate_invalidate_iff] at hcand
    exact .inl ((candidate_edit_iff fun g => g.candidates_pin _).mp hcand)
  | added hat => exact (candidate_attach_iff hat).mp hcand
  | won hat =>
    rw [candidate_invalidate_iff, candidate_edit_iff fun g => g.candidates_promote _] at hcand
    exact (candidate_attach_iff hat).mp hcand
  | imposed hat =>
    rw [candidate_invalidate_iff] at hcand
    exact (candidate_attach_iff hat).mp ((candidate_edit_iff fun g => g.candidates_pin _).mp hcand)

end Placement

/-! ## Offering a plan -/

/-- What becomes of a plan that is offered to a group, and the memo it leaves. -/
inductive Offering (model : CostModel) (id : GroupId) (o : Offer) (m : Memo) :
    Except Fault Outcome → Memo → Prop where
  /-- There is no such group. -/
  | unknown (h : m.groups[id]? = none) : Offering model id o m (.error (.unknownGroup id)) m
  /-- The plan refers to the group itself. -/
  | itself (h : o.plan = .group id) : Offering model id o m (.ok .duplicate) m
  /-- The plan refers to a group that does not exist. -/
  | dangling {i : GroupId} {m' : Memo} (grows : m.Grows m') :
      Offering model id o m (.error (.unknownGroup i)) m'
  /-- The shape it comes down to is refused. -/
  | refused {s : Shape} {f : Fault} {m' : Memo} (grows : m.Grows m')
      (normal : m'.normal? o.plan = some s) (fault : m'.vet id s = .error f) :
      Offering model id o m (.error f) m'
  /-- The shape it comes down to is placed. -/
  | placed {s : Shape} {r : Except Fault Outcome} {m₁ m' : Memo} (grows : m.Grows m₁)
      (normal : m₁.normal? o.plan = some s) (vetted : m₁.vet id s = .ok ())
      (placement : Placement model id s m₁ o.forced r m')
      (run : (offered id o.plan).runOn m = (.ok (some s), m₁)) : Offering model id o m r m'

theorem offer_cases (hv : m.Valid) (model : CostModel) (id : GroupId) (o : Offer) :
    ∃ r m', (offer model id o).runOn m = (r, m') ∧ Offering model id o m r m' := by
  unfold offer
  rw [Edit.runOn_ask_bind]
  cases hg : m.groups[id]? with
  | none =>
    rw [group_of_unknown hg]
    exact ⟨_, _, rfl, .unknown hg⟩
  | some g =>
    rw [group_eq_ok_iff.mpr hg]
    dsimp only
    rcases offered_cases hv id o.plan with ⟨hplan, hrun⟩ | ⟨m₁, hgrows, ⟨s, hrun, hs⟩ | ⟨i, hrun⟩⟩
    · rw [Edit.runOn_bind_of_ok hrun]
      exact ⟨_, _, rfl, .itself hplan⟩
    · rw [Edit.runOn_bind_of_ok hrun]
      dsimp only
      rw [Edit.runOn_ask_bind]
      cases hvet : m₁.vet id s with
      | error f => exact ⟨_, _, rfl, .refused hgrows hs hvet⟩
      | ok _ =>
        have hid : id < m₁.size := hgrows.extends.size_le (lt_size_iff.mpr ⟨g, hg⟩)
        obtain ⟨r, m', hplace, hplacement⟩ := place_cases model s o.forced hid
        exact ⟨r, m', hplace, .placed hgrows hs hvet hplacement hrun⟩
    · rw [Edit.runOn_bind_of_error hrun]
      exact ⟨_, _, rfl, .dangling hgrows⟩

namespace Offering

variable {o : Offer} {r : Except Fault Outcome}

/-- An offer turns no group unless the answer says so. -/
theorem rests (h : Offering model id o m r m') (hv : m.Valid) (hr : r ≠ .ok .newRepresentative) :
    m.Rests m' := by
  cases h with
  | unknown => exact .refl
  | itself => exact .refl
  | dangling hgrows => exact hgrows.rests
  | refused hgrows => exact hgrows.rests
  | placed hgrows hs _ hplacement =>
    exact hgrows.rests.trans (hplacement.rests ((hgrows.valid hv).live_normal? hs) hr)

/-- An offer turns no group but its own. -/
theorem changes (h : Offering model id o m r m') (hv : m.Valid) : Changes id m m' := by
  cases h with
  | unknown => exact .rests .refl
  | itself => exact .rests .refl
  | dangling hgrows => exact .rests hgrows.rests
  | refused hgrows => exact .rests hgrows.rests
  | placed hgrows hs hvet hplacement =>
    have hv₁ := hgrows.valid hv
    exact .after hgrows (hplacement.changes hv₁ (hv₁.live_normal? hs) (leadsTo_of_vet hvet))

end Offering

/-! ## Ranking a group again -/

/-- The best candidate is the one to start from, or a challenger that does not lead back
to the group. -/
theorem best_cases {b w : Shape × Nat} {cs : List (Shape × Nat)}
    (h : m.best model id b cs = .ok w) : w = b ∨ w ∈ cs ∧ m.leadsTo w.1 id = false := by
  induction cs generalizing b with
  | nil =>
    cases h
    exact .inl rfl
  | cons c cs ih =>
    unfold best at h
    obtain ⟨order, -, h⟩ := bind_eq_ok.mp h
    dsimp only at h
    split at h
    · next hwins =>
      rcases ih h with rfl | ⟨hw, hapart⟩
      · refine .inr ⟨List.mem_cons_self, ?_⟩
        rw [Bool.and_eq_true, Bool.not_eq_true'] at hwins
        exact hwins.2
      · exact .inr ⟨List.mem_cons_of_mem _ hw, hapart⟩
    · rcases ih h with rfl | ⟨hw, hapart⟩
      · exact .inl rfl
      · exact .inr ⟨List.mem_cons_of_mem _ hw, hapart⟩

theorem mem_challengers_iff {g : Group} {c : Shape} {pos : Nat} :
    (c, pos) ∈ challengers g ↔
      g.candidates[pos]? = some c ∧ pos ≠ g.representative ∧ pos ∉ g.retired := by
  unfold challengers Group.numbered
  rw [List.mem_filter, List.mem_zipIdx_iff_getElem?]
  simp

/-- What a new ranking of a group answers, and the memo it leaves. -/
inductive Ranking (model : CostModel) (id : GroupId) (m : Memo) :
    Except Fault Bool → Memo → Prop where
  /-- There is no such group. -/
  | unknown (h : m.groups[id]? = none) : Ranking model id m (.error (.unknownGroup id)) m
  /-- The group is not stale. -/
  | rested {g : Group} (at_id : m.groups[id]? = some g) (settled : g.stale = false) :
      Ranking model id m (.ok false) m
  /-- Some candidate cannot be ranked. -/
  | failed {g : Group} {f : Fault} (at_id : m.groups[id]? = some g)
      (fault : m.best model id (g.shape, g.representative) (challengers g) = .error f) :
      Ranking model id m (.error f) m
  /-- The representative is still the best candidate. -/
  | kept {g : Group} {s : Shape} (at_id : m.groups[id]? = some g) (stale : g.stale = true)
      (winner : m.best model id (g.shape, g.representative) (challengers g) =
        .ok (s, g.representative)) : Ranking model id m (.ok false) (m.edit id Group.settle)
  /-- Another candidate is the best one now. -/
  | moved {g : Group} {s : Shape} {pos : Nat} (at_id : m.groups[id]? = some g)
      (at_pos : g.candidates[pos]? = some s) (ne : pos ≠ g.representative)
      (alive : pos ∉ g.retired) (apart : m.leadsTo s id = false)
      (winner : m.best model id (g.shape, g.representative) (challengers g) = .ok (s, pos))
      (stale : g.stale = true) : Ranking model id m (.ok true)
        (((m.edit id Group.settle).edit id (·.promote pos)).invalidate id)

theorem rerank_cases (model : CostModel) (id : GroupId) (m : Memo) :
    ∃ r m', (rerank model id).runOn m = (r, m') ∧ Ranking model id m r m' := by
  unfold rerank
  rw [Edit.runOn_get_bind, Edit.runOn_ask_bind]
  cases hg : m.groups[id]? with
  | none =>
    rw [group_of_unknown hg]
    exact ⟨_, _, rfl, .unknown hg⟩
  | some g =>
    rw [group_eq_ok_iff.mpr hg]
    dsimp only
    cases hstale : g.stale with
    | false => exact ⟨_, _, rfl, .rested hg hstale⟩
    | true =>
      simp only [Bool.not_true, Bool.false_eq_true, if_false]
      rw [Edit.runOn_ask_bind]
      cases hbest : m.best model id (g.shape, g.representative) (challengers g) with
      | error f => exact ⟨_, _, rfl, .failed hg hbest⟩
      | ok w =>
        obtain ⟨s, pos⟩ := w
        dsimp only
        by_cases hw : pos = g.representative
        · subst hw
          rw [if_pos rfl]
          exact ⟨_, _, rfl, .kept hg hstale hbest⟩
        · rw [if_neg hw]
          rcases best_cases hbest with heq | ⟨hmem, hapart⟩
          · exact absurd (Prod.mk.inj heq).2 hw
          · obtain ⟨hpos, hne, halive⟩ := mem_challengers_iff.mp hmem
            exact ⟨_, _, rfl, .moved hg hpos hne halive hapart hbest hstale⟩

/-- A group that is not stale is not ranked again. -/
theorem runOn_rerank_of_settled {g : Group} (hg : m.groups[id]? = some g) (hs : g.stale = false) :
    (rerank model id).runOn m = (.ok false, m) := by
  unfold rerank
  rw [Edit.runOn_get_bind, Edit.runOn_ask_bind, group_eq_ok_iff.mpr hg]
  dsimp only
  rw [hs]
  rfl

namespace Ranking

variable {r : Except Fault Bool}

/-- A ranking creates no group. -/
theorem size_eq (h : Ranking model id m r m') : m'.size = m.size := by
  cases h with
  | unknown => rfl
  | rested => rfl
  | failed => rfl
  | kept => exact m.size_edit id _
  | moved => rw [size_invalidate, size_edit, size_edit]

/-- A ranking turns no group unless the answer says so. -/
theorem rests (h : Ranking model id m r m') (hr : r ≠ .ok true) : m.Rests m' := by
  cases h with
  | unknown => exact .refl
  | rested => exact .refl
  | failed => exact .refl
  | kept hat => exact .single (.settle hat)
  | moved => exact absurd rfl hr

/-- A ranking turns no group but its own. -/
theorem changes (h : Ranking model id m r m') : Changes id m m' := by
  cases h with
  | unknown => exact .rests .refl
  | rested => exact .rests .refl
  | failed => exact .rests .refl
  | kept hat => exact .rests (.single (.settle hat))
  | @moved g s pos hat hpos hne halive hapart =>
    have hrep : ∀ j, (m.edit id Group.settle).rep? j = m.rep? j :=
      rep?_edit_of_shape fun _ _ => rfl
    refine .turns (.single (.settle hat)) (.promote (groups_edit_self hat _) hpos hne halive ?_)
    rw [leadsTo_congr rfl hrep (size_edit m id _)]
    exact hapart

/-- A ranking keeps all candidates. -/
theorem candidate_iff (h : Ranking model id m r m') {j : GroupId} {c : Shape} :
    m'.Candidate j c ↔ m.Candidate j c := by
  have hsettle : (m.edit id Group.settle).Candidate j c ↔ m.Candidate j c :=
    candidate_edit_iff (f := Group.settle) fun _ => rfl
  cases h with
  | unknown => exact Iff.rfl
  | rested => exact Iff.rfl
  | failed => exact Iff.rfl
  | kept => exact hsettle
  | moved =>
    rw [candidate_invalidate_iff, candidate_edit_iff fun g => g.candidates_promote _]
    exact hsettle

end Ranking

/-! ## Noting an exploration -/

theorem runOn_markExplored_of_group {g : Group} (h : m.groups[id]? = some g) (key : RuleKey) :
    (markExplored id key).runOn m = (.ok (), m.edit id (·.explore key)) := by
  unfold markExplored
  rw [Edit.runOn_ask_bind, group_eq_ok_iff.mpr h]
  rfl

theorem runOn_markExplored_of_unknown (h : m.groups[id]? = none) (key : RuleKey) :
    (markExplored id key).runOn m = (.error (.unknownGroup id), m) := by
  unfold markExplored
  rw [Edit.runOn_ask_bind, group_of_unknown h]

end Memo

end PlanOptimizer
