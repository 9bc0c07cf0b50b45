import PlanOptimizer.Proofs.Memo.Spared

/-!
# What the answer to an offer tells

An offer is answered by one of three outcomes, and callers go by the outcome alone.  It tells all
that has happened to the groups that were there (`Memo.Reachable.tells_of_offer`):

* a duplicate has changed nothing, except that a replacement retires the other candidates,
* an added candidate is one more candidate of its group,
* a new representative is one, and that of no other group has changed.

The inputs of an offered plan are inserted before the group is searched for its shape.  A duplicate
has made no groups all the same: new groups never answer for a plan that old groups answer for
(`Memo.Grows.find?_of_lt`), so the shape that a group holds comes from a plan whose parts were all
there.
-/

namespace PlanOptimizer

/-- The group with other candidates retired. -/
def Group.retire (retired : List Nat) (g : Group) : Group := { g with retired := retired }

/-- The candidates of a group are different, also up to the spelling of literals. -/
theorem Group.Valid.eq_of_canon {g : Group} (hg : g.Valid) {pos pos' : Nat} {c c' : Shape}
    (hc : g.candidates[pos]? = some c) (hc' : g.candidates[pos']? = some c')
    (h : c.canon = c'.canon) : pos = pos' := by
  have hlt : pos < (g.candidates.map Node.canon).length := by
    rw [List.length_map]
    exact (List.getElem?_eq_some_iff.mp hc).1
  refine (List.getElem?_inj hlt hg.distinct).mp ?_
  rw [List.getElem?_map, List.getElem?_map, hc, hc', Option.map_some, Option.map_some, h]

/-- A group later on, with all that it has but for candidates and parents. -/
structure Group.Keeps (g g' : Group) : Prop where
  /-- The representative is in its place. -/
  representative : g'.representative = g.representative
  /-- The same candidates have retired. -/
  retired : g'.retired = g.retired
  /-- It is stale if it was. -/
  stale : g'.stale = g.stale
  /-- The exploration notes are the same. -/
  explored : g'.explored = g.explored

namespace Memo

variable {m m₁ m' : Memo} {id j : GroupId} {s : Shape} {p : Plan}

/-- The shape that an offered plan has come down to when the offer has been answered.  A reference
comes down to the representative that the other group had before. -/
structure Offers (m : Memo) (p : Plan) (m' : Memo) (s : Shape) : Prop where
  /-- An operator is over the groups of its inputs. -/
  normal : m'.normal? p = some s
  /-- A reference stands for a representative. -/
  referred : ∀ {other}, p = .group other → m.rep? other = some s

/-- A group has one more candidate, and that is all but for new groups and new parents. -/
structure Gained (m : Memo) (id : GroupId) (s : Shape) (m' : Memo) : Prop where
  /-- The candidate is behind the others of its group. -/
  own : ∀ {g : Group}, m.groups[id]? = some g →
    ∃ g', m'.groups[id]? = some g' ∧ g.Keeps g' ∧ g'.candidates = g.candidates ++ [s]
  /-- No other group has got a candidate. -/
  others : ∀ {j : GroupId} {g : Group}, j ≠ id → m.groups[j]? = some g →
    ∃ g', m'.groups[j]? = some g' ∧ g.Keeps g' ∧ g'.candidates = g.candidates

/-- A group has a shape as its representative that it did not have before, and no other group has
another representative. -/
structure Turned (m : Memo) (id : GroupId) (s : Shape) (m' : Memo) : Prop where
  /-- The representatives are different, also up to the spelling of literals. -/
  representative : ∃ before now, m.rep? id = some before ∧ m'.rep? id = some now ∧
    now.canon = s.canon ∧ now.canon ≠ before.canon
  /-- The group has one more candidate at most. -/
  own : ∀ {g : Group}, m.groups[id]? = some g → ∃ g', m'.groups[id]? = some g' ∧
    (g'.candidates = g.candidates ∨ g'.candidates = g.candidates ++ [s])
  /-- The other groups have kept their candidates and representatives. -/
  others : ∀ {j : GroupId} {g : Group}, j ≠ id → m.groups[j]? = some g →
    ∃ g', m'.groups[j]? = some g' ∧ g'.representative = g.representative ∧
      g'.candidates = g.candidates

/-- What an answer to an offer tells of the memo `m` before and the memo `m'` after it. -/
inductive Tells (m : Memo) (id : GroupId) (o : Offer) (m' : Memo) : Outcome → Prop where
  /-- Nothing has changed, except that a replacement may have retired candidates of the group. -/
  | duplicate (same : m' = m ∨ o.forced = true ∧ ∃ ps, m' = m.edit id (Group.retire ps)) :
      Tells m id o m' .duplicate
  /-- The shape is one more candidate. -/
  | added {s : Shape} (known : id < m.size) (offers : m.Offers o.plan m' s)
      (gained : m.Gained id s m') : Tells m id o m' .added
  /-- The shape is the representative. -/
  | newRepresentative {s : Shape} (offers : m.Offers o.plan m' s) (turned : m.Turned id s m') :
      Tells m id o m' .newRepresentative

/-! ## New groups answer for new plans -/

/-- A new group is the home of no shape that an old group is the home of. -/
theorem Grows.home?_of_lt (h : m.Grows m') (hs : m'.home? s = some id) (hid : id < m.size) :
    m.home? s = some id := by
  induction h with
  | refl => exact hs
  | tail hfirst hlast ih =>
    obtain ⟨-, -⟩ := hlast
    rw [home?_withGroup] at hs
    split at hs
    · cases hs
      exact absurd hid (Nat.not_lt.mpr (Grows.size_le hfirst))
    · exact ih hs

/-- The home of a shape holds it, so the groups under the shape are there. -/
theorem Valid.live_home? (hv : m.Valid) (hs : m.home? s = some id) : ∀ i ∈ s.inputs, i < m.size := by
  obtain ⟨c, hc, hcanon⟩ := hv.housed hs
  exact Node.inputs_eq_of_canon hcanon ▸ hv.live hc

/-- Each part of a plan that an old group answers for is answered for by an old group. -/
theorem Grows.find?_of_lt (h : m.Grows m') (hv : m.Valid) (hp : m'.find? p = some id)
    (hid : id < m.size) : m.find? p = some id := by
  induction p generalizing id with
  | scan op => exact h.home?_of_lt hp hid
  | unary op a ih =>
    obtain ⟨x, hx, hhome⟩ := find?_unary_iff.mp hp
    have hold := h.home?_of_lt hhome hid
    have hlive := hv.live_home? hold x (List.mem_singleton_self x)
    exact find?_unary_iff.mpr ⟨x, ih hx hlive, hold⟩
  | join op a b iha ihb =>
    obtain ⟨x, y, hx, hy, hhome⟩ := find?_join_iff.mp hp
    have hold := h.home?_of_lt hhome hid
    have hlive := hv.live_home? hold
    have hx₀ := iha hx (hlive x List.mem_cons_self)
    have hy₀ := ihb hy (hlive y (List.mem_cons_of_mem _ (List.mem_singleton_self y)))
    exact find?_join_iff.mpr ⟨x, y, hx₀, hy₀, hold⟩
  | group i =>
    obtain ⟨-, rfl⟩ := find?_group_iff.mp hp
    exact find?_group_iff.mpr ⟨hid, rfl⟩

theorem Grows.over?_of_live (h : m.Grows m') (hv : m.Valid) {n : Node Plan}
    (hn : m'.over? n = some s) (hlive : ∀ i ∈ s.inputs, i < m.size) : m.over? n = some s := by
  cases n with
  | scan op => exact hn
  | unary op a =>
    obtain ⟨x, hx, rfl⟩ := over?_unary_iff.mp hn
    have hx₀ := h.find?_of_lt hv hx (hlive x (List.mem_singleton_self x))
    exact over?_unary_iff.mpr ⟨x, hx₀, rfl⟩
  | join op a b =>
    obtain ⟨x, y, hx, hy, rfl⟩ := over?_join_iff.mp hn
    have hx₀ := h.find?_of_lt hv hx (hlive x List.mem_cons_self)
    have hy₀ := h.find?_of_lt hv hy
      (hlive y (List.mem_cons_of_mem _ (List.mem_singleton_self y)))
    exact over?_join_iff.mpr ⟨x, y, hx₀, hy₀, rfl⟩

/-! ## What an offer comes down to -/

/-- A reference to another group comes down to the representative of that group. -/
theorem of_offered_group {other : GroupId}
    (hrun : (offered id (.group other)).runOn m = (.ok (some s), m₁)) :
    other ≠ id ∧ m₁ = m ∧ m.rep? other = some s := by
  by_cases heq : other = id
  · subst heq
    cases (runOn_offered_itself m other).symm.trans hrun
  · rw [runOn_offered_group heq] at hrun
    obtain ⟨hshape, rfl⟩ := Prod.mk.inj hrun
    refine ⟨heq, rfl, ?_⟩
    cases hrep : m.rep? other with
    | some c =>
      rw [shape_of_rep hrep] at hshape
      cases hshape
      rfl
    | none =>
      rw [shape_of_unknown (Option.map_eq_none_iff.mp hrep)] at hshape
      cases hshape

/-- An offer that comes down to a shape over groups that were there has made no groups. -/
theorem eq_of_offered_of_live (hv : m.Valid) (hgrows : m.Grows m₁) (hs : m₁.normal? p = some s)
    (hrun : (offered id p).runOn m = (.ok (some s), m₁)) (hlive : ∀ i ∈ s.inputs, i < m.size) :
    m₁ = m := by
  have hinputs : ∀ n : Node Plan, m₁.over? n = some s →
      (some <$> insertInputs n).runOn m = (.ok (some s), m₁) → m₁ = m := by
    intro n hn hrun
    rw [Edit.runOn_map, runOn_insertInputs_of_over? (hgrows.over?_of_live hv hn hlive)] at hrun
    exact (Prod.mk.inj hrun).2.symm
  cases p with
  | scan op => exact hinputs (.scan op) hs hrun
  | unary op a => exact hinputs (.unary op a) hs hrun
  | join op a b => exact hinputs (.join op a b) hs hrun
  | group other => exact (of_offered_group hrun).2.1

/-- A shape that a group held before is over groups that were there before. -/
theorem live_of_position? (hv : m.Valid) (hgrows : m.Grows m₁) (hid : id < m.size) {g : Group}
    {pos : Nat} (hat : m₁.groups[id]? = some g) (hpos : g.position? s = some pos) :
    ∀ i ∈ s.inputs, i < m.size := by
  obtain ⟨g₀, hg₀⟩ := lt_size_iff.mp hid
  obtain ⟨parents, hg, -⟩ := hgrows.group_of_lt hg₀
  obtain rfl := Option.some.inj (hg.symm.trans hat)
  obtain ⟨c, hc, hcanon⟩ := candidate_of_position? hpos
  exact Node.inputs_eq_of_canon hcanon ▸ hv.live ⟨g₀, hg₀, List.mem_of_getElem? hc⟩

/-- What an offer comes down to, it still comes down to when only the group itself has turned. -/
theorem offers_of_offered (hs : m₁.normal? p = some s)
    (hrun : (offered id p).runOn m = (.ok (some s), m₁)) (hext : m₁.Extends m')
    (hrep : ∀ {j}, j < m₁.size → j ≠ id → m'.rep? j = m₁.rep? j) : m.Offers p m' s := by
  cases p with
  | scan op => exact ⟨over?_mono hext (n := .scan op) hs, nofun⟩
  | unary op a => exact ⟨over?_mono hext (n := .unary op a) hs, nofun⟩
  | join op a b => exact ⟨over?_mono hext (n := .join op a b) hs, nofun⟩
  | group other =>
    obtain ⟨hne, -, hold⟩ := of_offered_group hrun
    have hother : other < m₁.size := rep?_isSome_iff.mp (Option.isSome_of_eq_some hs)
    refine ⟨(hrep hother hne).trans hs, fun h => ?_⟩
    cases h
    exact hold

/-! ## What becomes of the groups -/

theorem edit_congr {f f' : Group → Group} (h : ∀ g, m.groups[id]? = some g → f g = f' g) :
    m.edit id f = m.edit id f' := by
  have hgroups : (m.edit id f).groups = (m.edit id f').groups := by
    refine List.ext_getElem? fun j => ?_
    rw [groups_edit, groups_edit]
    by_cases heq : j = id
    · subst heq
      cases hg : m.groups[j]? with
      | none => rfl
      | some g => simp [h g hg]
    · simp [heq]
  exact congrArg (Memo.mk · m.index) hgroups

/-- Forcing the representative retires the other candidates and does nothing else. -/
theorem force_representative {g : Group} (hat : m.groups[id]? = some g) :
    ∃ ps, m.force id g.representative = m.edit id (Group.retire ps) := by
  refine ⟨(List.range g.candidates.length).filter (· ≠ g.representative),
    edit_congr fun g' hg' => ?_⟩
  obtain rfl : g = g' := Option.some.inj (hat.symm.trans hg')
  unfold Group.pin Group.promote
  rw [if_pos g.representative_lt, dif_pos g.representative_lt]
  rfl

theorem gained_attach (m : Memo) (id : GroupId) (s : Shape) : m.Gained id s (m.attach id s) where
  own hg := ⟨_, groups_attach_self hg s, ⟨rfl, rfl, rfl, rfl⟩, rfl⟩
  others {j g} hne hg := by
    refine ⟨g.adopt id s j, ?_, ⟨rfl, rfl, rfl, rfl⟩, rfl⟩
    rw [groups_attach_ne hne, hg]
    rfl

/-- A turn of a group keeps all candidates, and the representatives of the other groups. -/
theorem candidates_swing {f : Group → Group} (hf : Group.Swings f) {g : Group}
    (hg : m.groups[j]? = some g) :
    ∃ g', ((m.edit id f).invalidate id).groups[j]? = some g' ∧ g'.candidates = g.candidates ∧
      (j ≠ id → g'.representative = g.representative) := by
  refine ⟨_, (groups_swing m f hf.parents j).trans (congrArg _ hg), ?_, fun hne => ?_⟩
  · rw [Group.candidates_reopen]
    split
    · exact hf.candidates g
    · rfl
  · rw [Group.representative_reopen, if_neg hne]

theorem turned_swing {f : Group → Group} {g : Group} (hat : m.groups[id]? = some g)
    (hf : Group.Swings f) (hshape : (f g).shape.canon = s.canon) (hne : s.canon ≠ g.shape.canon) :
    m.Turned id s ((m.edit id f).invalidate id) where
  representative := by
    refine ⟨g.shape, (f g).shape, rep?_of_group hat, ?_, hshape, hshape ▸ hne⟩
    rw [rep?_invalidate, rep?_of_group (groups_edit_self hat f)]
  own hg := by
    obtain ⟨g', hg', hcandidates, -⟩ := candidates_swing hf hg
    exact ⟨g', hg', .inl hcandidates⟩
  others hne hg := by
    obtain ⟨g', hg', hcandidates, hrep⟩ := candidates_swing hf hg
    exact ⟨g', hg', hrep hne, hcandidates⟩

/-- A group may turn to a candidate that has just come in. -/
theorem turned_attach {f : Group → Group} {g : Group} (hat : m.groups[id]? = some g)
    (hfresh : g.position? s = none) (hf : Group.Swings f)
    (hshape : (f ((g.adopt id s id).push s)).shape = s) :
    m.Turned id s (((m.attach id s).edit id f).invalidate id) where
  representative := by
    have hne : s.canon ≠ g.shape.canon := fun heq => by
      rw [Group.position?_eq_none_iff, heq] at hfresh
      exact hfresh (List.mem_map_of_mem g.shape_mem)
    refine ⟨g.shape, s, rep?_of_group hat, ?_, rfl, hne⟩
    rw [rep?_invalidate, rep?_of_group (groups_edit_self (groups_attach_self hat s) f), hshape]
  own hg := by
    obtain ⟨g₁, hg₁, -, hgained⟩ := (gained_attach m id s).own hg
    obtain ⟨g', hg', hcandidates, -⟩ := candidates_swing hf hg₁
    exact ⟨g', hg', .inr (hcandidates.trans hgained)⟩
  others hne hg := by
    obtain ⟨g₁, hg₁, hkeeps, hsame⟩ := (gained_attach m id s).others hne hg
    obtain ⟨g', hg', hcandidates, hrep⟩ := candidates_swing hf hg₁
    exact ⟨g', hg', (hrep hne).trans hkeeps.representative, hcandidates.trans hsame⟩

/-! ### New groups before -/

theorem Gained.after (h : m₁.Gained id s m') (hgrows : m.Grows m₁) : m.Gained id s m' where
  own hg := by
    obtain ⟨parents, hg₁, -⟩ := hgrows.group_of_lt hg
    obtain ⟨g', hg', hkeeps, hcandidates⟩ := h.own hg₁
    exact ⟨g', hg', ⟨hkeeps.representative, hkeeps.retired, hkeeps.stale, hkeeps.explored⟩,
      hcandidates⟩
  others hne hg := by
    obtain ⟨parents, hg₁, -⟩ := hgrows.group_of_lt hg
    obtain ⟨g', hg', hkeeps, hcandidates⟩ := h.others hne hg₁
    exact ⟨g', hg', ⟨hkeeps.representative, hkeeps.retired, hkeeps.stale, hkeeps.explored⟩,
      hcandidates⟩

theorem Turned.after (h : m₁.Turned id s m') (hgrows : m.Grows m₁) (hid : id < m.size) :
    m.Turned id s m' where
  representative := by
    rw [← hgrows.rests.rep? hid]
    exact h.representative
  own hg := by
    obtain ⟨parents, hg₁, -⟩ := hgrows.group_of_lt hg
    obtain ⟨g', hg', hcandidates⟩ := h.own hg₁
    exact ⟨g', hg', hcandidates⟩
  others hne hg := by
    obtain ⟨parents, hg₁, -⟩ := hgrows.group_of_lt hg
    obtain ⟨g', hg', hrep, hcandidates⟩ := h.others hne hg₁
    exact ⟨g', hg', hrep, hcandidates⟩

/-! ## Answers -/

variable {model : CostModel} {o : Offer}

/-- A shape that becomes the representative was none before. -/
theorem Placement.turned {forced : Bool}
    (h : Placement model id s m forced (.ok .newRepresentative) m') (hv : m.Valid) :
    m.Turned id s m' := by
  cases h with
  | @revived g pos hat hpos hne =>
    obtain ⟨c, hc, hcanon⟩ := candidate_of_position? hpos
    refine turned_swing hat (Group.swings_pin pos) ?_ fun heq => hne ?_
    · rw [Group.shape_pin hc]
      exact hcanon
    · exact (hv.group hat).eq_of_canon hc g.getElem?_representative (hcanon.trans heq)
  | @won g hat hfresh =>
    exact turned_attach hat hfresh (Group.swings_promote _)
      (Group.shape_promote (candidates_attach_last g id s))
  | @imposed g hat hfresh =>
    exact turned_attach hat hfresh (Group.swings_pin _)
      (Group.shape_pin (candidates_attach_last g id s))

/-- The answer to an offer that is placed. -/
theorem Placement.tells {forced : Bool} {outcome : Outcome}
    (h : Placement model id s m₁ forced (.ok outcome) m') (hforced : o.forced = forced)
    (hv : m.Valid) (hid : id < m.size) (hgrows : m.Grows m₁) (hs : m₁.normal? o.plan = some s)
    (hvet : m₁.vet id s = .ok ()) (hrun : (offered id o.plan).runOn m = (.ok (some s), m₁)) :
    m.Tells id o m' outcome := by
  have hv₁ := hgrows.valid hv
  have hchanges := h.changes hv₁ (hv₁.live_normal? hs) (leadsTo_of_vet hvet)
  have hoffers : m.Offers o.plan m' s :=
    offers_of_offered hs hrun hchanges.moves.extends fun hj hne => hchanges.rep?_of_ne hj hne
  have hsame : ∀ {g : Group} {pos : Nat}, m₁.groups[id]? = some g → g.position? s = some pos →
      m₁ = m := fun hat hpos =>
    eq_of_offered_of_live hv hgrows hs hrun (live_of_position? hv hgrows hid hat hpos)
  cases outcome with
  | duplicate =>
    cases h with
    | held hat hpos => exact .duplicate (.inl (hsame hat hpos))
    | pinned hat hpos =>
      obtain rfl := hsame hat hpos
      exact .duplicate (.inr ⟨hforced, force_representative hat⟩)
  | added =>
    cases h with
    | added => exact .added hid hoffers ((gained_attach m₁ id s).after hgrows)
  | newRepresentative => exact .newRepresentative hoffers ((h.turned hv₁).after hgrows hid)

/-- **The answer to an offer is exact.**  Whatever plan is offered to a group of a reachable memo,
and whatever model ranks plans: a duplicate has changed nothing but which candidates have retired,
and that for a replacement only, an added shape is one more candidate and no group has turned, and
after a new representative no other group has turned. -/
theorem Reachable.tells_of_offer (hm : m.Reachable) {outcome : Outcome}
    (hrun : (offer model id o).runOn m = (.ok outcome, m')) : m.Tells id o m' outcome := by
  have hv := hm.valid
  obtain ⟨r, m₂, hrun₂, hoffering⟩ := offer_cases hv model id o
  cases hrun₂.symm.trans hrun
  cases hg : m.groups[id]? with
  | none =>
    unfold offer at hrun
    rw [Edit.runOn_ask_bind, group_of_unknown hg] at hrun
    cases hrun
  | some g =>
    cases hoffering with
    | itself => exact .duplicate (.inl rfl)
    | placed hgrows hs hvet hplacement hoffered =>
      exact hplacement.tells rfl hv (lt_size_iff.mpr ⟨g, hg⟩) hgrows hs hvet hoffered

section Answering

private def preparing : Edit GroupId := do
  let id ← (Call.insert (.limit 0 5 (.scanAll "s" "t"))).edit .indifferent
  let _ ← (Call.offer id (.alternative (.limit 0 7 (.scanAll "s" "t")))).edit .indifferent
  (Call.insert (.limit 0 3 (.scanAll "s" "u"))).edit .indifferent

/-- Group `1` holds two limits over one table, group `3` a limit over another table. -/
private def prepared : Memo := (preparing.runOn .empty).2

/-- The representative of group `1`. -/
private def sameLimit : Offer := .replacement (.limit 0 5 (.scanAll "s" "t"))

/-- A limit over a limit that is new. -/
private def newLimit : Offer := .alternative (.limit 0 9 (.limit 0 2 (.scanAll "s" "t")))

private def answer (o : Offer) : Except Fault Outcome × Memo :=
  (offer .indifferent 1 o).runOn prepared

/-- A replacement by the representative is a duplicate and retires the other limit, an alternative
with a new input comes in beside the two, and a replacement by a reference takes over the
representative of the other group. -/
theorem tells_of_answers :
    prepared.Reachable ∧
      ((answer sameLimit).1 = .ok .duplicate ∧ (answer sameLimit).2 ≠ prepared ∧
        prepared.Tells 1 sameLimit (answer sameLimit).2 .duplicate) ∧
      ((answer newLimit).1 = .ok .added ∧ (answer newLimit).2.size = prepared.size + 1 ∧
        prepared.Tells 1 newLimit (answer newLimit).2 .added) ∧
      (answer (.replacement (.group 3))).1 = .ok .newRepresentative ∧
        (answer (.replacement (.group 3))).2.rep? 1 = prepared.rep? 3 ∧
        prepared.Tells 1 (.replacement (.group 3)) (answer (.replacement (.group 3))).2
          .newRepresentative := by
  have hscript : preparing.Scripted :=
    .bind (.call _ _) fun _ => .bind (.call _ _) fun _ => .call _ _
  have hreach : prepared.Reachable := hscript.reachable .empty
  have hheld : (answer sameLimit).1 = .ok .duplicate := by decide +kernel
  have hbeaten : (answer newLimit).1 = .ok .added := by decide +kernel
  have hforced : (answer (.replacement (.group 3))).1 = .ok .newRepresentative := by decide +kernel
  refine ⟨hreach, ⟨hheld, by decide +kernel, ?_⟩, ⟨hbeaten, by decide +kernel, ?_⟩, hforced,
    by decide +kernel, ?_⟩
  · exact hreach.tells_of_offer (Prod.ext hheld rfl)
  · exact hreach.tells_of_offer (Prod.ext hbeaten rfl)
  · exact hreach.tells_of_offer (Prod.ext hforced rfl)

end Answering

end Memo

end PlanOptimizer
