import PlanOptimizer.Proofs.Fixpoint.Walks

/-!
# Budgets bound a run

Rules may create groups without end, in one pass or from pass to pass.  Still every run comes to
an end.

*Passes.*  A pass is a walk that comes to its end (`Optimizer.exists_visits`), and in a run it
explores no more groups than allowed.

*Runs.*  There are no more passes than allowed.  Each pass but the last one reports a change, and so
it has changed a group that it has explored (`Optimizer.Walks.renews`).

*Faults.*  A run fails without a plan, or because a budget is spent, or it hands a fault on with
which a rule or the cost model has answered (`Optimizer.Relays`).  Rules and models may answer with
any fault, also with that of a spent budget.  The run does not look into it.
-/

namespace PlanOptimizer

open Edit

/-- A rule that answers with a fault, whatever plan it is handed. -/
def Rule.failing (f : Fault) : Rule where
  name := "Failing"
  family := "Failing"
  pattern := .any
  apply _ _ _ := .error f

namespace Optimizer

variable {o : Optimizer} {p : Plan} {root id : GroupId} {k pass : Nat} {m m' : Memo} {f : Fault}

/-! ## Runs -/

/-- A run comes to a memo: the plan is inserted, and then as many passes are made, each of which
reports a change. -/
inductive After (o : Optimizer) (p : Plan) : Nat → GroupId → Memo → Prop where
  /-- The plan is inserted. -/
  | insert {root : GroupId} {m : Memo} (run : (Memo.insert p).runOn .empty = (.ok root, m))
      (size : m.size ≤ o.limits.groups) : After o p 0 root m
  /-- One more pass reports a change. -/
  | pass {k : Nat} {root : GroupId} {m m' : Memo} {t : Tally} (after : After o p k root m)
      (run : (o.runPass root (k + 1)).runOn m = (.ok t, m')) (changed : t.changed = true) :
      After o p (k + 1) root m'

theorem After.fits (h : o.After p k root m) : Fits root o.limits.groups m := by
  induction h with
  | insert run size =>
    have hreach := Memo.Reachable.empty.of_insert run
    exact ⟨hreach, hreach.valid.lt_of_find? (Memo.find?_of_insert Memo.valid_empty run), size⟩
  | pass _ run _ ih => exact ((meets_runPass (Nat.le_refl _) _ ih).of_ok run).fits

/-- The next pass is a walk. -/
theorem After.exists_visits (h : o.After p k root m) : ∃ visits, o.Visits root (k + 1) m visits :=
  o.exists_visits (k + 1) h.fits.reachable h.fits.live

/-- Each pass has changed a group. -/
theorem After.renews (h : o.After p k root m) : ∀ i < k, ∃ m₁ visits, o.After p i root m₁ ∧
    o.Visits root (i + 1) m₁ visits ∧ ∃ v ∈ visits, o.Renews root (i + 1) v.1 v.2 := by
  induction h with
  | insert => exact fun _ hi => absurd hi (Nat.not_lt_zero _)
  | pass after run changed ih =>
    intro i hi
    rcases Nat.lt_succ_iff_lt_or_eq.mp hi with hlt | rfl
    · exact ih i hlt
    · obtain ⟨visits, r, m₂, hrun, hwalks⟩ := after.exists_visits
      cases hrun.symm.trans run
      have hrenews := hwalks.renews (Nat.le_refl _) after.fits rfl changed
      exact ⟨_, visits, after, ⟨_, _, run, hwalks⟩, hrenews⟩

/-- The root is the group of the plan. -/
theorem After.inserted (h : o.After p k root m) :
    ∃ m₀, (Memo.insert p).runOn .empty = (.ok root, m₀) := by
  induction h with
  | insert run _ => exact ⟨_, run⟩
  | pass _ _ _ ih => exact ih

/-- What is left of the passes of a run. -/
theorem After.runOn_runPasses (h : o.After p k root m) : ∃ m₀ a,
    (Memo.insert p).runOn .empty = (.ok root, m₀) ∧ m₀.size ≤ o.limits.groups ∧ ∀ left,
      (o.runPasses root (k + left) ⟨0, 0⟩).runOn m₀ = (o.runPasses root left ⟨k, a⟩).runOn m := by
  induction h with
  | insert run size =>
    refine ⟨_, 0, run, size, fun left => ?_⟩
    rw [Nat.zero_add]
  | @pass k root m m' t _ run changed ih =>
    obtain ⟨m₀, a, hinsert, hsize, hpasses⟩ := ih
    refine ⟨m₀, a + t.applications, hinsert, hsize, fun left => ?_⟩
    rw [Nat.add_right_comm, Nat.add_assoc, hpasses (left + 1)]
    refine (runOn_bind_of_ok run _).trans ?_
    dsimp only
    rw [if_pos changed]

/-- A run fails with what one of its passes fails with. -/
theorem After.optimize_of_error (h : o.After p k root m) (hallowed : k < max o.limits.passes 1)
    (hpass : (o.runPass root (k + 1)).runOn m = (.error f, m')) : o.optimize p = .error f := by
  obtain ⟨m₀, a, hinsert, hsize, hpasses⟩ := h.runOn_runPasses
  obtain ⟨left, hleft⟩ := Nat.exists_eq_add_of_lt hallowed
  have hvalid := (Memo.Reachable.empty.of_insert hinsert).valid
  have hfind := Memo.find?_of_insert Memo.valid_empty hinsert
  obtain ⟨g, hg⟩ := Memo.lt_size_iff.mp (hvalid.lt_of_find? hfind)
  have hrun : (o.optimizeIn root).runOn m₀ = (.error f, m') := by
    unfold optimizeIn
    rw [runOn_ask_bind, Memo.group_eq_ok_iff.mpr hg, hleft, Nat.add_assoc]
    exact (hpasses (left + 1)).trans (runOn_bind_of_error hpass _)
  have hinto : (o.optimizeInto p).runOn .empty = (.error f, m') := by
    rw [runOn_optimizeInto_of_insert hinsert, runOn_ask_bind]
    unfold checkSize
    rw [if_pos hsize]
    exact runOn_bind_of_error hrun _
  unfold optimize
  rw [hinto]

/-! ## Faults that a run hands on -/

/-- A run hands a fault on: in one of the passes that it makes, exploring a group is broken off with
this fault, since a rule has answered with it about the representative that it was to be offered, or
the cost model about two candidates that it was to compare. -/
inductive Relays (o : Optimizer) (p : Plan) (f : Fault) : Prop where
  /-- The pass comes to the group in the memo that the groups before it have left. -/
  | in_pass {k : Nat} {root id : GroupId} {m m₁ : Memo} {visits : List (GroupId × Memo)}
      (after : o.After p k root m) (allowed : k < max o.limits.passes 1)
      (pass : o.Visits root (k + 1) m visits) (visit : (id, m₁) ∈ visits)
      (halts : o.Halts root (k + 1) id m₁ f) : Relays o p f

/-- A fault that a run hands on is what the run fails with. -/
theorem Relays.optimize_eq (h : o.Relays p f) : o.optimize p = .error f := by
  obtain ⟨hafter, hallowed, ⟨r, m', hpass, hwalks⟩, hvisit, hhalts⟩ := h
  obtain ⟨m₂, hexplore⟩ := hhalts.exists_run
  obtain rfl := hwalks.error_of_visit hvisit hexplore
  exact hafter.optimize_of_error hallowed hpass

/-! ## What the limits say -/

/-- A run ends with a pass that reports no change. -/
structure Ends (o : Optimizer) (p : Plan) (root : GroupId) (c : Convergence) (m : Memo) : Prop where
  /-- There are no more groups than allowed. -/
  fits : Fits root o.limits.groups m
  /-- The last pass is one of those that are allowed, and it reports no change. -/
  last : ∃ k m₁ t, c.passes = k + 1 ∧ k < max o.limits.passes 1 ∧ o.After p k root m₁ ∧
    (o.runPass root (k + 1)).runOn m₁ = (.ok t, m) ∧ t.changed = false
  /-- In each pass, each active rule is applied once at most to each group. -/
  applications : c.applications ≤ c.passes * (m.size * o.rules.length)

/-- What a run fails with. -/
inductive GivesUp (o : Optimizer) (p : Plan) : Fault → Memo → Prop where
  /-- The plan cannot be inserted. -/
  | refused {f : Fault} {m : Memo} (planless : f.best? = none) : GivesUp o p f m
  /-- All passes have been made, and each has reported a change.  The fault carries the plan of the
  root. -/
  | spent {root : GroupId} {m : Memo} {q : Plan} (after : o.After p (max o.limits.passes 1) root m)
      (best : m.best? root = .ok q) : GivesUp o p (.notConverged (max o.limits.passes 1) q) m
  /-- A part of the run fails. -/
  | part {root : GroupId} {f : Fault} {m₀ m : Memo}
      (inserted : (Memo.insert p).runOn .empty = (.ok root, m₀))
      (blames : o.Blames root (o.Relays p) f m) : GivesUp o p f m

theorem meets_runPasses (left : Nat) : ∀ {c : Convergence} {m : Memo}, o.After p c.passes root m →
    c.passes + left = max o.limits.passes 1 →
      c.applications ≤ c.passes * (m.size * o.rules.length) →
      (o.runPasses root left c).Meets m (o.Ends p root) (o.GivesUp p) := by
  induction left with
  | zero =>
    intro c m hafter hleft _
    obtain ⟨q, hq⟩ := hafter.fits.best
    have hpasses : c.passes = max o.limits.passes 1 := hleft
    refine meets_ask_bind hq (meets_of_error (f := .notConverged c.passes q) rfl ?_)
    rw [hpasses] at hafter ⊢
    exact .spent hafter hq
  | succ left ih =>
    intro c m hafter hleft happlications
    have hallowed : c.passes < max o.limits.passes 1 := by omega
    have hpass := meets_runPass (Nat.le_refl _) (c.passes + 1) hafter.fits
    rcases hpass.run with ⟨t, m₁, hrun, hstays⟩ | ⟨f, m₁, hrun, hblames⟩
    · refine meets_bind_of_ok hrun ?_
      have hsum : c.applications + t.applications ≤
          (c.passes + 1) * (m₁.size * o.rules.length) := by
        rw [Nat.succ_mul]
        refine Nat.add_le_add (happlications.trans ?_) hstays.applications
        exact Nat.mul_le_mul_left _ (Nat.mul_le_mul_right _ hstays.ext.size_mono)
      dsimp only
      split
      · next hchanged => exact ih (.pass hafter hrun hchanged) (by dsimp only; omega) hsum
      · next hchanged =>
        refine meets_of_ok (runOn_pure _ _) ⟨hstays.fits, ?_, hsum⟩
        exact ⟨c.passes, m, t, rfl, hallowed, hafter, hrun, Bool.eq_false_iff.mpr hchanged⟩
    · obtain ⟨m₀, hinserted⟩ := hafter.inserted
      refine meets_of_error (runOn_bind_of_error hrun _) (.part hinserted (hblames.imp ?_))
      rintro ⟨visits, hvisits, v, hv, hhalts⟩
      exact .in_pass hafter hallowed hvisits hv hhalts

theorem meets_optimizeInto (o : Optimizer) (p : Plan) :
    (o.optimizeInto p).Meets .empty (fun r m => o.Ends p r.1 r.2.1 m) (o.GivesUp p) := by
  obtain ⟨m, -, ⟨root, hinsert, hfind⟩ | ⟨i, hinsert⟩⟩ := Memo.insert_cases p Memo.valid_empty
  · refine meets_bind_of_ok hinsert ?_
    have hreach := Memo.Reachable.empty.of_insert hinsert
    have hroot := hreach.valid.lt_of_find? hfind
    refine meets_ask_cases (fun _ hcheck => ?_) fun f hf =>
      .part hinsert (blames_of_checkSize hreach hroot hf)
    have hfits := fits_of_checkSize hreach hroot hcheck
    have hin : (o.optimizeIn root).Meets m (o.Ends p root) (o.GivesUp p) := by
      refine meets_ask_cases (fun _ _ => ?_) fun f hf =>
        .part hinsert (.plain (Memo.best?_of_group hf))
      exact meets_runPasses _ (c := ⟨0, 0⟩) (.insert hinsert hfits.size) (Nat.zero_add _)
        (Nat.zero_le _)
    refine hin.bind fun c m₁ hends => ?_
    obtain ⟨q, hq⟩ := hends.fits.best
    exact meets_ask_bind hq (meets_of_ok (runOn_pure _ _) hends)
  · exact meets_of_error (runOn_bind_of_error hinsert _) (.refused rfl)

/-- What the limits say about a run. -/
structure Budgeted (o : Optimizer) (p : Plan) : Prop where
  /-- Each pass is a walk that comes to its end. -/
  ends : ∀ k root m, o.After p k root m → ∃ visits, o.Visits root (k + 1) m visits
  /-- A pass explores no group twice, and no more groups than allowed. -/
  visits : ∀ k root m vs, o.After p k root m → o.Visits root (k + 1) m vs →
    (vs.map Prod.fst).Nodup ∧ vs.length ≤ o.limits.groups
  /-- A run that succeeds makes one pass at least, and no more than allowed, the last one without a
  change.  Its memo has no more groups than allowed, and in each pass each active rule is applied
  once at most to each of them. -/
  converged : ∀ r, o.optimize p = .ok r →
    1 ≤ r.convergence.passes ∧ r.convergence.passes ≤ max o.limits.passes 1 ∧
      r.memo.size ≤ o.limits.groups ∧
      r.convergence.applications ≤ r.convergence.passes * r.memo.size * o.rules.length ∧
      ∃ k m t, r.convergence.passes = k + 1 ∧ o.After p k r.root m ∧
        (o.runPass r.root (k + 1)).runOn m = (.ok t, r.memo) ∧ t.changed = false
  /-- A run that does not converge has made all passes, and each of them has changed a group that
  it has explored.  Otherwise the fault is handed on. -/
  notConverged : ∀ k q, o.optimize p = .error (.notConverged k q) →
    (k = max o.limits.passes 1 ∧ ∃ root, o.After p k root ((o.optimizeInto p).runOn .empty).2 ∧
      ∀ i < k, ∃ m visits, o.After p i root m ∧ o.Visits root (i + 1) m visits ∧
        ∃ v ∈ visits, o.Renews root (i + 1) v.1 v.2) ∨
    o.Relays p (.notConverged k q)
  /-- A run with too many groups reports how many there are.  Otherwise the fault is handed on. -/
  tooManyGroups : ∀ n q, o.optimize p = .error (.tooManyGroups n q) →
    (o.limits.groups < n ∧ n = ((o.optimizeInto p).runOn .empty).2.size) ∨
    o.Relays p (.tooManyGroups n q)

theorem givesUp_of_optimize (h : o.optimize p = .error f) :
    o.GivesUp p f ((o.optimizeInto p).runOn .empty).2 :=
  (meets_optimizeInto o p).of_error (Prod.ext (optimize_error h) rfl)

/-- **Budgets bound every run.**  Whatever the rules create, each pass comes to its end within the
limit of groups, and the run within the limit of passes.  The fault of a spent budget says so,
unless it is not that of the run but one that the run hands on. -/
theorem optimize_budgeted (o : Optimizer) (p : Plan) : o.Budgeted p where
  ends k root m hafter := hafter.exists_visits
  visits k root m vs hafter hvisits := by
    obtain ⟨r, m', -, hwalks⟩ := hvisits
    exact ⟨hwalks.nodup.1, hwalks.length_le (Nat.le_refl _) hafter.fits⟩
  converged r hr := by
    obtain ⟨hfits, ⟨k, m, t, hpasses, hlt, hafter, hrun, hsame⟩, happlications⟩ :=
      (meets_optimizeInto o p).of_ok (optimize_ok hr)
    rw [← Nat.mul_assoc] at happlications
    refine ⟨?_, ?_, hfits.size, happlications, k, m, t, hpasses, hafter, hrun, hsame⟩
    · rw [hpasses]
      exact Nat.succ_pos k
    · rw [hpasses]
      exact hlt
  notConverged k q h := by
    have hgives := givesUp_of_optimize h
    generalize ((o.optimizeInto p).runOn .empty).2 = m at hgives ⊢
    cases hgives with
    | refused planless => cases planless
    | spent after => exact .inl ⟨rfl, _, after, after.renews⟩
    | part _ blames =>
      cases blames with
      | plain planless => cases planless
      | relayed relays => exact .inr relays
  tooManyGroups n q h := by
    have hgives := givesUp_of_optimize h
    generalize ((o.optimizeInto p).runOn .empty).2 = m at hgives ⊢
    cases hgives with
    | refused planless => cases planless
    | part _ blames =>
      cases blames with
      | plain planless => cases planless
      | full more => exact .inl ⟨more, rfl⟩
      | relayed relays => exact .inr relays

section Growing

/-- Raises the count of a limit up to a bound. -/
private def raising (bound : UInt64) : Rule where
  name := "Raising"
  family := "Raising"
  pattern := .ofKind .limit 1
  apply _ _
    | .limit offset count input =>
      .ok (if count < bound then [.replacement (.limit offset (count + 1) input)] else [])
    | _ => .ok []

/-- Puts one more limit below each limit, and so creates a group for the walk to come to. -/
private def nesting : Rule where
  name := "Nesting"
  family := "Nesting"
  pattern := .ofKind .limit 1
  apply _ _
    | .limit offset count input =>
      .ok [.replacement (.limit offset count (.limit offset (count + 1) input))]
    | _ => .ok []

private def growing (rule : Rule) (limits : Limits) : Optimizer :=
  ⟨Registry.empty.add rule, .indifferent, .empty, limits⟩

private def countless : Plan := .limit 0 0 (.scanAll "s" "t")

private def nestedLimits : Plan :=
  .limit 0 0 (.limit 0 1 (.limit 0 2 (.limit 0 3 (.scanAll "s" "t"))))

/-- A run that converges, one that spends its passes, and one that creates a group too many in its
first pass. -/
theorem budgeted_of_growing :
    ((growing (raising 2) { passes := 3 }).optimize countless).map Optimized.convergence =
        .ok ⟨3, 3⟩ ∧
      (growing (raising 2) { passes := 3 }).Budgeted countless ∧
      ((growing (raising 9) { passes := 3 }).optimize countless).map Optimized.convergence =
        .error (.notConverged 3 (.limit 0 3 (.scanAll "s" "t"))) ∧
      (growing (raising 9) { passes := 3 }).Budgeted countless ∧
      ((growing nesting { groups := 4 }).optimize countless).map Optimized.convergence =
        .error (.tooManyGroups 5 nestedLimits) ∧
      (growing nesting { groups := 4 }).Budgeted countless := by
  refine ⟨by decide +kernel, optimize_budgeted _ _, by decide +kernel, optimize_budgeted _ _,
    by decide +kernel, optimize_budgeted _ _⟩

/-- A rule answers with the fault of spent passes, and the run hands it on in its first pass of
three, though the model does not fail and there is room for all groups. -/
theorem not_spent_of_failing :
    countless.hasGroups = false ∧ CostModel.indifferent.Total ∧
      (growing (.failing (.notConverged 0 countless)) { passes := 3 }).limits.groups < UInt32.size ∧
      ¬ ∀ k q, (growing (.failing (.notConverged 0 countless)) { passes := 3 }).optimize countless =
        .error (.notConverged k q) → k = max 3 1 := by
  have hrun : ((growing (.failing (.notConverged 0 countless)) { passes := 3 }).optimize
      countless).map Optimized.convergence = .error (.notConverged 0 countless) := by decide +kernel
  refine ⟨rfl, fun _ _ _ => ⟨.eq, rfl⟩, by decide, fun hspent => ?_⟩
  exact absurd (hspent 0 countless (map_eq_error.mp hrun)) (by decide)

end Growing

end Optimizer

end PlanOptimizer
