import PlanOptimizer.Proofs.Fixpoint.Regime
import PlanOptimizer.Proofs.Fixpoint.Stirring
import PlanOptimizer.Proofs.Memo.Faults

/-!
# A pass is a walk that comes to its end

A pass explores groups, and each exploration may create more of them.  It visits no group twice,
and after each application of a rule the groups are counted.  So whenever a group is explored there
are no more groups than at the start of the pass or, if more are allowed, than that.  This is why a
walk never spends its budget (`Optimizer.walks_of_walk`): it is the loop without a budget
(`Optimizer.Walks`), and the loop ends.  This holds of a pass over any memo, also over one that had
more groups than allowed before the run (`Optimizer.exists_visits`).

*Faults.*  An exploration fails without a plan, or because there are too many groups, or with a
fault that it hands on (`Optimizer.Blames`).  It hands a fault on if a rule answers with it or if
the cost model does.  `Optimizer.Halts` tells what it has asked them then: the rule, about the
representative that it was to be offered; and the model, to compare two candidates of the group that
is ranked again, or an alternative with the representative.
-/

namespace PlanOptimizer

open Edit

namespace Optimizer

variable {o : Optimizer} {root id : GroupId} {pass room : Nat} {m m' m'' : Memo} {f : Fault}

/-! ## Faults that are handed on -/

/-- Offering plans to a group one after the other is broken off: one of them is an alternative, and
the cost model answers with a fault when it is asked to compare what the alternative comes down to
with the representative. -/
inductive Balks (o : Optimizer) (id : GroupId) (m : Memo) (xs : List Offer) (f : Fault) : Prop where
  /-- The offers before it have been made. -/
  | at_offer {before after : List Offer} {x : Offer} {changed : Bool} {m₁ m₂ : Memo} {s r : Shape}
      (offers : xs = before ++ x :: after)
      (offered : (o.offerAll id before).runOn m = (.ok changed, m₁))
      (run : (Memo.offer o.model id x).runOn m₁ = (.error f, m₂)) (alternative : x.forced = false)
      (normal : m₂.normal? x.plan = some s) (rep : m₂.rep? id = some r)
      (fault : o.model.compare s.overGroups r.overGroups m₂.lookup = .error f) : Balks o id m xs f

/-- Trying a rule on a group is broken off with a fault that is handed on. -/
inductive Breaks (o : Optimizer) (pass : Nat) (id : GroupId) (rule : Rule) (m : Memo) (f : Fault) :
    Prop where
  /-- The rule applies to the representative, and it answers with the fault. -/
  | answer {g : Group} (at_id : m.groups[id]? = some g) (fresh : rule.key ∉ g.explored)
      (fit : rule.applies m.lookup g.shape.overGroups = .ok true)
      (fault : rule.apply ⟨o.catalog, o.model, id, pass⟩ m.lookup g.shape.overGroups = .error f) :
      Breaks o pass id rule m f
  /-- The rule is applied, and the model answers with the fault about one of its offers. -/
  | offer {g : Group} {offers : List Offer} (at_id : m.groups[id]? = some g)
      (fresh : rule.key ∉ g.explored)
      (fit : rule.applies m.lookup g.shape.overGroups = .ok true)
      (answer : rule.apply ⟨o.catalog, o.model, id, pass⟩ m.lookup g.shape.overGroups = .ok offers)
      (balks : o.Balks id (m.edit id (·.explore rule.key)) offers f) : Breaks o pass id rule m f

/-- Trying some rules on a group is broken off: the rules before one of them have been tried. -/
inductive Stops (o : Optimizer) (root : GroupId) (pass : Nat) (id : GroupId) (rules : List Rule)
    (m : Memo) (f : Fault) : Prop where
  /-- That one is broken off. -/
  | at_rule {before after : List Rule} {rule : Rule} {t : Tally} {m₁ : Memo}
      (active : rules = before ++ rule :: after)
      (tried : (o.tryRules root pass id before).runOn m = (.ok t, m₁))
      (breaks : o.Breaks pass id rule m₁ f) : Stops o root pass id rules m f

/-- Exploring a group is broken off with a fault that is handed on. -/
inductive Halts (o : Optimizer) (root : GroupId) (pass : Nat) (id : GroupId) (m : Memo)
    (f : Fault) : Prop where
  /-- The group is ranked again, and the model answers with the fault when it is asked to compare
  one of the candidates with another one or with the representative. -/
  | rank {g : Group} {a b : Shape × Nat} (run : (Memo.rerank o.model id).runOn m = (.error f, m))
      (at_id : m.groups[id]? = some g) (challenger : a ∈ Memo.challengers g)
      (rival : b ∈ (g.shape, g.representative) :: Memo.challengers g)
      (fault : o.model.compare a.1.overGroups b.1.overGroups m.lookup = .error f) :
      Halts o root pass id m f
  /-- The group is ranked again, and then the rules are tried on it. -/
  | rules {moved : Bool} {m₁ : Memo} (ranked : (Memo.rerank o.model id).runOn m = (.ok moved, m₁))
      (stops : o.Stops root pass id o.rules m₁ f) : Halts o root pass id m f

theorem Balks.cons {x : Offer} {xs : List Offer} {outcome : Outcome}
    (hoffer : (Memo.offer o.model id x).runOn m = (.ok outcome, m')) (h : o.Balks id m' xs f) :
    o.Balks id m (x :: xs) f := by
  cases h with
  | @at_offer before _ _ changed m₁ _ _ _ hxs hoffered hrun halternative hnormal hrep hfault =>
    subst hxs
    have hboth : (o.offerAll id (x :: before)).runOn m = (.ok (outcome.isChange || changed), m₁) :=
      (runOn_bind_of_ok hoffer _).trans (runOn_bind_of_ok hoffered _)
    exact .at_offer (List.cons_append ..).symm hboth hrun halternative hnormal hrep hfault

theorem Stops.cons {rule : Rule} {rules : List Rule} {t : Tally}
    (hrule : (o.tryRule root pass id rule).runOn m = (.ok t, m'))
    (h : o.Stops root pass id rules m' f) : o.Stops root pass id (rule :: rules) m f := by
  cases h with
  | @at_rule before _ _ t' m₁ hrules htried hbreaks =>
    subst hrules
    have hboth : (o.tryRules root pass id (rule :: before)).runOn m = (.ok (t.add t'), m₁) :=
      (runOn_bind_of_ok hrule _).trans (runOn_bind_of_ok htried _)
    exact .at_rule (List.cons_append ..).symm hboth hbreaks

/-! ### What is handed on is what the part of the run answers -/

theorem runOn_offerAll_append_of_error {before rest : List Offer} {changed : Bool} : ∀ {m : Memo},
    (o.offerAll id before).runOn m = (.ok changed, m') →
      (o.offerAll id rest).runOn m' = (.error f, m'') →
        (o.offerAll id (before ++ rest)).runOn m = (.error f, m'') := by
  induction before generalizing changed with
  | nil =>
    intro m hbefore hrest
    cases hbefore
    exact hrest
  | cons x before ih =>
    intro m hbefore hrest
    obtain ⟨outcome, tail, m₁, hoffer, htail, -⟩ := offerAll_cons_ok hbefore
    exact (runOn_bind_of_ok hoffer _).trans (runOn_bind_of_error (ih htail hrest) _)

theorem runOn_tryRules_append_of_error {before rest : List Rule} {t : Tally} : ∀ {m : Memo},
    (o.tryRules root pass id before).runOn m = (.ok t, m') →
      (o.tryRules root pass id rest).runOn m' = (.error f, m'') →
        (o.tryRules root pass id (before ++ rest)).runOn m = (.error f, m'') := by
  induction before generalizing t with
  | nil =>
    intro m hbefore hrest
    cases hbefore
    exact hrest
  | cons rule before ih =>
    intro m hbefore hrest
    obtain ⟨first, tail, m₁, hfirst, htail, -⟩ := tryRules_cons_ok hbefore
    exact (runOn_bind_of_ok hfirst _).trans (runOn_bind_of_error (ih htail hrest) _)

theorem Balks.exists_run {xs : List Offer} (h : o.Balks id m xs f) :
    ∃ m', (o.offerAll id xs).runOn m = (.error f, m') := by
  obtain ⟨rfl, hoffered, hrun⟩ := h
  exact ⟨_, runOn_offerAll_append_of_error hoffered (runOn_bind_of_error hrun _)⟩

theorem Breaks.exists_run {rule : Rule} (h : o.Breaks pass id rule m f) (root : GroupId) :
    ∃ m', (o.tryRule root pass id rule).runOn m = (.error f, m') := by
  have hlookup := m.lookup_explore id rule.key
  -- up to the application of the rule
  have happlied : ∀ {g : Group}, m.groups[id]? = some g → rule.key ∉ g.explored →
      rule.applies m.lookup g.shape.overGroups = .ok true →
      (o.tryRule root pass id rule).runOn m =
        (do
          let offers ← Edit.ask fun m =>
            rule.apply ⟨o.catalog, o.model, id, pass⟩ m.lookup g.shape.overGroups
          let changed ← o.offerAll id offers
          Edit.ask (o.checkSize root)
          return ⟨changed, 1⟩ : Edit Tally).runOn (m.edit id (·.explore rule.key)) := by
    intro g hat hfresh hfit
    unfold tryRule
    rw [runOn_ask_bind, Memo.group_eq_ok_iff.mpr hat]
    dsimp only
    rw [if_neg hfresh, runOn_bind_of_ok (Memo.runOn_markExplored_of_group hat rule.key),
      runOn_ask_bind, hlookup, hfit]
    rfl
  cases h with
  | answer hat hfresh hfit hfault =>
    rw [happlied hat hfresh hfit, runOn_ask_bind, hlookup, hfault]
    exact ⟨_, rfl⟩
  | offer hat hfresh hfit hanswer hbalks =>
    obtain ⟨m', hrun⟩ := hbalks.exists_run
    refine ⟨m', (happlied hat hfresh hfit).trans ?_⟩
    rw [runOn_ask_bind, hlookup, hanswer]
    exact runOn_bind_of_error hrun _

/-- An exploration that hands a fault on fails with it. -/
theorem Halts.exists_run (h : o.Halts root pass id m f) :
    ∃ m', (o.explore root pass id).runOn m = (.error f, m') := by
  cases h with
  | rank hrun => exact ⟨m, runOn_bind_of_error hrun _⟩
  | rules hranked hstops =>
    obtain ⟨hactive, htried, hbreaks⟩ := hstops
    obtain ⟨m', hrun⟩ := hbreaks.exists_run root
    refine ⟨m', (runOn_bind_of_ok hranked _).trans (runOn_bind_of_error ?_ _)⟩
    rw [hactive]
    exact runOn_tryRules_append_of_error htried (runOn_bind_of_error hrun _)

/-! ## What a part of a run keeps to -/

/-- A memo between two parts of a run. -/
structure Fits (root : GroupId) (room : Nat) (m : Memo) : Prop where
  /-- Calls lead to the memo. -/
  reachable : m.Reachable
  /-- The root exists. -/
  live : root < m.size
  /-- There are no more groups than there is room for. -/
  size : m.size ≤ room

/-- The root resolves to a plan. -/
theorem Fits.best (h : Fits root room m) : ∃ q, m.best? root = .ok q := by
  obtain ⟨q, hq, -⟩ := h.reachable.valid.resolve_ok h.live
  exact ⟨q, hq⟩

/-- A part of a run leads to a later memo and applies rules at most so often. -/
structure Stays (root : GroupId) (room : Nat) (m : Memo) (most : Nat) (t : Tally) (m' : Memo) :
    Prop where
  /-- There are no more groups than there is room for. -/
  fits : Fits root room m'
  /-- Nothing is taken away. -/
  ext : m.Extends m'
  /-- Rules are applied at most so often. -/
  applications : t.applications ≤ most

theorem stays_refl (h : Fits root room m) : Stays root room m 0 {} m :=
  ⟨h, .refl m, Nat.le_refl 0⟩

theorem Stays.trans {j k : Nat} {s t : Tally} (h : Stays root room m j s m')
    (h' : Stays root room m' k t m'') : Stays root room m (j + k) (s.add t) m'' :=
  ⟨h'.fits, h.ext.trans h'.ext, Nat.add_le_add h.applications h'.applications⟩

/-- What a part of a run fails with. -/
inductive Blames (o : Optimizer) (root : GroupId) (handed : Fault → Prop) :
    Fault → Memo → Prop where
  /-- The fault carries no plan. -/
  | plain {f : Fault} {m : Memo} (planless : f.best? = none) : Blames o root handed f m
  /-- There are more groups than allowed, and the fault carries the plan of the root. -/
  | full {q : Plan} {m : Memo} (more : o.limits.groups < m.size) (best : m.best? root = .ok q) :
      Blames o root handed (.tooManyGroups m.size q) m
  /-- The fault is handed on. -/
  | relayed {f : Fault} {m : Memo} (h : handed f) : Blames o root handed f m

theorem Blames.imp {handed handed' : Fault → Prop} (h : o.Blames root handed f m)
    (himp : handed f → handed' f) : o.Blames root handed' f m := by
  cases h with
  | plain hplain => exact .plain hplain
  | full hmore hbest => exact .full hmore hbest
  | relayed h => exact .relayed (himp h)

/-! ## Exploring a group -/

theorem meets_offerAll {xs : List Offer} : ∀ {m : Memo}, m.Reachable → id < m.size →
    (o.offerAll id xs).Meets m (fun _ m' => m'.Reachable ∧ m.Extends m')
      (o.Blames root (o.Balks id m xs)) := by
  induction xs with
  | nil =>
    intro m hm _
    exact meets_of_ok (runOn_pure _ _) ⟨hm, .refl m⟩
  | cons x xs ih =>
    intro m hm hid
    obtain ⟨r, m₁, hoffer, hoffering⟩ := Memo.offer_cases hm.valid o.model id x
    cases r with
    | error f =>
      refine meets_of_error (runOn_bind_of_error hoffer _) ?_
      rcases hoffering.fault hm.valid hid with hnone | ⟨hforced, s, r, hs, hr, hfault⟩
      · exact .plain hnone
      · exact .relayed (.at_offer (List.nil_append _).symm rfl hoffer hforced hs hr hfault)
    | ok outcome =>
      have hext := (hoffering.changes hm.valid).moves.extends
      refine meets_bind_of_ok hoffer ?_
      have hrest := ih (hm.of_offer hoffer) (hext.size_le hid)
      refine (hrest.imp (fun _ _ h => h) fun f m' h => h.imp (.cons hoffer)).bind ?_
      intro rest m₂ h₂
      exact meets_of_ok (runOn_pure _ _) ⟨h₂.1, hext.trans h₂.2⟩

/-- Ranking a group creates none and applies no rule. -/
theorem meets_rerank (hm : Fits root room m) :
    (Memo.rerank o.model id).Meets m (fun moved => Stays root room m 0 ⟨moved, 0⟩)
      (o.Blames root (o.Halts root pass id m)) := by
  obtain ⟨r, m', hrun, hranking⟩ := Memo.rerank_cases o.model id m
  have hext := hranking.changes.moves.extends
  cases r with
  | ok moved =>
    refine meets_of_ok hrun ⟨⟨hm.reachable.of_rerank hrun, hext.size_le hm.live, ?_⟩, hext,
      Nat.le_refl 0⟩
    rw [hranking.size_eq]
    exact hm.size
  | error f =>
    refine meets_of_error hrun ?_
    rcases hranking.fault with hnone | ⟨rfl, g, hg, a, ha, b, hb, hfault⟩
    · exact .plain hnone
    · exact .relayed (.rank hrun hg ha hb hfault)

theorem fits_of_checkSize (hm : m.Reachable) (hroot : root < m.size)
    (h : o.checkSize root m = .ok ()) : Fits root o.limits.groups m := by
  rcases checkSize_cases hm hroot with ⟨hle, -⟩ | ⟨q, -, -, hcheck⟩
  · exact ⟨hm, hroot, hle⟩
  · cases h.symm.trans hcheck

theorem blames_of_checkSize {handed : Fault → Prop} (hm : m.Reachable) (hroot : root < m.size)
    (h : o.checkSize root m = .error f) : o.Blames root handed f m := by
  rcases checkSize_cases hm hroot with ⟨-, hcheck⟩ | ⟨q, hlt, hbest, hcheck⟩
  · cases h.symm.trans hcheck
  · cases h.symm.trans hcheck
    exact .full hlt hbest

section Room

variable (hroom : o.limits.groups ≤ room)

include hroom

/-- A rule is applied to a group once at most, and then the groups are counted. -/
theorem meets_tryRule (hm : Fits root room m) (rule : Rule) :
    (o.tryRule root pass id rule).Meets m (Stays root room m 1)
      (o.Blames root (o.Breaks pass id rule m)) := by
  refine meets_ask_cases (fun g hg => ?_) fun f hf => .plain (Memo.best?_of_group hf)
  rw [Memo.group_eq_ok_iff] at hg
  split
  · exact meets_of_ok (runOn_pure _ _) ⟨hm, .refl m, Nat.zero_le 1⟩
  next hfresh =>
  have hlookup := m.lookup_explore id rule.key
  have hreach := hm.reachable.explore hg rule.key
  have hext : m.Extends (m.edit id (·.explore rule.key)) := (Memo.Explore.explore hg).extends
  have hsize : (m.edit id (·.explore rule.key)).size ≤ room := (m.size_edit id _).trans_le hm.size
  have hroot := hext.size_le hm.live
  refine meets_bind_of_ok (Memo.runOn_markExplored_of_group hg rule.key) ?_
  refine meets_ask_cases (fun fit hfit => ?_) fun f hf => .plain (Rule.best?_of_applies hf)
  cases fit with
  | false => exact meets_of_ok (runOn_pure _ _) ⟨⟨hreach, hroot, hsize⟩, hext, Nat.zero_le 1⟩
  | true =>
    rw [hlookup] at hfit
    refine meets_ask_cases (fun offers hanswer => ?_) fun f hfault => ?_
    · rw [hlookup] at hanswer
      have hid := hext.size_le (Memo.lt_size_iff.mpr ⟨g, hg⟩)
      refine ((meets_offerAll hreach hid).imp (fun _ _ h => h) fun f m' h =>
        h.imp (.offer hg hfresh hfit hanswer)).bind fun changed m₂ h₂ => ?_
      have hroot₂ := h₂.2.size_le hroot
      refine meets_ask_cases (fun _ hcheck => ?_) fun f hf => blames_of_checkSize h₂.1 hroot₂ hf
      obtain ⟨-, -, hallowed⟩ := fits_of_checkSize h₂.1 hroot₂ hcheck
      exact meets_of_ok (runOn_pure _ _)
        ⟨⟨h₂.1, hroot₂, hallowed.trans hroom⟩, hext.trans h₂.2, Nat.le_refl 1⟩
    · rw [hlookup] at hfault
      exact .relayed (.answer hg hfresh hfit hfault)

theorem meets_tryRules {rules : List Rule} : ∀ {m : Memo}, Fits root room m →
    (o.tryRules root pass id rules).Meets m (Stays root room m rules.length)
      (o.Blames root (o.Stops root pass id rules m)) := by
  induction rules with
  | nil =>
    intro m hm
    exact meets_of_ok (runOn_pure _ _) (stays_refl hm)
  | cons rule rules ih =>
    intro m hm
    have hfirst : (o.tryRule root pass id rule).Meets m (Stays root room m 1)
        (o.Blames root (o.Breaks pass id rule m)) := meets_tryRule hroom hm rule
    rcases hfirst.run with ⟨first, m₁, hrun, hstays⟩ | ⟨f, m₁, hrun, hblames⟩
    · refine meets_bind_of_ok hrun ?_
      have hrest := ih hstays.fits
      refine (hrest.imp (fun _ _ h => h) fun f m' h => h.imp (.cons hrun)).bind ?_
      intro rest m₂ hlast
      refine meets_of_ok (runOn_pure _ _) ?_
      rw [List.length_cons, Nat.add_comm]
      exact hstays.trans hlast
    · refine meets_of_error (runOn_bind_of_error hrun _) (hblames.imp fun hbreaks => ?_)
      exact .at_rule (List.nil_append _).symm rfl hbreaks

/-- When a group is explored, each active rule is applied to it once at most. -/
theorem meets_explore (hm : Fits root room m) :
    (o.explore root pass id).Meets m (Stays root room m o.rules.length)
      (o.Blames root (o.Halts root pass id m)) := by
  have hrank : (Memo.rerank o.model id).Meets m (fun moved => Stays root room m 0 ⟨moved, 0⟩)
      (o.Blames root (o.Halts root pass id m)) := meets_rerank hm
  rcases hrank.run with ⟨moved, m₁, hrun, hranked⟩ | ⟨f, m₁, hrun, hblames⟩
  · refine meets_bind_of_ok hrun ?_
    have hrules : (o.tryRules root pass id o.rules).Meets m₁ (Stays root room m₁ o.rules.length)
        (o.Blames root (o.Stops root pass id o.rules m₁)) := meets_tryRules hroom hranked.fits
    refine (hrules.imp (fun _ _ h => h) fun f m' h => h.imp (.rules hrun)).bind ?_
    intro tally m₂ htried
    refine meets_of_ok (runOn_pure _ _) ?_
    rw [← Nat.zero_add o.rules.length]
    exact hranked.trans htried
  · exact meets_of_error (runOn_bind_of_error hrun _) hblames

end Room

/-! ## Walks -/

/-- A walk without a budget: from the groups that have been visited and those that are pending, it
explores some groups, each in the memo that it finds, and comes to an answer.  A pending group that
has been visited is passed over.  When a group has been explored, the groups below its
representative come before the others. -/
inductive Walks (o : Optimizer) (root : GroupId) (pass : Nat) : List GroupId → List GroupId →
    Memo → List (GroupId × Memo) → Except Fault Tally → Memo → Prop where
  /-- No group is pending. -/
  | done {visited : List GroupId} {m : Memo} : Walks o root pass visited [] m [] (.ok {}) m
  /-- The group has been visited. -/
  | skip {id : GroupId} {visited pending : List GroupId} {visits : List (GroupId × Memo)}
      {m m' : Memo} {r : Except Fault Tally} (seen : id ∈ visited)
      (walks : Walks o root pass visited pending m visits r m') :
      Walks o root pass visited (id :: pending) m visits r m'
  /-- The group cannot be explored. -/
  | fails {id : GroupId} {visited pending : List GroupId} {m m' : Memo} {f : Fault}
      (fresh : id ∉ visited) (run : (o.explore root pass id).runOn m = (.error f, m')) :
      Walks o root pass visited (id :: pending) m [(id, m)] (.error f) m'
  /-- The group is explored, and the walk goes on. -/
  | step {id : GroupId} {visited pending : List GroupId} {visits : List (GroupId × Memo)}
      {m m₁ m' : Memo} {here : Tally} {s : Shape} {r : Except Fault Tally} (fresh : id ∉ visited)
      (run : (o.explore root pass id).runOn m = (.ok here, m₁)) (rep : m₁.rep? id = some s)
      (walks : Walks o root pass (id :: visited) (s.inputs ++ pending) m₁ visits r m') :
      Walks o root pass visited (id :: pending) m ((id, m) :: visits) (r.map here.add) m'

variable {visited pending : List GroupId} {visits : List (GroupId × Memo)} {r : Except Fault Tally}

/-- The groups that have been visited are passed over. -/
theorem Walks.of_dropWhile {rest : List GroupId} (hrest : pending.dropWhile visited.contains = rest)
    (h : o.Walks root pass visited rest m visits r m') :
    o.Walks root pass visited pending m visits r m' := by
  induction pending with
  | nil =>
    cases hrest
    exact h
  | cons a as ih =>
    rw [List.dropWhile_cons] at hrest
    split at hrest
    · next ha => exact .skip (List.contains_iff_mem.mp ha) (ih hrest)
    · cases hrest
      exact h

/-- After a step of a walk all groups that are pending exist. -/
theorem live_of_explore {here : Tally} {s : Shape} {k : Nat} (h : Stays root room m k here m')
    (hrep : m'.rep? id = some s) (hpending : ∀ x ∈ pending, x < m.size) :
    ∀ x ∈ s.inputs ++ pending, x < m'.size :=
  List.forall_mem_append.mpr
    ⟨h.fits.reachable.valid.live_rep hrep, fun x hx => h.ext.size_le (hpending x hx)⟩

/-- A walk explores no group twice, and none that has been visited. -/
theorem Walks.nodup (h : o.Walks root pass visited pending m visits r m') :
    (visits.map Prod.fst).Nodup ∧ ∀ x ∈ visits.map Prod.fst, x ∉ visited := by
  induction h with
  | done => exact ⟨List.nodup_nil, fun _ hx => nomatch hx⟩
  | skip _ _ ih => exact ih
  | fails fresh _ => exact ⟨List.nodup_singleton _, List.forall_mem_singleton.mpr fresh⟩
  | step fresh _ _ _ ih =>
    obtain ⟨hnodup, hnew⟩ := ih
    refine ⟨List.nodup_cons.mpr ⟨fun hin => hnew _ hin List.mem_cons_self, hnodup⟩, ?_⟩
    exact List.forall_mem_cons.mpr ⟨fresh, fun x hx hin => hnew x hx (List.mem_cons_of_mem _ hin)⟩

/-- A walk fails if exploring one of its groups does. -/
theorem Walks.error_of_visit {m₁ m₂ : Memo} (h : o.Walks root pass visited pending m visits r m')
    (hvisit : (id, m₁) ∈ visits) (hrun : (o.explore root pass id).runOn m₁ = (.error f, m₂)) :
    r = .error f := by
  induction h with
  | done => cases hvisit
  | skip _ _ ih => exact ih hvisit
  | fails _ run =>
    cases List.mem_singleton.mp hvisit
    cases run.symm.trans hrun
    rfl
  | step _ run _ _ ih =>
    rcases List.mem_cons.mp hvisit with heq | hvisit
    · cases heq
      cases run.symm.trans hrun
    · rw [ih hvisit]
      rfl

section Room

variable (hroom : o.limits.groups ≤ room)

include hroom

/-- The groups that a walk has visited are all different, so there are no more of them than groups,
and a budget of all groups that there is room for is never spent. -/
theorem walks_of_walk (budget : Nat) : ∀ {visited pending : List GroupId} {m : Memo},
    Fits root room m → visited.Nodup → (∀ x ∈ visited, x < m.size) → (∀ x ∈ pending, x < m.size) →
      room ≤ budget + visited.length →
      ∃ visits r m', (o.walk root pass budget visited pending).runOn m = (r, m') ∧
        o.Walks root pass visited pending m visits r m' := by
  induction budget with
  | zero =>
    intro visited pending m hm hnodup hlive hpending hbudget
    unfold walk
    split
    · next hnil => exact ⟨[], _, m, rfl, .of_dropWhile hnil .done⟩
    · next id rest hcons =>
      obtain ⟨hnew, hid, -, -⟩ := dropWhile_cons_spec hcons
      have hmore := Memo.length_lt_size hnodup hlive (hpending id hid) hnew
      have hfits := hm.size
      omega
  | succ budget ih =>
    intro visited pending m hm hnodup hlive hpending hbudget
    unfold walk
    split
    · next hnil => exact ⟨[], _, m, rfl, .of_dropWhile hnil .done⟩
    · next id rest hcons =>
      obtain ⟨hnew, hid, hrest, -⟩ := dropWhile_cons_spec hcons
      have hidlt := hpending id hid
      rcases (meets_explore hroom hm).run with ⟨here, m₁, hrun, hstays⟩ | ⟨f, m₁, hrun, -⟩
      · obtain ⟨s, hs⟩ := Memo.rep?_of_lt (hstays.ext.size_le hidlt)
        have hgrown : ∀ {x}, x < m.size → x < m₁.size := hstays.ext.size_le
        have hvisited : ∀ x ∈ id :: visited, x < m₁.size :=
          List.forall_mem_cons.mpr ⟨hgrown hidlt, fun x hx => hgrown (hlive x hx)⟩
        have hbelow := live_of_explore hstays hs fun x hx => hpending x (hrest x hx)
        obtain ⟨visits, r, m', hwalk, hwalks⟩ := ih hstays.fits (List.nodup_cons.mpr ⟨hnew, hnodup⟩)
          hvisited hbelow (by rw [List.length_cons]; omega)
        refine ⟨(id, m) :: visits, r.map here.add, m', ?_,
          .of_dropWhile hcons (.step hnew hrun hs hwalks)⟩
        rw [runOn_bind_of_ok hrun, runOn_ask_bind, Memo.shape_of_rep hs]
        change (here.add <$>
          o.walk root pass budget (id :: visited) (s.inputs ++ rest)).runOn m₁ = _
        rw [runOn_map, hwalk]
      · exact ⟨[(id, m)], .error f, m₁, runOn_bind_of_error hrun _,
          .of_dropWhile hcons (.fails hnew hrun)⟩

/-- Whenever a walk explores a group, there are no more groups than there is room for. -/
theorem Walks.lt_room (h : o.Walks root pass visited pending m visits r m') (hm : Fits root room m)
    (hpending : ∀ x ∈ pending, x < m.size) : ∀ x ∈ visits.map Prod.fst, x < room := by
  induction h with
  | done => exact fun _ hx => nomatch hx
  | skip _ _ ih => exact ih hm (List.forall_mem_cons.mp hpending).2
  | fails _ _ =>
    exact List.forall_mem_singleton.mpr (Nat.lt_of_lt_of_le (hpending _ List.mem_cons_self) hm.size)
  | step _ run rep _ ih =>
    obtain ⟨hid, hpending⟩ := List.forall_mem_cons.mp hpending
    have hstays := (meets_explore hroom hm).of_ok run
    have hbelow := ih hstays.fits (live_of_explore hstays rep hpending)
    exact List.forall_mem_cons.mpr ⟨Nat.lt_of_lt_of_le hid hm.size, hbelow⟩

/-- A walk applies each active rule once at most to each group that it explores. -/
theorem Walks.stays (h : o.Walks root pass visited pending m visits r m') (hm : Fits root room m)
    (hpending : ∀ x ∈ pending, x < m.size) {t : Tally} (hr : r = .ok t) :
    Stays root room m (visits.length * o.rules.length) t m' ∧
      ∀ x ∈ visits.map Prod.fst, x < m'.size := by
  induction h generalizing t with
  | done =>
    cases hr
    rw [List.length_nil, Nat.zero_mul]
    exact ⟨stays_refl hm, fun _ hx => nomatch hx⟩
  | skip _ _ ih => exact ih hm (List.forall_mem_cons.mp hpending).2 hr
  | fails _ _ => cases hr
  | step _ run rep _ ih =>
    obtain ⟨hid, hpending⟩ := List.forall_mem_cons.mp hpending
    obtain ⟨below, rfl, rfl⟩ := map_eq_ok.mp hr
    have hstays := (meets_explore hroom hm).of_ok run
    obtain ⟨hbelow, hlive⟩ := ih hstays.fits (live_of_explore hstays rep hpending) rfl
    rw [List.length_cons, Nat.succ_mul, Nat.add_comm]
    refine ⟨hstays.trans hbelow, List.forall_mem_cons.mpr ⟨?_, hlive⟩⟩
    exact hbelow.ext.size_le (hstays.ext.size_le hid)

/-- A walk fails with what exploring one of its groups fails with. -/
theorem Walks.blames (h : o.Walks root pass visited pending m visits r m') (hm : Fits root room m)
    (hr : r = .error f) :
    o.Blames root (fun f => ∃ v ∈ visits, o.Halts root pass v.1 v.2 f) f m' := by
  induction h with
  | done => cases hr
  | skip _ _ ih => exact ih hm hr
  | fails _ run =>
    cases hr
    exact ((meets_explore hroom hm).of_error run).imp fun hhalts => ⟨_, List.mem_cons_self, hhalts⟩
  | step _ run _ _ ih =>
    have hfits := ((meets_explore hroom hm).of_ok run).fits
    exact (ih hfits (map_eq_error.mp hr)).imp fun ⟨v, hv, hhalts⟩ =>
      ⟨v, List.mem_cons_of_mem _ hv, hhalts⟩

/-- A walk that reports a change has changed a group when it explored the group. -/
theorem Walks.renews (h : o.Walks root pass visited pending m visits r m') (hm : Fits root room m)
    {t : Tally} (hr : r = .ok t) (ht : t.changed = true) :
    ∃ v ∈ visits, o.Renews root pass v.1 v.2 := by
  induction h generalizing t with
  | done =>
    cases hr
    cases ht
  | skip _ _ ih => exact ih hm hr ht
  | fails _ _ => cases hr
  | step _ run _ _ ih =>
    obtain ⟨below, rfl, rfl⟩ := map_eq_ok.mp hr
    rcases Bool.or_eq_true_iff.mp ht with hchanged | hchanged
    · exact ⟨_, List.mem_cons_self, renews_explore hm.reachable run hchanged⟩
    · obtain ⟨v, hv, hrenews⟩ := ih ((meets_explore hroom hm).of_ok run).fits rfl hchanged
      exact ⟨v, List.mem_cons_of_mem _ hv, hrenews⟩

end Room

/-! ## Passes -/

/-- The groups that a pass explores, each with the memo that it finds. -/
def Visits (o : Optimizer) (root : GroupId) (pass : Nat) (m : Memo)
    (visits : List (GroupId × Memo)) : Prop :=
  ∃ r m', (o.runPass root pass).runOn m = (r, m') ∧ o.Walks root pass [] [root] m visits r m'

/-- **The budget of a walk is never spent.**  A pass over any memo that calls lead to is a walk
without a budget, however many groups the memo has and the rules create. -/
theorem exists_visits (pass : Nat) (hm : m.Reachable) (hroot : root < m.size) :
    ∃ visits, o.Visits root pass m visits := by
  have hfits : Fits root (max m.size o.limits.groups) m := ⟨hm, hroot, Nat.le_max_left _ _⟩
  refine walks_of_walk (Nat.le_max_right _ _) _ hfits List.nodup_nil (fun _ hx => nomatch hx) ?_ ?_
  · exact List.forall_mem_singleton.mpr hroot
  · exact Nat.le_add_right _ _

/-- No more groups are explored in a pass than there is room for. -/
theorem Walks.length_le (hroom : o.limits.groups ≤ room)
    (h : o.Walks root pass [] [root] m visits r m') (hm : Fits root room m) :
    visits.length ≤ room := by
  have hlt := h.lt_room hroom hm (List.forall_mem_singleton.mpr hm.live)
  have hle := Memo.length_le_of_lt h.nodup.1 hlt
  rwa [List.length_map] at hle

/-- A pass applies each active rule once at most to each group. -/
theorem meets_runPass (hroom : o.limits.groups ≤ room) (pass : Nat) (hm : Fits root room m) :
    (o.runPass root pass).Meets m (fun t m' => Stays root room m (m'.size * o.rules.length) t m')
      (o.Blames root fun f => ∃ visits, o.Visits root pass m visits ∧
        ∃ v ∈ visits, o.Halts root pass v.1 v.2 f) := by
  obtain ⟨visits, r, m', hrun, hwalks⟩ := o.exists_visits pass hm.reachable hm.live
  cases r with
  | error f =>
    refine meets_of_error hrun ((hwalks.blames hroom hm rfl).imp fun hhalts => ?_)
    exact ⟨visits, ⟨_, m', hrun, hwalks⟩, hhalts⟩
  | ok t =>
    obtain ⟨hstays, hlive⟩ := hwalks.stays hroom hm (List.forall_mem_singleton.mpr hm.live) rfl
    have hlength := Memo.length_le_of_lt hwalks.nodup.1 hlive
    rw [List.length_map] at hlength
    exact meets_of_ok hrun ⟨hstays.fits, hstays.ext,
      hstays.applications.trans (Nat.mul_le_mul_right _ hlength)⟩

end Optimizer

end PlanOptimizer
