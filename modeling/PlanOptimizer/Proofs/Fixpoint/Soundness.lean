import PlanOptimizer.Proofs.Fixpoint.Budgets
import PlanOptimizer.Proofs.Memo.Meaning
import PlanOptimizer.Rule.FilterMerge

/-!
# Sound rules keep the meaning

A rule is sound for a meaning if what it offers means what the plan means that it was
handed.  If all active rules are sound, every group has one meaning throughout a run,
whatever the cost model ranks first: the optimized plan means what the input means, and
so does the plan inside the fault of a budget that the run has spent.

A rule may answer with any fault, also with one that carries a plan, and so may a cost
model.  A run hands such a fault on (`Optimizer.Relays`), and of the plan in it nothing
is known.
-/

namespace PlanOptimizer

open Edit

universe u

/-- What a rule offers means what the plan means that it is handed, whenever the
representative of each group means what is assigned to the group. -/
def Rule.Sound {V : Type u} (M : Meaning V) (rule : Rule) : Prop :=
  ∀ (m : Memo) (D : GroupId → V), m.Reachable → (∀ id s, m.rep? id = some s → M.shape D s = D id) →
    ∀ context p offers, rule.apply context m.lookup p = .ok offers →
      ∀ x ∈ offers, M.value D x.plan = M.value D p

namespace Optimizer

variable {V : Type u} {M : Meaning V} {o : Optimizer} {root : GroupId} {v : V} {m m' : Memo}
  {D E : GroupId → V} {α β : Type}

/-! ## The invariant -/

/-- A memo in the middle of a run: the root exists, every group has one meaning, and that
of the root is the meaning of the input. -/
structure Stage (M : Meaning V) (root : GroupId) (v : V) (m : Memo) (D : GroupId → V) : Prop where
  /-- Calls lead to the memo. -/
  reachable : m.Reachable
  /-- The root exists. -/
  live : root < m.size
  /-- Every candidate of a group means what the group means. -/
  models : M.Models D m
  /-- The root means what the input means. -/
  means : D root = v

/-- The plan that the root resolves to has the meaning of the input. -/
theorem Stage.value_best (h : Stage M root v m D) {q : Plan} (hq : m.best? root = .ok q) :
    ∀ E, M.value E q = v := by
  obtain ⟨q', hq', hclosed⟩ := h.reachable.valid.resolve_ok h.live
  obtain rfl : q' = q := Except.ok.inj (hq'.symm.trans hq)
  intro E
  rw [Meaning.value_of_hasGroups hclosed E D, h.models.resolve hq', h.means]

/-- A plan without references is inserted into a group that means what the plan means. -/
theorem stage_of_insert {p : Plan} (hp : p.hasGroups = false) (D : GroupId → V)
    (hinsert : (Memo.insert p).runOn .empty = (.ok root, m)) :
    ∃ E, Stage M root (M.value D p) m E := by
  obtain ⟨m₁, hgrows, ⟨root', hrun, hfind⟩ | ⟨i, hrun⟩⟩ := Memo.insert_cases p Memo.valid_empty
  · cases hrun.symm.trans hinsert
    obtain ⟨E, -, hmodels⟩ := (Meaning.models_empty D).grows Memo.valid_empty hgrows
    have hv := hgrows.valid Memo.valid_empty
    have hmeans : E root = M.value D p := by
      rw [← hmodels.find? hv hfind, Meaning.value_of_hasGroups hp E D]
    exact ⟨E, Memo.Reachable.empty.of_insert hinsert,
      hv.lt_of_find? hfind, hmodels, hmeans⟩
  · cases hrun.symm.trans hinsert

/-- An operation keeps the invariant, whether it succeeds or fails.  Groups that are there keep
their meanings. -/
def Sustains (M : Meaning V) (root : GroupId) (v : V) (e : Edit α) (m : Memo) (D : GroupId → V) :
    Prop :=
  ∃ E, (∀ i < m.size, E i = D i) ∧ Stage M root v (e.runOn m).2 E

/-- A question keeps the invariant. -/
theorem Sustains.ask (h : Stage M root v m D) (g : Memo → Except Fault α) :
    Sustains M root v (Edit.ask g) m D :=
  ⟨D, fun _ _ => rfl, h⟩

theorem Sustains.pure (h : Stage M root v m D) (a : α) :
    Sustains M root v (pure a : Edit α) m D :=
  ⟨D, fun _ _ => rfl, h⟩

theorem Sustains.throw (h : Stage M root v m D) (f : Fault) :
    Sustains M root v (throw f : Edit α) m D :=
  ⟨D, fun _ _ => rfl, h⟩

/-- One operation after the other keeps the invariant. -/
theorem Sustains.bind {e : Edit α} {f : α → Edit β} (hscript : e.Scripted)
    (hm : m.Reachable) (he : Sustains M root v e m D)
    (hf : ∀ a m' E, e.runOn m = (.ok a, m') → m.size ≤ m'.size → (∀ i < m.size, E i = D i) →
      Stage M root v m' E → Sustains M root v (f a) m' E) :
    Sustains M root v (e >>= f) m D := by
  obtain ⟨E, hE, hstage⟩ := he
  have hsize : ∀ i < m.size, i < (e.runOn m).2.size := fun i hi =>
    (hscript.moves hm).extends.size_le hi
  unfold Sustains
  rcases hrun : e.runOn m with ⟨x | a, m'⟩
  · rw [hrun] at hstage
    rw [runOn_bind_of_error hrun]
    exact ⟨E, hE, hstage⟩
  · rw [hrun] at hstage hsize
    have hle := (hscript.extends_of_run hm hrun).size_mono
    obtain ⟨F, hF, hstage'⟩ := hf a m' E hrun hle hE hstage
    rw [runOn_bind_of_ok hrun]
    exact ⟨F, fun i hi => (hF i (hsize i hi)).trans (hE i hi), hstage'⟩

/-! ## Calls -/

theorem sustains_offer (h : Stage M root v m D) {id : GroupId} (hid : id < m.size) {x : Offer}
    (hmean : ∀ E, (∀ i < m.size, E i = D i) → M.value E x.plan = D id) :
    Sustains M root v (Memo.offer o.model id x) m D := by
  have hv := h.reachable.valid
  obtain ⟨r, m', hrun, hoffer⟩ := Memo.offer_cases hv o.model id x
  obtain ⟨E, hE, hmodels⟩ := h.models.offering hv hid hmean hoffer
  have hlive := (hoffer.changes hv).moves.extends.size_le h.live
  refine ⟨E, hE, ?_⟩
  rw [hrun]
  exact ⟨h.reachable.of_offer hrun, hlive, hmodels, (hE root h.live).trans h.means⟩

theorem sustains_rerank (h : Stage M root v m D) (id : GroupId) :
    Sustains M root v (Memo.rerank o.model id) m D := by
  obtain ⟨r, m', hrun, hrank⟩ := Memo.rerank_cases o.model id m
  have hlive := hrank.changes.moves.extends.size_le h.live
  refine ⟨D, fun _ _ => rfl, ?_⟩
  rw [hrun]
  exact ⟨h.reachable.of_rerank hrun, hlive, h.models.ranking hrank, h.means⟩

theorem sustains_markExplored (h : Stage M root v m D) (id : GroupId) (key : RuleKey) :
    Sustains M root v (Memo.markExplored id key) m D := by
  refine ⟨D, fun _ _ => rfl, ?_⟩
  cases hg : m.groups[id]? with
  | none =>
    rw [Memo.runOn_markExplored_of_unknown hg key]
    exact h
  | some g =>
    rw [Memo.runOn_markExplored_of_group hg key]
    have hlive : root < (m.edit id (·.explore key)).size := (Memo.size_edit m id _).symm ▸ h.live
    exact ⟨h.reachable.explore hg key, hlive, h.models.explore, h.means⟩

/-! ## The run -/

/-- Offers that mean what the group means, however meanings are assigned to groups that were
not there when they were made. -/
theorem sustains_offerAll {id k : GroupId} (hid : id < k) {xs : List Offer} :
    ∀ {m D}, Stage M root v m D → k ≤ m.size →
      (∀ E, (∀ i < k, E i = D i) → ∀ x ∈ xs, M.value E x.plan = D id) →
      Sustains M root v (o.offerAll id xs) m D := by
  induction xs with
  | nil =>
    intro m D h _ _
    exact .pure h false
  | cons x xs ih =>
    intro m D h hk hmean
    refine .bind (.call o.model (.offer id x)) h.reachable ?_ ?_
    · refine sustains_offer h (Nat.lt_of_lt_of_le hid hk) fun E hE => ?_
      exact hmean E (fun i hi => hE i (Nat.lt_of_lt_of_le hi hk)) x List.mem_cons_self
    · intro outcome m' E _ hsize hE hstage
      have hkeep : ∀ i < k, E i = D i := fun i hi => hE i (Nat.lt_of_lt_of_le hi hk)
      refine .bind (o.scripted_offerAll id xs) hstage.reachable ?_ ?_
      · refine ih hstage (Nat.le_trans hk hsize) fun F hF y hy => ?_
        rw [hkeep id hid]
        exact hmean F (fun i hi => (hF i hi).trans (hkeep i hi)) y (List.mem_cons_of_mem _ hy)
      · intro rest m'' F _ _ _ hstage'
        exact .pure hstage' _

/-- What a sound rule offers for a representative means what the group means, however
meanings are assigned to groups that do not exist. -/
theorem mean_of_apply {rule : Rule} (hsound : rule.Sound M) (hm : m.Reachable)
    (hmodels : M.Models D m) {id : GroupId} {s : Shape} (hs : m.rep? id = some s)
    {context : Context} {offers : List Offer}
    (happly : rule.apply context m.lookup s.overGroups = .ok offers)
    (hE : ∀ i < m.size, E i = D i) :
    ∀ x ∈ offers, M.value E x.plan = D id := by
  have hmodels' : M.Models E m := hmodels.congr hm.valid hE
  have hrep : ∀ i c, m.rep? i = some c → M.shape E c = E i := fun i c hc =>
    hmodels' i c (Memo.candidate_of_rep? hc)
  intro x hx
  rw [hsound m E hm hrep context _ offers happly x hx, Meaning.value_overGroups, hrep id s hs]
  exact hE id (Memo.rep?_isSome_iff.mp (by rw [hs]; rfl))

variable (hsound : ∀ rule ∈ o.rules, rule.Sound M)

include hsound

theorem sustains_tryRule {rule : Rule} (hrule : rule ∈ o.rules) (pass : Nat) (id : GroupId)
    (h : Stage M root v m D) : Sustains M root v (o.tryRule root pass id rule) m D := by
  refine .bind (.ask _) h.reachable (.ask h _) ?_
  intro g m₁ E₁ hrun₁ _ _ h₁
  obtain ⟨hgroup, rfl⟩ := runOn_ask_ok_iff.mp hrun₁
  have hg : m₁.groups[id]? = some g := Memo.group_eq_ok_iff.mp hgroup
  split
  · exact .pure h₁ _
  refine .bind (.call o.model (.markExplored id rule.key)) h₁.reachable
    (sustains_markExplored h₁ id rule.key) ?_
  intro _ m₂ E₂ hrun₂ _ _ h₂
  obtain rfl : m₁.edit id (·.explore rule.key) = m₂ := by
    rw [Memo.runOn_markExplored_of_group hg] at hrun₂
    exact (Prod.mk.inj hrun₂).2
  refine .bind (.ask _) h₂.reachable (.ask h₂ _) ?_
  intro fits m₃ E₃ hrun₃ _ _ h₃
  obtain ⟨-, rfl⟩ := runOn_ask_ok_iff.mp hrun₃
  have hrep : (m₁.edit id (·.explore rule.key)).rep? id = some g.shape :=
    (m₁.rep?_explore id id rule.key).trans (Memo.rep?_of_group hg)
  split
  · refine .bind (.ask _) h₃.reachable (.ask h₃ _) ?_
    intro offers m₄ E₄ hrun₄ _ _ h₄
    obtain ⟨happly, rfl⟩ := runOn_ask_ok_iff.mp hrun₄
    have hid : id < (m₁.edit id (·.explore rule.key)).size :=
      Memo.rep?_isSome_iff.mp (by rw [hrep]; rfl)
    refine .bind (o.scripted_offerAll id offers) h₄.reachable ?_ ?_
    · refine sustains_offerAll hid h₄ (Nat.le_refl _) fun E hE => ?_
      exact mean_of_apply (hsound rule hrule) h₄.reachable h₄.models hrep happly hE
    · intro changed m₅ E₅ _ _ _ h₅
      refine .bind (.ask _) h₅.reachable (.ask h₅ _) ?_
      intro _ m₆ E₆ _ _ _ h₆
      exact .pure h₆ _
  · exact .pure h₃ _

theorem sustains_tryRules (pass : Nat) (id : GroupId) {rules : List Rule} :
    ∀ {m D}, (∀ rule ∈ rules, rule ∈ o.rules) → Stage M root v m D →
      Sustains M root v (o.tryRules root pass id rules) m D := by
  induction rules with
  | nil =>
    intro m D _ h
    exact .pure h _
  | cons rule rules ih =>
    intro m D hrules h
    refine .bind (o.scripted_tryRule root pass id rule) h.reachable ?_ ?_
    · exact sustains_tryRule hsound (hrules rule List.mem_cons_self) pass id h
    · intro first m' E _ _ _ h'
      refine .bind (o.scripted_tryRules root pass id rules) h'.reachable ?_ ?_
      · exact ih (fun r hr => hrules r (List.mem_cons_of_mem _ hr)) h'
      · intro rest m'' F _ _ _ h''
        exact .pure h'' _

theorem sustains_explore (pass : Nat) (id : GroupId) (h : Stage M root v m D) :
    Sustains M root v (o.explore root pass id) m D := by
  refine .bind (.call o.model (.rerank id)) h.reachable (sustains_rerank h id) ?_
  intro moved m' E _ _ _ h'
  refine .bind (o.scripted_tryRules root pass id o.rules) h'.reachable ?_ ?_
  · exact sustains_tryRules hsound pass id (fun _ hr => hr) h'
  · intro tally m'' F _ _ _ h''
    exact .pure h'' _

theorem sustains_walk (pass budget : Nat) :
    ∀ {visited pending : List GroupId} {m D}, Stage M root v m D →
      Sustains M root v (o.walk root pass budget visited pending) m D := by
  induction budget with
  | zero =>
    intro visited pending m D h
    unfold walk
    split
    · exact .pure h _
    · exact .bind (.ask _) h.reachable (.ask h _) fun q m' E _ _ _ h' => .throw h' _
  | succ budget ih =>
    intro visited pending m D h
    unfold walk
    split
    · exact .pure h _
    · next id rest _ =>
      have hhere := sustains_explore hsound pass id h
      refine .bind (o.scripted_explore root pass id) h.reachable hhere ?_
      intro here m₁ E₁ _ _ _ h₁
      refine .bind (.ask _) h₁.reachable (.ask h₁ _) ?_
      intro s m₂ E₂ _ _ _ h₂
      refine .bind (o.scripted_walk root pass budget _ _) h₂.reachable (ih h₂) ?_
      intro below m₃ E₃ _ _ _ h₃
      exact .pure h₃ _

theorem sustains_runPass (pass : Nat) (h : Stage M root v m D) :
    Sustains M root v (o.runPass root pass) m D := by
  refine .bind (.ask .ok) h.reachable (.ask h _) ?_
  intro m₀ m' E _ _ _ h'
  exact sustains_walk hsound pass _ h'

theorem sustains_runPasses (left : Nat) :
    ∀ {c : Convergence} {m D}, Stage M root v m D →
      Sustains M root v (o.runPasses root left c) m D := by
  induction left with
  | zero =>
    intro c m D h
    exact .bind (.ask _) h.reachable (.ask h _) fun q m' E _ _ _ h' => .throw h' _
  | succ left ih =>
    intro c m D h
    refine .bind (o.scripted_runPass root _) h.reachable (sustains_runPass hsound _ h) ?_
    intro tally m' E _ _ _ h'
    dsimp only
    split
    · exact ih h'
    · exact .pure h' _

theorem sustains_optimizeIn (h : Stage M root v m D) :
    Sustains M root v (o.optimizeIn root) m D := by
  refine .bind (.ask _) h.reachable (.ask h _) ?_
  intro g m' E _ _ _ h'
  exact sustains_runPasses hsound _ h'

/-- After a run every group has one meaning, and the root means what the input means. -/
theorem stage_optimizeInto {p : Plan} (hp : p.hasGroups = false) (D : GroupId → V)
    (hinsert : (Memo.insert p).runOn .empty = (.ok root, m)) :
    ∃ E, Stage M root (M.value D p) ((o.optimizeInto p).runOn .empty).2 E := by
  obtain ⟨E, h⟩ := stage_of_insert (M := M) hp D hinsert
  rw [runOn_optimizeInto_of_insert hinsert]
  suffices hrest : Sustains M root (M.value D p)
      (do
        Edit.ask (o.checkSize root)
        let c ← o.optimizeIn root
        let best ← Edit.ask (·.best? root)
        return (root, c, best)) m E by
    obtain ⟨F, -, hend⟩ := hrest
    exact ⟨F, hend⟩
  refine .bind (.ask _) h.reachable (.ask h _) fun _ m₁ E₁ _ _ _ h₁ => ?_
  refine .bind (o.scripted_optimizeIn root) h₁.reachable (sustains_optimizeIn hsound h₁) ?_
  intro c m₂ E₂ _ _ _ h₂
  refine .bind (.ask _) h₂.reachable (.ask h₂ _) fun best m₃ E₃ _ _ _ h₃ => ?_
  exact .pure h₃ _

/-- After a run every group has one meaning. -/
theorem exists_models_optimizeInto {p : Plan} (hp : p.hasGroups = false) :
    ∃ D, M.Models D ((o.optimizeInto p).runOn .empty).2 := by
  -- no group exists yet, so any assignment will do to start with
  let D₀ : GroupId → V := fun _ => M.scan ⟨⟨"", ""⟩, [], none⟩
  obtain ⟨m₁, hgrows, ⟨root, hrun, -⟩ | ⟨i, hrun⟩⟩ := Memo.insert_cases p Memo.valid_empty
  · obtain ⟨E, hend⟩ := stage_optimizeInto (M := M) hsound hp D₀ hrun
    exact ⟨E, hend.models⟩
  · have hfail : (o.optimizeInto p).runOn .empty = (.error (.unknownGroup i), m₁) :=
      runOn_bind_of_error hrun _
    rw [hfail]
    obtain ⟨D, -, hmodels⟩ := (Meaning.models_empty D₀).grows Memo.valid_empty hgrows
    exact ⟨D, hmodels⟩

/-- The plan that the root resolves to after a run means what the input means. -/
theorem value_best_of_optimizeInto {p q : Plan} (hp : p.hasGroups = false)
    (hinsert : (Memo.insert p).runOn .empty = (.ok root, m))
    (hq : ((o.optimizeInto p).runOn .empty).2.best? root = .ok q) (E : GroupId → V) :
    M.value E q = M.value E p := by
  obtain ⟨F, hend⟩ := stage_optimizeInto hsound hp E hinsert
  exact hend.value_best hq E

omit hsound

/-- **Sound rules keep the meaning.**  If all active rules are sound for a meaning, then the
optimized plan means what the input means.  So does the plan in the fault of a spent budget, unless
it is not the fault of the run but one that the run hands on.  Throughout the run, all candidates of
a group mean the same. -/
theorem optimize_sound (hsound : ∀ rule ∈ o.rules, rule.Sound M) {p : Plan}
    (hp : p.hasGroups = false) :
    (∀ r, o.optimize p = .ok r → ∀ E, M.value E r.plan = M.value E p) ∧
      (∀ f q, o.optimize p = .error f → f.best? = some q →
        (∀ E, M.value E q = M.value E p) ∨ o.Relays p f) ∧
      (∃ ms, Through (o.optimizeInto p) .empty ms) ∧
      ∃ D, ∀ ms, Through (o.optimizeInto p) .empty ms → ∀ m ∈ ms, M.Models D m := by
  obtain ⟨D, hmodels⟩ := exists_models_optimizeInto (M := M) hsound hp
  have hthrough := (o.scripted_optimizeInto p).exists_through .empty
  refine ⟨fun r hr => ?_, fun f q hf hq => ?_, hthrough, D, ?_⟩
  · have hok := optimize_ok hr
    obtain ⟨m₁, hinsert, -, hbest⟩ := optimizeInto_ok hok
    refine value_best_of_optimizeInto hsound hp hinsert ?_
    rw [hok]
    exact hbest
  · have hgives := givesUp_of_optimize hf
    generalize hend : ((o.optimizeInto p).runOn .empty).2 = m at hgives
    cases hgives with
    | refused planless => cases planless.symm.trans hq
    | spent after best =>
      cases hq
      obtain ⟨m₀, hinsert⟩ := after.inserted
      exact .inl (value_best_of_optimizeInto hsound hp hinsert (hend ▸ best))
    | part inserted blames =>
      cases blames with
      | plain planless => cases planless.symm.trans hq
      | full _ best =>
        cases hq
        exact .inl (value_best_of_optimizeInto hsound hp inserted (hend ▸ best))
      | relayed relays => exact .inr relays
  · intro ms hms m hm
    exact hmodels.of_extends ((hms.extends .empty).2.2 m hm)

section Filters

/-- The tables that are read, from left to right. -/
private def reads : Meaning (List String) where
  scan s := [s.table.name]
  unary _ v := v
  join _ v w := v ++ w
  scan_same {a b} h := by
    have htable : a.table = b.table := (Scan.mk.inj h).1
    rw [htable]
  unary_same _ _ := rfl
  join_same _ _ _ := rfl

private theorem sound_removeTrivialFilter : Rule.removeTrivialFilter.Sound reads := by
  intro m D _ _ context p offers happly x hx
  cases happly
  cases p with
  | unary op a =>
    cases op with
    | filter e =>
      cases List.mem_singleton.mp hx
      rfl
    | _ => cases hx
  | _ => cases hx

private theorem sound_mergeFilters : Rule.mergeFilters.Sound reads := by
  intro m D _ hD context p offers happly x hx
  cases p with
  | unary op input =>
    cases op with
    | filter outer =>
      obtain ⟨q, hq, hoffers⟩ := bind_eq_ok.mp happly
      have hvalue : reads.value D q = reads.value D input := Meaning.value_expose hD hq
      cases q with
      | unary inner below =>
        cases inner with
        | filter e =>
          cases hoffers
          cases List.mem_singleton.mp hx
          exact hvalue
        | _ =>
          cases hoffers
          cases hx
      | _ =>
        cases hoffers
        cases hx
    | _ =>
      cases happly
      cases hx
  | _ =>
    cases happly
    cases hx

private def simplifying : Optimizer where
  registry := (Registry.empty.add Rule.removeTrivialFilter).add Rule.mergeFilters
  model := .indifferent
  catalog := .empty
  limits := {}

private def filtered : Plan :=
  .filter (.col "t" "a") (.filter (.col "t" "b") (.filter .always (.scanAll "s" "t")))

/-- Simplifying filters keeps the tables that are read. -/
theorem optimize_sound_of_filters :
    (∀ rule ∈ simplifying.rules, rule.Sound reads) ∧ filtered.hasGroups = false ∧
      (simplifying.optimize filtered).map Optimized.plan =
        .ok (.filter (.and [.col "t" "b", .col "t" "a"]) (.scanAll "s" "t")) ∧
      (∀ r, simplifying.optimize filtered = .ok r →
        ∀ E, reads.value E r.plan = reads.value E filtered) ∧
      (∀ f q, simplifying.optimize filtered = .error f → f.best? = some q →
        (∀ E, reads.value E q = reads.value E filtered) ∨ simplifying.Relays filtered f) ∧
      (∃ ms, Through (simplifying.optimizeInto filtered) .empty ms) ∧
      ∃ D, ∀ ms, Through (simplifying.optimizeInto filtered) .empty ms →
        ∀ m ∈ ms, reads.Models D m := by
  have hsound : ∀ rule ∈ simplifying.rules, rule.Sound reads := by
    intro rule hrule
    rcases List.mem_pair.mp hrule with rfl | rfl
    · exact sound_removeTrivialFilter
    · exact sound_mergeFilters
  exact ⟨hsound, rfl, by decide +kernel, optimize_sound hsound rfl⟩

private def failing : Optimizer where
  registry := Registry.empty.add (.failing (.notConverged 0 (.scanAll "s" "u")))
  model := .indifferent
  catalog := .empty
  limits := {}

/-- A rule that offers nothing is sound.  This one answers with the fault of spent passes, and the
run hands it on with a plan that reads another table than the input does. -/
theorem not_sound_of_failing :
    (∀ rule ∈ failing.rules, rule.Sound reads) ∧ filtered.hasGroups = false ∧
      ¬ ∀ f q, failing.optimize filtered = .error f → f.best? = some q →
        ∀ E, reads.value E q = reads.value E filtered := by
  have hsound : ∀ rule ∈ failing.rules, rule.Sound reads := by
    intro rule hrule m D _ _ context p offers happly
    cases List.mem_singleton.mp hrule
    cases happly
  have hrun : (failing.optimize filtered).map Optimized.plan =
      .error (.notConverged 0 (.scanAll "s" "u")) := by decide +kernel
  refine ⟨hsound, rfl, fun hkeep => ?_⟩
  exact absurd (hkeep _ _ (map_eq_error.mp hrun) rfl fun _ => []) (by decide)

end Filters

end Optimizer

end PlanOptimizer
