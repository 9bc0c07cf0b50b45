import PlanOptimizer.Proofs.Fixpoint.Runs
import PlanOptimizer.Proofs.Fixpoint.Script
import PlanOptimizer.Proofs.Rules.Admitted

/-!
# Runs of the standard rules

A `Regime` says what the parts of a run keep, in steps of the memo: noting an exploration,
ranking a group again, and offering what a standard rule has made of a representative.  These
have to succeed.  Then the invariant and the steps carry through the loops of a run, and the only
faults that are left are those of a spent budget.  They carry the plan that the root has by then.
-/

namespace PlanOptimizer

open Edit

variable {α β : Type} {m m' m'' m₀ : Memo}

/-! ## Triples -/

/-- An operation that succeeds meets one condition, and if it fails, it meets the other. -/
def Edit.Meets (e : Edit α) (m : Memo) (Q : α → Memo → Prop) (F : Fault → Memo → Prop) : Prop :=
  match e.runOn m with
  | (.ok a, m') => Q a m'
  | (.error f, m') => F f m'

namespace Edit

variable {Q : α → Memo → Prop} {Q' : β → Memo → Prop} {F F' : Fault → Memo → Prop} {e : Edit α}
  {f : Fault} {a : α}

theorem meets_of_ok (h : e.runOn m = (.ok a, m')) (hq : Q a m') : e.Meets m Q F := by
  unfold Meets
  rw [h]
  exact hq

theorem meets_of_error (h : e.runOn m = (.error f, m')) (hf : F f m') : e.Meets m Q F := by
  unfold Meets
  rw [h]
  exact hf

theorem Meets.run (h : e.Meets m Q F) :
    (∃ a m', e.runOn m = (.ok a, m') ∧ Q a m') ∨ ∃ f m', e.runOn m = (.error f, m') ∧ F f m' := by
  unfold Meets at h
  rcases hrun : e.runOn m with ⟨f | a, m'⟩
  · rw [hrun] at h
    exact .inr ⟨f, m', rfl, h⟩
  · rw [hrun] at h
    exact .inl ⟨a, m', rfl, h⟩

theorem Meets.of_ok (h : e.Meets m Q F) (hrun : e.runOn m = (.ok a, m')) : Q a m' := by
  unfold Meets at h
  rwa [hrun] at h

theorem Meets.of_error (h : e.Meets m Q F) (hrun : e.runOn m = (.error f, m')) : F f m' := by
  unfold Meets at h
  rwa [hrun] at h

theorem Meets.bind {k : α → Edit β} (he : e.Meets m Q F)
    (hk : ∀ a m', Q a m' → (k a).Meets m' Q' F) : (e >>= k).Meets m Q' F := by
  rcases he.run with ⟨a, m', hrun, hq⟩ | ⟨f, m', hrun, hf⟩
  · unfold Meets
    rw [runOn_bind_of_ok hrun]
    exact hk a m' hq
  · exact meets_of_error (runOn_bind_of_error hrun k) hf

theorem Meets.imp {Q₂ : α → Memo → Prop} (he : e.Meets m Q F) (hq : ∀ a m', Q a m' → Q₂ a m')
    (hf : ∀ f m', F f m' → F' f m') : e.Meets m Q₂ F' := by
  rcases he.run with ⟨a, m', hrun, h⟩ | ⟨f, m', hrun, h⟩
  · exact meets_of_ok hrun (hq a m' h)
  · exact meets_of_error hrun (hf f m' h)

theorem meets_bind_of_ok {k : α → Edit β} (h : e.runOn m = (.ok a, m'))
    (hk : (k a).Meets m' Q' F) : (e >>= k).Meets m Q' F := by
  unfold Meets
  rw [runOn_bind_of_ok h]
  exact hk

theorem meets_ask_bind {g : Memo → Except Fault α} {k : α → Edit β} (h : g m = .ok a)
    (hk : (k a).Meets m Q' F) : (ask g >>= k).Meets m Q' F :=
  meets_bind_of_ok (by rw [runOn_ask, h]) hk

/-- A sequence that begins with a question goes by the answer. -/
theorem meets_ask_cases {g : Memo → Except Fault α} {k : α → Edit β}
    (hok : ∀ a, g m = .ok a → (k a).Meets m Q' F) (hfault : ∀ f, g m = .error f → F f m) :
    (ask g >>= k).Meets m Q' F := by
  cases hg : g m with
  | ok a => exact meets_ask_bind hg (hok a hg)
  | error f => exact meets_of_error (runOn_bind_of_error (by rw [runOn_ask, hg]) k) (hfault f hg)

end Edit

namespace Optimizer

variable {o : Optimizer} {Inv : Memo → Prop} {Step : Bool → Memo → Memo → Prop}
  {root id : GroupId} {pass : Nat} {s : Shape}

/-- If there are more groups than allowed, the fault carries the plan of the root. -/
theorem checkSize_cases (hm : m.Reachable) (hroot : root < m.size) :
    (m.size ≤ o.limits.groups ∧ o.checkSize root m = .ok ()) ∨
      ∃ q, o.limits.groups < m.size ∧ m.best? root = .ok q ∧
        o.checkSize root m = .error (.tooManyGroups m.size q) := by
  obtain ⟨q, hq, -⟩ := hm.valid.resolve_ok hroot
  have hbest : m.best? root = .ok q := hq
  unfold checkSize
  rw [hbest]
  split
  · next hle => exact .inl ⟨hle, rfl⟩
  · next hlt => exact .inr ⟨q, Nat.lt_of_not_le hlt, rfl, rfl⟩

/-! ### Trying rules -/

section Trying

variable {rule : Rule} {rules : List Rule} {g : Group} {b : Bool} {P Q : Bool → Memo → Prop}
  {F : Fault → Memo → Prop}

/-- A trial of a rule goes by what the rule answers. -/
theorem meets_tryRule_of_answer (hg : m.groups[id]? = some g) (hseen : rule.key ∈ g.explored → Q false m)
    (htried : rule.key ∉ g.explored →
      rule.applies m.lookup g.shape.overGroups = .ok false ∧ Q false (m.edit id (·.explore rule.key)) ∨
      rule.applies m.lookup g.shape.overGroups = .ok true ∧ ∃ offers changed m',
        rule.apply ⟨o.catalog, o.model, id, pass⟩ m.lookup g.shape.overGroups = .ok offers ∧
        (o.offerAll id offers).runOn (m.edit id (·.explore rule.key)) = (.ok changed, m') ∧
        m'.size ≤ o.limits.groups ∧ Q changed m') :
    (o.tryRule root pass id rule).Meets m (fun t m' => Q t.changed m') F := by
  have hlookup := m.lookup_explore id rule.key
  refine meets_ask_bind (Memo.group_eq_ok_iff.mpr hg) ?_
  split
  · next hnoted => exact meets_of_ok (runOn_pure _ _) (hseen hnoted)
  · next hnew =>
    refine meets_bind_of_ok (Memo.runOn_markExplored_of_group hg rule.key) ?_
    rcases htried hnew with ⟨hunfit, hQ⟩ | ⟨hfits, offers, changed, m', happly, hrun, hsize, hQ⟩
    · refine meets_ask_bind (a := false) ?_ (meets_of_ok (runOn_pure _ _) hQ)
      rw [hlookup]
      exact hunfit
    · refine meets_ask_bind (a := true) (by rw [hlookup]; exact hfits) ?_
      refine meets_ask_bind (a := offers) (by rw [hlookup]; exact happly) ?_
      have hcheck : o.checkSize root m' = .ok () := if_pos hsize
      exact meets_bind_of_ok hrun (meets_ask_bind hcheck (meets_of_ok (runOn_pure _ _) hQ))

theorem meets_tryRules_nil (hQ : Q b m) :
    (o.tryRules root pass id []).Meets m (fun t m' => Q (b || t.changed) m') F :=
  meets_of_ok (runOn_pure _ _) (by rw [Bool.or_false]; exact hQ)

/-- Rules are tried one after the other, and what has changed so far adds up. -/
theorem meets_tryRules_cons
    (hfirst : (o.tryRule root pass id rule).Meets m (fun t m' => P (b || t.changed) m') F)
    (hrest : ∀ {d m'}, P d m' →
      (o.tryRules root pass id rules).Meets m' (fun t m' => Q (d || t.changed) m') F) :
    (o.tryRules root pass id (rule :: rules)).Meets m (fun t m' => Q (b || t.changed) m') F :=
  hfirst.bind fun t₁ m₁ h₁ => (hrest h₁).bind fun t₂ m₂ h₂ => meets_of_ok (runOn_pure _ _) <| by
    show Q (b || (t₁.changed || t₂.changed)) m₂
    rw [← Bool.or_assoc]
    exact h₂

end Trying

/-- The fault of a memo with more groups than allowed. -/
def Overfull (o : Optimizer) (Inv : Memo → Prop) (f : Fault) (m : Memo) : Prop :=
  Inv m ∧ o.limits.groups < m.size ∧ ∃ n q, f = .tooManyGroups n q

/-- The fault of a spent budget. -/
def Spent (o : Optimizer) (Inv : Memo → Prop) (f : Fault) (m : Memo) : Prop :=
  o.Overfull Inv f m ∨ Inv m ∧ ∃ n q, f = .notConverged n q

/-- The fault carries the plan of the root. -/
def Carries (root : GroupId) (f : Fault) (m : Memo) : Prop :=
  ∃ q, f.best? = some q ∧ m.best? root = .ok q

/-- The fault of a memo with more groups than allowed, with the plan of the root. -/
def Stopped (o : Optimizer) (Inv : Memo → Prop) (root : GroupId) (f : Fault) (m : Memo) : Prop :=
  o.Overfull Inv f m ∧ Carries root f m

/-- What the parts of a run of standard rules keep.  A step is marked by whether it has been
answered as a change. -/
structure Regime (o : Optimizer) (Inv : Memo → Prop) (Step : Bool → Memo → Memo → Prop) : Prop where
  /-- Only standard rules are active. -/
  standard : ∀ rule ∈ o.rules, rule ∈ Rule.standard
  /-- Calls lead to the memo. -/
  reachable : ∀ {m}, Inv m → m.Reachable
  /-- To do nothing is a step. -/
  refl : ∀ m, Step false m m
  /-- Steps make a step, and it is a change if one of them is. -/
  trans : ∀ {a b m m' m''}, Step a m m' → Step b m' m'' → Step (a || b) m m''
  /-- An exploration is noted. -/
  note : ∀ {m id} (key : RuleKey), Inv m → id < m.size →
    Inv (m.edit id (·.explore key)) ∧ Step false m (m.edit id (·.explore key))
  /-- A group is ranked again. -/
  rerank : ∀ {m id}, Inv m → id < m.size → ∃ moved m',
    (Memo.rerank o.model id).runOn m = (.ok moved, m') ∧ Inv m' ∧ Step moved m m'
  /-- A group is offered what a rule has made of its representative.  A replacement is offered
  to the memo that the rule has seen. -/
  offer : ∀ {m₀ m id s x}, Inv m₀ → Inv m → m₀.Extends m → m₀.rep? id = some s → Rewrite m₀ s x →
    (x.forced = true → m = m₀) → ∃ outcome m',
      (Memo.offer o.model id x).runOn m = (.ok outcome, m') ∧ Inv m' ∧ Step outcome.isChange m m'

/-- A later memo of a run. -/
structure Kept (Inv : Memo → Prop) (Step : Bool → Memo → Memo → Prop) (m : Memo) (changed : Bool)
    (m' : Memo) : Prop where
  inv : Inv m'
  step : Step changed m m'
  ext : m.Extends m'

namespace Regime

theorem kept_refl (h : Regime o Inv Step) (hm : Inv m) : Kept Inv Step m false m :=
  ⟨hm, h.refl m, .refl m⟩

theorem kept_trans (h : Regime o Inv Step) {a b : Bool} (h₁ : Kept Inv Step m a m')
    (h₂ : Kept Inv Step m' b m'') : Kept Inv Step m (a || b) m'' :=
  ⟨h₂.inv, h.trans h₁.step h₂.step, h₁.ext.trans h₂.ext⟩

/-! ## Exploring a group -/

theorem meets_offer {F : Fault → Memo → Prop} (h : Regime o Inv Step) {x : Offer} (hm₀ : Inv m₀)
    (hm : Inv m) (hext : m₀.Extends m) (hs : m₀.rep? id = some s) (hx : Rewrite m₀ s x)
    (hforced : x.forced = true → m = m₀) :
    (Memo.offer o.model id x).Meets m (fun outcome => Kept Inv Step m outcome.isChange) F := by
  obtain ⟨outcome, m', hrun, hm', hstep⟩ := h.offer hm₀ hm hext hs hx hforced
  have hscript : (Memo.offer o.model id x).Scripted := .call o.model (.offer id x)
  exact meets_of_ok hrun ⟨hm', hstep, hscript.extends_of_run (h.reachable hm) hrun⟩

/-- A replacement comes alone, so it is offered to the memo that the rule has seen. -/
theorem meets_offerAll {F : Fault → Memo → Prop} (h : Regime o Inv Step) (hm₀ : Inv m₀)
    (hs : m₀.rep? id = some s) {xs : List Offer} : ∀ {m}, Inv m → m₀.Extends m → (∀ x ∈ xs, Rewrite m₀ s x) →
      (∀ x ∈ xs, x.forced = true → m = m₀ ∧ xs = [x]) →
      (o.offerAll id xs).Meets m (Kept Inv Step m) F := by
  induction xs with
  | nil =>
    intro m hm _ _ _
    exact meets_of_ok (runOn_pure _ _) (h.kept_refl hm)
  | cons x xs ih =>
    intro m hm hext hrewrite hforced
    have hoffer := h.meets_offer (F := F) hm₀ hm hext hs (hrewrite x List.mem_cons_self) fun hx =>
      (hforced x List.mem_cons_self hx).1
    refine hoffer.bind fun outcome m₁ hfirst => ?_
    have hrest : (o.offerAll id xs).Meets m₁ (Kept Inv Step m₁) F := by
      refine ih hfirst.inv (hext.trans hfirst.ext) (fun y hy => hrewrite y (List.mem_cons_of_mem _ hy))
        fun y hy hyforced => ?_
      obtain ⟨-, halone⟩ := hforced y (List.mem_cons_of_mem _ hy) hyforced
      obtain ⟨-, rfl⟩ := List.cons.inj halone
      cases hy
    exact hrest.bind fun rest m₂ hlast => meets_of_ok (runOn_pure _ _) (h.kept_trans hfirst hlast)

/-- The number of groups is within the limit, or the fault carries the plan of the root. -/
theorem meets_checkSize {Q : Memo → Prop} (h : Regime o Inv Step) (hm : Inv m)
    (hroot : root < m.size) (hQ : Q m) :
    (ask (o.checkSize root)).Meets m (fun _ => Q) (o.Stopped Inv root) := by
  rcases checkSize_cases (h.reachable hm) hroot with ⟨-, hcheck⟩ | ⟨q, hlt, hbest, hcheck⟩
  · exact meets_of_ok (by rw [runOn_ask, hcheck]) hQ
  · exact meets_of_error (by rw [runOn_ask, hcheck]) ⟨⟨hm, hlt, _, _, rfl⟩, q, rfl, hbest⟩

theorem meets_tryRule (h : Regime o Inv Step) (hm : Inv m) (hroot : root < m.size)
    (hid : id < m.size) {rule : Rule} (hrule : rule ∈ o.rules) :
    (o.tryRule root pass id rule).Meets m (fun t => Kept Inv Step m t.changed)
      (o.Stopped Inv root) := by
  obtain ⟨g, hg⟩ := Memo.lt_size_iff.mp hid
  refine meets_ask_bind (Memo.group_eq_ok_iff.mpr hg) ?_
  split
  · exact meets_of_ok (runOn_pure _ _) (h.kept_refl hm)
  · have hmark := Memo.runOn_markExplored_of_group hg rule.key
    have hrep : (m.edit id (·.explore rule.key)).rep? id = some g.shape :=
      (m.rep?_explore id id rule.key).trans (Memo.rep?_of_group hg)
    obtain ⟨hm₁, hstep⟩ := h.note rule.key hm hid
    have hnote : Kept Inv Step m false (m.edit id (·.explore rule.key)) :=
      ⟨hm₁, hstep, (Memo.Explore.explore hg).extends⟩
    refine meets_bind_of_ok hmark ?_
    generalize m.edit id (·.explore rule.key) = m₁ at hm₁ hrep hnote
    have hv₁ := (h.reachable hm₁).valid
    obtain ⟨fits, hfits⟩ := hv₁.applies_ok rule (hv₁.live_rep hrep)
    refine meets_ask_bind hfits ?_
    cases fits with
    | false => exact meets_of_ok (runOn_pure _ _) hnote
    | true =>
      obtain ⟨offers, happly, hrewrite, htame⟩ :=
        answers_of_applies hv₁ hrep (h.standard rule hrule) ⟨o.catalog, o.model, id, pass⟩ hfits
      refine meets_ask_bind happly ?_
      have hoffers := h.meets_offerAll (F := o.Stopped Inv root) hm₁ hrep hm₁ (.refl m₁) hrewrite
        fun x hx hforced => ⟨rfl, htame.alone hx hforced⟩
      refine hoffers.bind fun changed m₂ htried => ?_
      have hkept := h.kept_trans hnote htried
      have hsize := h.meets_checkSize hkept.inv (hkept.ext.size_le hroot) hkept
      exact hsize.bind fun _ m₃ hchecked => meets_of_ok (runOn_pure _ _) hchecked

theorem meets_tryRules (h : Regime o Inv Step) {rules : List Rule}
    (hrules : ∀ rule ∈ rules, rule ∈ o.rules) : ∀ {m}, Inv m → root < m.size → id < m.size →
      (o.tryRules root pass id rules).Meets m (fun t => Kept Inv Step m t.changed)
        (o.Stopped Inv root) := by
  induction rules with
  | nil =>
    intro m hm _ _
    exact meets_of_ok (runOn_pure _ _) (h.kept_refl hm)
  | cons rule rules ih =>
    intro m hm hroot hid
    have hrule := hrules rule List.mem_cons_self
    refine (h.meets_tryRule hm hroot hid hrule).bind fun first m₁ hfirst => ?_
    have hrest := ih (fun r hr => hrules r (List.mem_cons_of_mem _ hr)) hfirst.inv
      (hfirst.ext.size_le hroot) (hfirst.ext.size_le hid)
    exact hrest.bind fun rest m₂ hlast => meets_of_ok (runOn_pure _ _) (h.kept_trans hfirst hlast)

theorem meets_explore (h : Regime o Inv Step) (hm : Inv m) (hroot : root < m.size)
    (hid : id < m.size) :
    (o.explore root pass id).Meets m (fun t => Kept Inv Step m t.changed)
      (o.Stopped Inv root) := by
  obtain ⟨moved, m₁, hrun, hm₁, hstep⟩ := h.rerank hm hid
  have hscript : (Memo.rerank o.model id).Scripted := .call o.model (.rerank id)
  have hrank : Kept Inv Step m moved m₁ :=
    ⟨hm₁, hstep, hscript.extends_of_run (h.reachable hm) hrun⟩
  refine meets_bind_of_ok hrun ?_
  have hrules : (o.tryRules root pass id o.rules).Meets m₁ (fun t => Kept Inv Step m₁ t.changed)
      (o.Stopped Inv root) :=
    h.meets_tryRules (fun _ hr => hr) hm₁ (hrank.ext.size_le hroot) (hrank.ext.size_le hid)
  exact hrules.bind fun t m₂ htried => meets_of_ok (runOn_pure _ _) (h.kept_trans hrank htried)

/-! ## Passes -/

/-- The groups that a walk has visited are all different, so its budget runs out only if there
are more groups than allowed. -/
theorem meets_walk (h : Regime o Inv Step) (budget : Nat) :
    ∀ {visited pending : List GroupId} {m}, Inv m → root < m.size → visited.Nodup →
      (∀ x ∈ visited, x < m.size) → (∀ x ∈ pending, x < m.size) →
      o.limits.groups ≤ budget + visited.length →
      (o.walk root pass budget visited pending).Meets m (fun t => Kept Inv Step m t.changed)
        (o.Stopped Inv root) := by
  induction budget with
  | zero =>
    intro visited pending m hm hroot hnodup hlive hpending hbudget
    unfold walk
    split
    · exact meets_of_ok (runOn_pure _ _) (h.kept_refl hm)
    · next id rest hcons =>
      obtain ⟨hnew, hid, -, -⟩ := dropWhile_cons_spec hcons
      obtain ⟨q, hq, -⟩ := (h.reachable hm).valid.resolve_ok hroot
      have hmore := Memo.length_lt_size hnodup hlive (hpending id hid) hnew
      exact meets_ask_bind hq (meets_of_error rfl ⟨⟨hm, by omega, _, _, rfl⟩, q, rfl, hq⟩)
  | succ budget ih =>
    intro visited pending m hm hroot hnodup hlive hpending hbudget
    unfold walk
    split
    · exact meets_of_ok (runOn_pure _ _) (h.kept_refl hm)
    · next id rest hcons =>
      obtain ⟨hnew, hid, hrest, -⟩ := dropWhile_cons_spec hcons
      have hidlt := hpending id hid
      refine (h.meets_explore hm hroot hidlt).bind fun here m₁ hfirst => ?_
      have hgrown : ∀ {x}, x < m.size → x < m₁.size := hfirst.ext.size_le
      obtain ⟨t, ht⟩ := Memo.rep?_of_lt (hgrown hidlt)
      refine meets_ask_bind (Memo.shape_of_rep ht) ?_
      have hvisited : ∀ x ∈ id :: visited, x < m₁.size :=
        List.forall_mem_cons.mpr ⟨hgrown hidlt, fun x hx => hgrown (hlive x hx)⟩
      have hpending' : ∀ x ∈ t.inputs ++ rest, x < m₁.size :=
        List.forall_mem_append.mpr ⟨(h.reachable hfirst.inv).valid.live_rep ht,
          fun x hx => hgrown (hpending x (hrest x hx))⟩
      have hbelow := ih hfirst.inv (hgrown hroot) (List.nodup_cons.mpr ⟨hnew, hnodup⟩) hvisited
        hpending' (by rw [List.length_cons]; omega)
      exact hbelow.bind fun _ _ hlast => meets_of_ok (runOn_pure _ _) (h.kept_trans hfirst hlast)

theorem meets_runPass (h : Regime o Inv Step) (pass : Nat) (hm : Inv m) (hroot : root < m.size) :
    (o.runPass root pass).Meets m (fun t => Kept Inv Step m t.changed) (o.Stopped Inv root) := by
  unfold runPass
  refine meets_bind_of_ok (e := get) (a := m) rfl ?_
  refine h.meets_walk _ hm hroot List.nodup_nil (fun _ hx => nomatch hx) ?_ ?_
  · intro x hx
    cases List.mem_singleton.mp hx
    exact hroot
  · exact Nat.le_trans (Nat.le_max_right _ _) (Nat.le_add_right _ _)

/-! ## Runs -/

theorem meets_runPasses (h : Regime o Inv Step) (left : Nat) :
    ∀ {c m}, Inv m → root < m.size →
      (o.runPasses root left c).Meets m (fun _ m' => Inv m' ∧ m.Extends m')
        (fun f m' => o.Spent Inv f m' ∧ Carries root f m') := by
  induction left with
  | zero =>
    intro c m hm hroot
    obtain ⟨q, hq, -⟩ := (h.reachable hm).valid.resolve_ok hroot
    exact meets_ask_bind hq (meets_of_error rfl ⟨.inr ⟨hm, _, _, rfl⟩, q, rfl, hq⟩)
  | succ left ih =>
    intro c m hm hroot
    have hpass : (o.runPass root (c.passes + 1)).Meets m (fun t => Kept Inv Step m t.changed)
        (fun f m' => o.Spent Inv f m' ∧ Carries root f m') :=
      (h.meets_runPass (c.passes + 1) hm hroot).imp (fun _ _ hq => hq)
        fun _ _ hf => ⟨.inl hf.1, hf.2⟩
    refine hpass.bind fun t m₁ hkept => ?_
    dsimp only
    split
    · exact (ih hkept.inv (hkept.ext.size_le hroot)).imp
        (fun _ _ hq => ⟨hq.1, hkept.ext.trans hq.2⟩) fun _ _ hf => hf
    · exact meets_of_ok (runOn_pure _ _) ⟨hkept.inv, hkept.ext⟩

/-- A plan that is inserted is optimized, if the passes over the memo that it is inserted into
meet what is asked of them. -/
theorem meets_optimizeInto_of_insert {p : Plan} {P : Convergence → Memo → Prop}
    {F : Fault → Memo → Prop} (h : Regime o Inv Step)
    (hinsert : (Memo.insert p).runOn .empty = (.ok root, m)) (hm : Inv m) (hroot : root < m.size)
    (hfull : ∀ f m', o.Stopped Inv root f m' → F f m')
    (hpasses : (o.runPasses root (max o.limits.passes 1) ⟨0, 0⟩).Meets m
      (fun c m' => Inv m' ∧ m.Extends m' ∧ P c m') F) :
    (o.optimizeInto p).Meets .empty
      (fun r m' => r.1 = root ∧ P r.2.1 m' ∧ m'.best? root = .ok r.2.2) F := by
  obtain ⟨g, hg⟩ := Memo.lt_size_iff.mp hroot
  refine meets_bind_of_ok hinsert ?_
  have hsize := (h.meets_checkSize (Q := (· = m)) hm hroot rfl).imp
    (fun _ _ hq => hq) hfull
  refine hsize.bind fun _ m₁ hm₁ => ?_
  subst hm₁
  have hin : (o.optimizeIn root).Meets m₁ (fun c m' => Inv m' ∧ m₁.Extends m' ∧ P c m') F :=
    meets_ask_bind (Memo.group_eq_ok_iff.mpr hg) hpasses
  refine hin.bind fun c m' hm' => ?_
  obtain ⟨q, hq, -⟩ := (h.reachable hm'.1).valid.resolve_ok (hm'.2.1.size_le hroot)
  exact meets_ask_bind hq (meets_of_ok (runOn_pure _ _) ⟨rfl, hm'.2.2, hq⟩)

/-- A plan that is inserted comes to the plan of its root.  The run ends with it, or the fault of a
spent budget carries it. -/
theorem meets_optimizeInto_best {p : Plan} (h : Regime o Inv Step)
    (hinsert : (Memo.insert p).runOn .empty = (.ok root, m)) (hm : Inv m) (hroot : root < m.size) :
    (o.optimizeInto p).Meets .empty (fun r m' => r.1 = root ∧ Inv m' ∧ m'.best? root = .ok r.2.2)
      fun f m' => Inv m' ∧ Carries root f m' := by
  refine h.meets_optimizeInto_of_insert (P := fun _ => Inv) hinsert hm hroot
    (fun _ _ hf => ⟨hf.1.1, hf.2⟩) ?_
  exact (h.meets_runPasses _ hm hroot).imp (fun _ _ hq => ⟨hq.1, hq.2, hq.1⟩)
    fun _ _ hf => ⟨hf.1.elim And.left And.left, hf.2⟩

/-- A plan without references is inserted, and its run goes on from there. -/
theorem meets_optimizeInto_of_passes {p : Plan} {P : GroupId → Convergence → Memo → Prop}
    {F : Fault → Memo → Prop} (h : Regime o Inv Step)
    (hp : p.hasGroups = false)
    (hstart : ∀ {root m}, (Memo.insert p).runOn .empty = (.ok root, m) → Inv m)
    (hfull : ∀ f m, o.Overfull Inv f m → F f m)
    (hpasses : ∀ {root m}, (Memo.insert p).runOn .empty = (.ok root, m) → root < m.size →
      (o.runPasses root (max o.limits.passes 1) ⟨0, 0⟩).Meets m
        (fun c m' => Inv m' ∧ m.Extends m' ∧ P root c m') F) :
    (o.optimizeInto p).Meets .empty (fun r m' => P r.1 r.2.1 m' ∧ m'.best? r.1 = .ok r.2.2) F := by
  obtain ⟨root, m, hinsert, -, hfind⟩ := Memo.insert_ok_of_closed hp
  have hm := hstart hinsert
  have hroot := (h.reachable hm).valid.lt_of_find? hfind
  refine (h.meets_optimizeInto_of_insert hinsert hm hroot (fun f m' hf => hfull f m' hf.1)
    (hpasses hinsert hroot)).imp ?_ fun _ _ hf => hf
  rintro ⟨root', c, q⟩ m' ⟨rfl, hq⟩
  exact hq

/-- A plan without references is optimized, or a budget is spent. -/
theorem meets_optimizeInto {p : Plan} (h : Regime o Inv Step) (hp : p.hasGroups = false)
    (hstart : ∀ {root m}, (Memo.insert p).runOn .empty = (.ok root, m) → Inv m) :
    (o.optimizeInto p).Meets .empty (fun _ => Inv) (o.Spent Inv) := by
  refine (h.meets_optimizeInto_of_passes (P := fun _ _ => Inv) hp hstart
    (fun _ _ hf => .inl hf) fun hinsert hroot => ?_).imp (fun _ _ hq => hq.1) fun _ _ hf => hf
  exact (h.meets_runPasses _ (hstart hinsert) hroot).imp (fun _ _ hq => ⟨hq.1, hq.2, hq.1⟩)
    fun _ _ hf => hf.1

end Regime

end Optimizer

end PlanOptimizer
