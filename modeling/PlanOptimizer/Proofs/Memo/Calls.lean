import PlanOptimizer.Proofs.Memo.Operations

/-!
# Calls

A memo is changed through four kinds of calls.  A memo is *reachable* if any calls,
failed ones included, lead to it from the empty memo.  Each call is a sequence of
moves, so every reachable memo is valid.  A memo is *later* than another if any calls
lead from the other to it.

`Edit.Scripted` says of a longer operation that it changes the memo through calls
alone, and `Edit.Through` tells the memos such an operation goes through.
-/

namespace PlanOptimizer

open Relation

/-- A call on a memo, with the type of its answer. -/
inductive Call : Type → Type where
  /-- Insert a plan. -/
  | insert (p : Plan) : Call GroupId
  /-- Offer a plan to a group. -/
  | offer (id : GroupId) (o : Offer) : Call Outcome
  /-- Rank a group again. -/
  | rerank (id : GroupId) : Call Bool
  /-- Note that a rule has been offered the representative of a group. -/
  | markExplored (id : GroupId) (key : RuleKey) : Call Unit

/-- What a call does, given the model that ranks plans. -/
def Call.edit {α : Type} (model : CostModel) : Call α → Edit α
  | .insert p => Memo.insert p
  | .offer id o => Memo.offer model id o
  | .rerank id => Memo.rerank model id
  | .markExplored id key => Memo.markExplored id key

/-- The model that ranks all plans equal. -/
def CostModel.indifferent : CostModel where
  cost _ _ := .ok 0.0
  compare _ _ _ := .ok .eq

/-- A call is a sequence of moves. -/
theorem Call.moves {α : Type} (model : CostModel) (c : Call α) {m : Memo} (hv : m.Valid) :
    m.Moves ((c.edit model).runOn m).2 := by
  cases c with
  | insert p =>
    obtain ⟨m', hgrows, ⟨id, hrun, -⟩ | ⟨i, hrun⟩⟩ := Memo.insert_cases p hv
    · rw [Call.edit, hrun]
      exact hgrows.rests.moves
    · rw [Call.edit, hrun]
      exact hgrows.rests.moves
  | offer id o =>
    obtain ⟨r, m', hrun, hoffering⟩ := Memo.offer_cases hv model id o
    rw [Call.edit, hrun]
    exact (hoffering.changes hv).moves
  | rerank id =>
    obtain ⟨r, m', hrun, hranking⟩ := Memo.rerank_cases model id m
    rw [Call.edit, hrun]
    exact hranking.changes.moves
  | markExplored id key =>
    rw [Call.edit]
    cases hg : m.groups[id]? with
    | none =>
      rw [Memo.runOn_markExplored_of_unknown hg]
    | some g =>
      rw [Memo.runOn_markExplored_of_group hg]
      exact .single (.explore (.explore hg))

/-! ## Reachable memos -/

/-- A memo that any calls lead to, whatever model ranks plans in each of them. -/
inductive Memo.Reachable : Memo → Prop where
  | empty : Reachable Memo.empty
  | call {m : Memo} {α : Type} (model : CostModel) (c : Call α) (h : Reachable m) :
      Reachable ((c.edit model).runOn m).2

/-- Every reachable memo is valid. -/
theorem Memo.Reachable.valid {m : Memo} (h : m.Reachable) : m.Valid := by
  induction h with
  | empty => exact Memo.valid_empty
  | call model c _ ih => exact (c.moves model ih).valid ih

/-- A memo that calls lead to in all of which one model ranks plans. -/
inductive Memo.ReachableBy (model : CostModel) : Memo → Prop where
  | empty : ReachableBy model Memo.empty
  | call {m : Memo} {α : Type} (c : Call α) (h : ReachableBy model m) :
      ReachableBy model ((c.edit model).runOn m).2

theorem Memo.ReachableBy.reachable {m : Memo} {model : CostModel} (h : m.ReachableBy model) :
    m.Reachable := by
  induction h with
  | empty => exact .empty
  | call c _ ih => exact .call model c ih

section After

variable {α : Type} {m m' : Memo} {model : CostModel} {id : GroupId}

theorem Memo.Reachable.of_call {r : Except Fault α} (hm : m.Reachable) (model : CostModel)
    (c : Call α) (hrun : (c.edit model).runOn m = (r, m')) : m'.Reachable := by
  have hcall := hm.call model c
  rwa [hrun] at hcall

theorem Memo.Reachable.of_insert {p : Plan} {r : Except Fault GroupId} (hm : m.Reachable)
    (hrun : (Memo.insert p).runOn m = (r, m')) : m'.Reachable :=
  hm.of_call .indifferent (.insert p) hrun

theorem Memo.Reachable.of_offer {x : Offer} {r : Except Fault Outcome} (hm : m.Reachable)
    (hrun : (Memo.offer model id x).runOn m = (r, m')) : m'.Reachable :=
  hm.of_call model (.offer id x) hrun

theorem Memo.Reachable.of_rerank {r : Except Fault Bool} (hm : m.Reachable)
    (hrun : (Memo.rerank model id).runOn m = (r, m')) : m'.Reachable :=
  hm.of_call model (.rerank id) hrun

/-- A note changes one group. -/
theorem Memo.Reachable.explore {g : Group} (hm : m.Reachable) (hat : m.groups[id]? = some g)
    (key : RuleKey) : (m.edit id (·.explore key)).Reachable :=
  hm.of_call .indifferent (.markExplored id key) (Memo.runOn_markExplored_of_group hat key)

end After

/-- A new group comes about by inserting its shape. -/
theorem Memo.Create.reachable {m m' : Memo} (h : Memo.Create m m') (hm : m.Reachable) :
    m'.Reachable := by
  obtain ⟨hlive, hfresh⟩ := h
  rename_i s
  have hgroup : ∀ i ∈ s.inputs, (Memo.insert (.group i)).runOn m = (.ok i, m) := fun i hi =>
    Memo.runOn_insert_of_find? (Memo.find?_group_iff.mpr ⟨hlive i hi, rfl⟩)
  have henter : (Memo.enter s).runOn m = (.ok m.size, m.withGroup s) := by
    rw [Memo.runOn_enter, hfresh]
  have hrun : (Memo.insert s.overGroups).runOn m = (.ok m.size, m.withGroup s) := by
    cases s with
    | scan op => exact henter
    | unary op a =>
      exact (Edit.runOn_bind_of_ok (hgroup a (by simp [Node.inputs])) _).trans henter
    | join j a b =>
      exact (Edit.runOn_bind_of_ok (hgroup a (by simp [Node.inputs])) _).trans
        ((Edit.runOn_bind_of_ok (hgroup b (by simp [Node.inputs])) _).trans henter)
  exact hm.of_insert hrun

theorem Memo.Grows.reachable {m m' : Memo} (h : m.Grows m') (hm : m.Reachable) : m'.Reachable := by
  induction h with
  | refl => exact hm
  | tail _ hcreate ih => exact hcreate.reachable ih

/-! ## Later memos -/

namespace Memo

variable {m m' : Memo}

/-- One call. -/
inductive Proceeds (m : Memo) : Memo → Prop where
  | call {α : Type} (model : CostModel) (c : Call α) : Proceeds m ((c.edit model).runOn m).2

/-- Any calls. -/
abbrev Later : Memo → Memo → Prop := ReflTransGen Proceeds

theorem Later.reachable (h : m.Later m') (hm : m.Reachable) : m'.Reachable := by
  induction h with
  | refl => exact hm
  | tail _ hlast ih =>
    obtain ⟨model, c⟩ := hlast
    exact .call model c ih

/-- Calls are a sequence of moves. -/
theorem Later.moves (h : m.Later m') (hm : m.Reachable) : m.Moves m' := by
  induction h with
  | refl => exact .refl
  | tail hfirst hlast ih =>
    obtain ⟨model, c⟩ := hlast
    exact ih.trans (c.moves model (Later.reachable hfirst hm).valid)

theorem Later.extends (h : m.Later m') (hm : m.Reachable) : m.Extends m' := (h.moves hm).extends

/-- A reachable memo is later than the empty one. -/
theorem Reachable.later (h : m.Reachable) : Memo.empty.Later m := by
  induction h with
  | empty => exact .refl
  | call model c _ ih => exact .tail ih (.call model c)

end Memo

/-! ## Operations made of calls -/

namespace Edit

/-- An operation that changes the memo through calls alone. -/
inductive Scripted : {α : Type} → Edit α → Prop where
  /-- A question to the memo. -/
  | ask {α : Type} (f : Memo → Except Fault α) : Scripted (ask f)
  /-- A call. -/
  | call {α : Type} (model : CostModel) (c : Call α) : Scripted (c.edit model)
  /-- One operation after the other. -/
  | bind {α β : Type} {e : Edit α} {f : α → Edit β} (he : Scripted e)
      (hf : ∀ a, Scripted (f a)) : Scripted (e >>= f)

/-- An operation that changes the memo through calls alone, in all of which one model ranks
plans. -/
inductive ScriptedBy (model : CostModel) : {α : Type} → Edit α → Prop where
  /-- A question to the memo. -/
  | ask {α : Type} (f : Memo → Except Fault α) : ScriptedBy model (ask f)
  /-- A call. -/
  | call {α : Type} (c : Call α) : ScriptedBy model (c.edit model)
  /-- One operation after the other. -/
  | bind {α β : Type} {e : Edit α} {f : α → Edit β} (he : ScriptedBy model e)
      (hf : ∀ a, ScriptedBy model (f a)) : ScriptedBy model (e >>= f)

section ScriptedBy

variable {α : Type} {model : CostModel} {e e' : Edit α}

theorem ScriptedBy.scripted (h : ScriptedBy model e) : Scripted e := by
  induction h with
  | ask f => exact .ask f
  | call c => exact .call model c
  | bind _ _ ihe ihf => exact .bind ihe ihf

theorem ScriptedBy.pure (a : α) : ScriptedBy model (pure a : Edit α) := .ask fun _ => .ok a

theorem ScriptedBy.throw (f : Fault) : ScriptedBy model (throw f : Edit α) :=
  .ask fun _ => .error f

theorem ScriptedBy.ite {c : Prop} [Decidable c] (he : ScriptedBy model e)
    (he' : ScriptedBy model e') : ScriptedBy model (if c then e else e') := by
  split
  · exact he
  · exact he'

/-- Such an operation leads from one memo that the model alone has ranked to another. -/
theorem ScriptedBy.reachableBy {m : Memo} (h : ScriptedBy model e) (hm : m.ReachableBy model) :
    (e.runOn m).2.ReachableBy model := by
  induction h generalizing m with
  | ask f => exact hm
  | call c => exact .call c hm
  | @bind α β e f _ _ ihe ihf =>
    have hfirst := ihe hm
    rcases hrun : e.runOn m with ⟨x | a, m'⟩
    · rw [runOn_bind_of_error hrun]
      rwa [hrun] at hfirst
    · rw [runOn_bind_of_ok hrun]
      rw [hrun] at hfirst
      exact ihf a hfirst

end ScriptedBy

/-- The memos an operation goes through on its way, one after each call. -/
inductive Through : {α : Type} → Edit α → Memo → List Memo → Prop where
  /-- A question leaves the memo. -/
  | ask {α : Type} (f : Memo → Except Fault α) (m : Memo) : Through (ask f) m []
  /-- A call leaves another memo. -/
  | call {α : Type} (model : CostModel) (c : Call α) (m : Memo) :
      Through (c.edit model) m [((c.edit model).runOn m).2]
  /-- An operation that succeeds is followed by the next one. -/
  | next {α β : Type} {e : Edit α} {f : α → Edit β} {m m' : Memo} {a : α} {ms ms' : List Memo}
      (run : e.runOn m = (.ok a, m')) (first : Through e m ms) (rest : Through (f a) m' ms') :
      Through (e >>= f) m (ms ++ ms')
  /-- An operation that fails is not followed by another one. -/
  | stop {α β : Type} {e : Edit α} {f : α → Edit β} {m m' : Memo} {x : Fault} {ms : List Memo}
      (run : e.runOn m = (.error x, m')) (first : Through e m ms) : Through (e >>= f) m ms

variable {α : Type} {e : Edit α} {m : Memo}

/-- The memos an operation goes through are told for every operation made of calls. -/
theorem Scripted.exists_through (h : Scripted e) (m : Memo) : ∃ ms, Through e m ms := by
  induction h generalizing m with
  | ask f => exact ⟨[], .ask f m⟩
  | call model c => exact ⟨_, .call model c m⟩
  | @bind α β e f _ _ ihe ihf =>
    obtain ⟨ms, hms⟩ := ihe m
    rcases hrun : e.runOn m with ⟨x | a, m'⟩
    · exact ⟨ms, .stop hrun hms⟩
    · obtain ⟨ms', hms'⟩ := ihf a m'
      exact ⟨ms ++ ms', .next hrun hms hms'⟩

/-- An operation made of calls leaves a later memo. -/
theorem Scripted.later (h : Scripted e) (m : Memo) : m.Later (e.runOn m).2 := by
  induction h generalizing m with
  | ask f => exact .refl
  | call model c => exact .single (.call model c)
  | @bind α β e f _ _ ihe ihf =>
    have hfirst := ihe m
    rcases hrun : e.runOn m with ⟨x | a, m'⟩
    · rw [runOn_bind_of_error hrun]
      rwa [hrun] at hfirst
    · rw [runOn_bind_of_ok hrun]
      rw [hrun] at hfirst
      exact hfirst.trans (ihf a m')

/-- An operation made of calls leads from a reachable memo to a reachable one. -/
theorem Scripted.reachable (h : Scripted e) (hm : m.Reachable) : (e.runOn m).2.Reachable :=
  (h.later m).reachable hm

/-- An operation made of calls is a sequence of moves. -/
theorem Scripted.moves (h : Scripted e) (hm : m.Reachable) : m.Moves (e.runOn m).2 :=
  (h.later m).moves hm

/-- What an operation made of calls leaves is reachable, if it starts in a reachable memo. -/
theorem Scripted.reachable_of_run (h : Scripted e) (hm : m.Reachable) {r : Except Fault α}
    {m' : Memo} (hrun : e.runOn m = (r, m')) : m'.Reachable := by
  have hend := h.reachable hm
  rwa [hrun] at hend

/-- An operation made of calls takes nothing away. -/
theorem Scripted.extends_of_run (h : Scripted e) (hm : m.Reachable) {r : Except Fault α}
    {m' : Memo} (hrun : e.runOn m = (r, m')) : m.Extends m' := by
  have hend := (h.moves hm).extends
  rwa [hrun] at hend

/-- Nothing is taken away from any memo on the way. -/
theorem Through.extends {ms : List Memo} (h : Through e m ms) (hm : m.Reachable) :
    (e.runOn m).2.Reachable ∧ m.Extends (e.runOn m).2 ∧ ∀ x ∈ ms, x.Extends (e.runOn m).2 := by
  induction h with
  | ask f m => exact ⟨hm, .refl m, fun _ hx => nomatch hx⟩
  | call model c m =>
    refine ⟨.call model c hm, (c.moves model hm.valid).extends, fun x hx => ?_⟩
    cases List.mem_singleton.mp hx
    exact .refl _
  | @next α β e f m m' a ms ms' hrun _ _ ihe ihf =>
    obtain ⟨hmid, hext, hall⟩ := ihe hm
    rw [hrun] at hmid hext hall
    obtain ⟨hend, hext', hall'⟩ := ihf hmid
    rw [runOn_bind_of_ok hrun]
    refine ⟨hend, hext.trans hext', fun x hx => ?_⟩
    rcases List.mem_append.mp hx with hx | hx
    · exact (hall x hx).trans hext'
    · exact hall' x hx
  | @stop α β e f m m' x ms hrun _ ihe =>
    obtain ⟨hmid, hext, hall⟩ := ihe hm
    rw [hrun] at hmid hext hall
    rw [runOn_bind_of_error hrun]
    exact ⟨hmid, hext, hall⟩

end Edit

end PlanOptimizer
