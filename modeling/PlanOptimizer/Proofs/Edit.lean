import PlanOptimizer.Memo.Basic

/-!
# Running operations

What an operation answers and leaves behind, one equation for each way to put
operations together.  A question leaves the memo as it is, and an operation that
fails keeps what it has done to the memo so far.

`Edit.runOn_bind_ok_iff` and `Edit.runOn_bind_error_iff` take the run of a sequence
apart.
-/

namespace PlanOptimizer

namespace Edit

variable {α β : Type}

/-! ## Equations -/

@[simp] theorem runOn_pure (a : α) (m : Memo) : (pure a : Edit α).runOn m = (.ok a, m) := rfl

@[simp] theorem runOn_ask (f : Memo → Except Fault α) (m : Memo) :
    (ask f).runOn m = (f m, m) := rfl

/-- A sequence goes on with the answer of its first part, in the memo that the
first part has left. -/
theorem runOn_bind (e : Edit α) (f : α → Edit β) (m : Memo) :
    (e >>= f).runOn m =
      match e.runOn m with
      | (.ok a, m') => (f a).runOn m'
      | (.error x, m') => (.error x, m') := by
  have h : (e >>= f).runOn m = ExceptT.bindCont f (e.runOn m).1 (e.runOn m).2 := rfl
  rw [h]
  rcases e.runOn m with ⟨_ | a, m'⟩ <;> rfl

theorem runOn_bind_of_ok {e : Edit α} {m m' : Memo} {a : α} (h : e.runOn m = (.ok a, m'))
    (f : α → Edit β) : (e >>= f).runOn m = (f a).runOn m' := by
  rw [runOn_bind, h]

theorem runOn_bind_of_error {e : Edit α} {m m' : Memo} {x : Fault}
    (h : e.runOn m = (.error x, m')) (f : α → Edit β) :
    (e >>= f).runOn m = (.error x, m') := by
  rw [runOn_bind, h]

/-- A sequence that begins with a question goes on in the same memo. -/
@[simp] theorem runOn_ask_bind (f : Memo → Except Fault α) (g : α → Edit β) (m : Memo) :
    (ask f >>= g).runOn m =
      match f m with
      | .ok a => (g a).runOn m
      | .error x => (.error x, m) := by
  rw [runOn_bind, runOn_ask]
  cases f m <;> rfl

@[simp] theorem runOn_get_bind (g : Memo → Edit β) (m : Memo) :
    (get >>= g).runOn m = (g m).runOn m := rfl

@[simp] theorem runOn_map (g : α → β) (e : Edit α) (m : Memo) :
    (g <$> e).runOn m = ((e.runOn m).1.map g, (e.runOn m).2) := by
  have h : (g <$> e).runOn m = (e >>= fun a => pure (g a)).runOn m := rfl
  rw [h, runOn_bind]
  rcases e.runOn m with ⟨_ | a, m'⟩ <;> rfl

/-! ## Taking a sequence apart -/

/-- A question answers what the memo tells. -/
theorem runOn_ask_ok_iff {f : Memo → Except Fault α} {m m' : Memo} {a : α} :
    (ask f).runOn m = (.ok a, m') ↔ f m = .ok a ∧ m' = m := by
  rw [runOn_ask, Prod.mk.injEq, eq_comm (a := m)]

theorem runOn_bind_ok_iff {e : Edit α} {f : α → Edit β} {m m' : Memo} {b : β} :
    (e >>= f).runOn m = (.ok b, m') ↔
      ∃ a m₁, e.runOn m = (.ok a, m₁) ∧ (f a).runOn m₁ = (.ok b, m') := by
  rw [runOn_bind]
  rcases e.runOn m with ⟨x | a, m₁⟩
  · simp
  · constructor
    · intro h
      exact ⟨a, m₁, rfl, h⟩
    · rintro ⟨a', m₁', heq, h⟩
      cases heq
      exact h

theorem runOn_bind_error_iff {e : Edit α} {f : α → Edit β} {m m' : Memo} {x : Fault} :
    (e >>= f).runOn m = (.error x, m') ↔
      e.runOn m = (.error x, m') ∨
        ∃ a m₁, e.runOn m = (.ok a, m₁) ∧ (f a).runOn m₁ = (.error x, m') := by
  rw [runOn_bind]
  rcases e.runOn m with ⟨y | a, m₁⟩
  · simp
  · constructor
    · intro h
      exact .inr ⟨a, m₁, rfl, h⟩
    · rintro (heq | ⟨a', m₁', heq, h⟩)
      · cases heq
      · cases heq
        exact h

end Edit

end PlanOptimizer
