import PlanOptimizer.Proofs.Memo.Resolvable
import PlanOptimizer.Rule.Basic

/-!
# Faults of operations

What an operation on a valid memo fails with.  Only the two faults of a spent budget carry
a plan, and an operation on a memo raises neither of them: a fault with a plan is one that
the cost model has answered.
-/

namespace PlanOptimizer

/-! ## Patterns -/

/-- A plan leads to no operator only if a group is unknown or part of itself. -/
theorem Lookup.best?_of_settle {lookup : Lookup} {p : Plan} {f : Fault}
    (h : lookup.settle p = .error f) : f.best? = none := by
  have hget : ∀ {id : GroupId} {f : Fault}, lookup.get id = .error f → f.best? = none := by
    intro id f hf
    unfold get at hf
    split at hf
    · cases hf
    · cases hf
      rfl
  have hwithin : ∀ (hops : Nat) (id : GroupId) (f : Fault),
      lookup.answerWithin settleBy hops id = .error f → f.best? = none := by
    intro hops
    induction hops with
    | zero =>
      intro id f hf
      unfold answerWithin at hf
      rcases bind_eq_error.mp hf with hf | ⟨p, -, hf⟩
      · exact hget hf
      · cases hf
        rfl
    | succ hops ih =>
      intro id f hf
      unfold answerWithin at hf
      rcases bind_eq_error.mp hf with hf | ⟨p, -, hf⟩
      · exact hget hf
      · cases p with
        | scan op => cases hf
        | unary op a => cases hf
        | join j a b => cases hf
        | group i => exact ih i f hf
  cases p with
  | scan op => cases h
  | unary op a => cases h
  | join j a b => cases h
  | group i => exact hwithin _ i f h

namespace Pattern

variable {lookup : Lookup} {f : Fault}

mutual

theorem best?_of_fits : ∀ {pattern : Pattern} {p : Plan},
    pattern.fits lookup p = .error f → f.best? = none
  | .any, _, h => by
    unfold fits at h
    cases h
  | .leaf, _, h => by
    unfold fits at h
    rcases bind_eq_error.mp h with h | ⟨top, -, h⟩
    · exact Lookup.best?_of_settle h
    · cases h
  | .operator kind inputs, _, h => by
    unfold fits at h
    rcases bind_eq_error.mp h with h | ⟨top, -, h⟩
    · exact Lookup.best?_of_settle h
    · split at h
      · exact best?_of_fitsAll h
      · cases h

theorem best?_of_fitsAll : ∀ {patterns : List Pattern} {ps : List Plan},
    fitsAll lookup patterns ps = .error f → f.best? = none
  | pattern :: patterns, p :: ps, h => by
    unfold fitsAll at h
    rcases bind_eq_error.mp h with h | ⟨fit, -, h⟩
    · exact best?_of_fits h
    · split at h
      · exact best?_of_fitsAll h
      · cases h
  | [], _, h => by
    unfold fitsAll at h
    cases h
  | _ :: _, [], h => by
    unfold fitsAll at h
    cases h

end

end Pattern

/-- Whether a rule is to be applied is told by its pattern. -/
theorem Rule.best?_of_applies {rule : Rule} {lookup : Lookup} {p : Plan} {f : Fault}
    (h : rule.applies lookup p = .error f) : f.best? = none := by
  unfold applies at h
  split at h
  · split at h
    · exact Pattern.best?_of_fits h
    · cases h
  · cases h

/-! ## Operations on a memo -/

namespace Memo

variable {model : CostModel} {m m' : Memo} {id : GroupId} {s : Shape} {f : Fault}

theorem best?_of_group (h : m.group id = .error f) : f.best? = none := by
  unfold group at h
  split at h
  · cases h
  · cases h
    rfl

/-- A shape is refused because it leads back to the group, or for its columns. -/
theorem Valid.fault_of_vet (hv : m.Valid) (hid : id < m.size) (hlive : ∀ i ∈ s.inputs, i < m.size)
    (h : m.vet id s = .error f) :
    f = .selfReference id ∨ ∃ e a, f = .columnCount id e a := by
  rcases hv.vet_cases hid hlive with ⟨-, hvet⟩ | ⟨-, r, -, ⟨-, hvet⟩ | ⟨e, a, -, hvet⟩⟩
  · cases hvet.symm.trans h
    exact .inl rfl
  · cases hvet.symm.trans h
  · cases hvet.symm.trans h
    exact .inr ⟨e, a, rfl⟩

/-- A ranking fails only if the cost model does, asked to compare one of the candidates with another
one or with the best one so far. -/
theorem fault_of_best {b : Shape × Nat} {cs : List (Shape × Nat)}
    (h : m.best model id b cs = .error f) :
    ∃ a ∈ cs, ∃ c ∈ b :: cs, model.compare a.1.overGroups c.1.overGroups m.lookup = .error f := by
  induction cs generalizing b with
  | nil => cases h
  | cons c cs ih =>
    unfold best at h
    rcases bind_eq_error.mp h with h | ⟨order, -, h⟩
    · exact ⟨c, List.mem_cons_self, b, List.mem_cons_self, h⟩
    · dsimp only at h
      split at h
      · obtain ⟨a, ha, d, hd, hfault⟩ := ih h
        exact ⟨a, List.mem_cons_of_mem _ ha, d, List.mem_cons_of_mem _ hd, hfault⟩
      · obtain ⟨a, ha, d, hd, hfault⟩ := ih h
        refine ⟨a, List.mem_cons_of_mem _ ha, d, ?_, hfault⟩
        rcases List.mem_cons.mp hd with rfl | hd
        · exact List.mem_cons_self
        · exact List.mem_cons_of_mem _ (List.mem_cons_of_mem _ hd)

/-- Only an alternative can fail to be placed, if the cost model fails when it is asked to compare
it with the representative. -/
theorem Placement.fault {forced : Bool} (h : Placement model id s m forced (.error f) m') :
    m' = m ∧ forced = false ∧ ∃ r, m.rep? id = some r ∧
      model.compare s.overGroups r.overGroups m.lookup = .error f := by
  cases h with
  | @unranked g _ hat hfault =>
    have hrep := rep?_of_group hat
    refine ⟨rfl, rfl, g.shape, hrep, ?_⟩
    unfold prefers at hfault
    rw [shape_of_rep hrep] at hfault
    rcases bind_eq_error.mp hfault with hfault | ⟨_, hc, hfault⟩
    · cases hfault
    · cases hc
      rcases bind_eq_error.mp hfault with hfault | ⟨order, -, hfault⟩
      · exact hfault
      · cases hfault

/-- An offer that fails with a plan is an alternative, and the cost model has failed with that fault
when it was asked to compare what the offer comes down to with the representative. -/
theorem Offering.fault {o : Offer} (h : Offering model id o m (.error f) m') (hv : m.Valid)
    (hid : id < m.size) : f.best? = none ∨
      o.forced = false ∧ ∃ s r, m'.normal? o.plan = some s ∧ m'.rep? id = some r ∧
        model.compare s.overGroups r.overGroups m'.lookup = .error f := by
  cases h with
  | unknown => exact .inl rfl
  | dangling => exact .inl rfl
  | refused hgrows hs hvet =>
    have hv' := hgrows.valid hv
    have hlive := hgrows.extends.size_le hid
    rcases hv'.fault_of_vet hlive (hv'.live_normal? hs) hvet with rfl | ⟨e, a, rfl⟩
    · exact .inl rfl
    · exact .inl rfl
  | placed _ hs _ hplacement =>
    obtain ⟨rfl, hforced, r, hrep, hfault⟩ := hplacement.fault
    exact .inr ⟨hforced, _, r, hs, hrep, hfault⟩

/-- A ranking that fails with a plan has asked the cost model to compare two candidates that are not
retired, and the model has failed with that fault. -/
theorem Ranking.fault (h : Ranking model id m (.error f) m') :
    f.best? = none ∨
      m' = m ∧ ∃ g, m.groups[id]? = some g ∧ ∃ a ∈ challengers g,
        ∃ b ∈ (g.shape, g.representative) :: challengers g,
          model.compare a.1.overGroups b.1.overGroups m.lookup = .error f := by
  cases h with
  | unknown => exact .inl rfl
  | failed hat hfault => exact .inr ⟨rfl, _, hat, fault_of_best hfault⟩

end Memo

end PlanOptimizer
