import PlanOptimizer.Proofs.Fixpoint.Regime

/-!
# Counting changes down

A run makes passes until one of them reports no change.  If what is still to be done is bounded by a
number that goes down with each pass that reports a change, then there are no more passes than that
number and one (`Optimizer.meets_runPasses_of_left`), and with as many passes the run comes to its
end (`Optimizer.optimize_of_left`).
-/

namespace PlanOptimizer

open Edit

namespace Optimizer

variable {o : Optimizer} {root : GroupId} {m : Memo} {k : Nat} {Left : Nat → Memo → Prop}

/-- What a pass keeps of a bound for the changes that are left. -/
def CountsDown (o : Optimizer) (root : GroupId) (Left : Nat → Memo → Prop)
    (F : Fault → Memo → Prop) : Prop :=
  ∀ {k : Nat} {m : Memo} (pass : Nat), Left k m →
    (o.runPass root pass).Meets m (fun t m' => ∃ k', Left k' m' ∧ k' + t.changed.toNat ≤ k) F

/-- There are no more passes with a change than changes that are left. -/
theorem meets_runPasses_of_left {F : Fault → Memo → Prop} (hpass : o.CountsDown root Left F)
    (left : Nat) : ∀ {k c m}, Left k m → k < left →
      (o.runPasses root left c).Meets m
        (fun c' m' => c'.passes ≤ c.passes + k + 1 ∧ ∃ k', Left k' m') F := by
  induction left with
  | zero =>
    intro k c m _ hlt
    exact absurd hlt (Nat.not_lt_zero k)
  | succ left ih =>
    intro k c m hk hlt
    refine (hpass (c.passes + 1) hk).bind fun t m₁ h₁ => ?_
    obtain ⟨k', hk', hle⟩ := h₁
    dsimp only
    split
    · next hchanged =>
      rw [hchanged] at hle
      have hone : k' + 1 ≤ k := hle
      refine (ih hk' (by omega)).imp (fun c' m' hq => ⟨?_, hq.2⟩) fun _ _ hf => hf
      have hpasses := hq.1
      dsimp only at hpasses
      omega
    · exact meets_of_ok (runOn_pure _ _) ⟨by dsimp only; omega, k', hk'⟩

/-- If no pass fails, a run with enough groups and passes comes to its end. -/
theorem optimize_of_left {p : Plan} (hpass : o.CountsDown root Left fun _ _ => False)
    (hlive : ∀ {k m}, Left k m → m.Reachable ∧ root < m.size)
    (hinsert : (Memo.insert p).runOn .empty = (.ok root, m)) (hsize : m.size ≤ o.limits.groups)
    (hk : Left k m) (hpasses : k + 1 ≤ o.limits.passes) :
    ∃ r, o.optimize p = .ok r ∧ r.root = root ∧ r.convergence.passes ≤ k + 1 ∧
      ∃ k', Left k' r.memo := by
  have hinto : (o.optimizeInto p).Meets .empty
      (fun r m' => r.1 = root ∧ r.2.1.passes ≤ k + 1 ∧ ∃ k', Left k' m') fun _ _ => False := by
    obtain ⟨g, hg⟩ := Memo.lt_size_iff.mp (hlive hk).2
    have hcheck : o.checkSize root m = .ok () := if_pos hsize
    refine meets_bind_of_ok hinsert (meets_ask_bind hcheck ?_)
    have hruns := meets_runPasses_of_left hpass (max o.limits.passes 1) (c := ⟨0, 0⟩) hk (by omega)
    have hin : (o.optimizeIn root).Meets m
        (fun c m' => c.passes ≤ 0 + k + 1 ∧ ∃ k', Left k' m') fun _ _ => False :=
      meets_ask_bind (Memo.group_eq_ok_iff.mpr hg) hruns
    refine hin.bind fun c m' hend => ?_
    obtain ⟨hc, k', hk'⟩ := hend
    obtain ⟨hm', hroot'⟩ := hlive hk'
    obtain ⟨q, hq, -⟩ := hm'.valid.resolve_ok hroot'
    exact meets_ask_bind hq (meets_of_ok (runOn_pure _ _) ⟨rfl, by dsimp only; omega, k', hk'⟩)
  rcases hinto.run with ⟨⟨root', c, best⟩, m', hrun, rfl, hc, hend⟩ | ⟨_, _, _, hf⟩
  · refine ⟨⟨best, root', c, m'⟩, ?_, rfl, hc, hend⟩
    unfold optimize
    rw [hrun]
  · exact hf.elim

end Optimizer

end PlanOptimizer
