import PlanOptimizer.Proofs.Expansion

/-!
# Resolution by recursion

`Lookup.Unfolds` gives the rules by which a recursion replaces references: it goes down from left to
right, it goes on with the plan of a group where it meets a reference, and it gives up where it
meets a group on the path from the root or one that has no plan.  The rules mention neither an
agenda nor a store, and nothing bounds the recursion.

They leave no choice and no plan without an outcome, also where groups refer to one another in
circles: a path holds each known group once at most.  So resolution, which does keep a store, comes
to the outcome of the rules and to no other (`Plan.resolve_eq_iff_unfolds`).
-/

namespace PlanOptimizer

namespace Lookup

/-- What comes of replacing all references of a plan, where the groups of the path are being
replaced already. -/
inductive Unfolds (lookup : Lookup) : List GroupId → Plan → Except Fault Plan → Prop where
  /-- A scan stays. -/
  | scan {path : List GroupId} (s : Scan) : Unfolds lookup path (.scan s) (.ok (.scan s))
  /-- An operator goes on top of what comes of its input. -/
  | unary {path : List GroupId} {op : Unary} {a a' : Plan} (input : Unfolds lookup path a (.ok a')) :
      Unfolds lookup path (.unary op a) (.ok (.unary op a'))
  /-- An operator fails with its input. -/
  | input_fails {path : List GroupId} {op : Unary} {a : Plan} {f : Fault}
      (input : Unfolds lookup path a (.error f)) : Unfolds lookup path (.unary op a) (.error f)
  /-- A join goes on top of what comes of its inputs. -/
  | join {path : List GroupId} {j : Join} {a b a' b' : Plan}
      (left : Unfolds lookup path a (.ok a')) (right : Unfolds lookup path b (.ok b')) :
      Unfolds lookup path (.join j a b) (.ok (.join j a' b'))
  /-- A join fails with its left input, whatever the right one is. -/
  | left_fails {path : List GroupId} {j : Join} {a b : Plan} {f : Fault}
      (left : Unfolds lookup path a (.error f)) : Unfolds lookup path (.join j a b) (.error f)
  /-- A join fails with its right input if nothing is wrong on the left. -/
  | right_fails {path : List GroupId} {j : Join} {a b a' : Plan} {f : Fault}
      (left : Unfolds lookup path a (.ok a')) (right : Unfolds lookup path b (.error f)) :
      Unfolds lookup path (.join j a b) (.error f)
  /-- A group that is met on its own path is a cyclic reference. -/
  | circle {path : List GroupId} {id : GroupId} (met : id ∈ path) :
      Unfolds lookup path (.group id) (.error (.cyclicReference id))
  /-- A group may have no plan. -/
  | unknown {path : List GroupId} {id : GroupId} (new : id ∉ path) (missing : lookup.find id = none) :
      Unfolds lookup path (.group id) (.error (.unknownGroup id))
  /-- A reference gives way to what comes of the plan of the group. -/
  | group {path : List GroupId} {id : GroupId} {p : Plan} {r : Except Fault Plan} (new : id ∉ path)
      (found : lookup.find id = some p) (plan : Unfolds lookup (id :: path) p r) :
      Unfolds lookup path (.group id) r

variable {lookup : Lookup} {path : List GroupId} {p : Plan} {r : Except Fault Plan}

/-- Expansion follows the rules. -/
theorem unfolds_expand (path : List GroupId) (p : Plan) :
    lookup.Unfolds path p (lookup.expand path p) := by
  fun_induction expand lookup path p with
  | case1 path s => exact .scan s
  | case2 path op a ih =>
    cases ha : lookup.expand path a with
    | error f => exact .input_fails (ha ▸ ih)
    | ok a' => exact .unary (ha ▸ ih)
  | case3 path j a b iha ihb =>
    cases ha : lookup.expand path a with
    | error f => exact .left_fails (ha ▸ iha)
    | ok a' =>
      cases hb : lookup.expand path b with
      | error f => exact .right_fails (ha ▸ iha) (hb ▸ ihb)
      | ok b' => exact .join (ha ▸ iha) (hb ▸ ihb)
  | case4 path id hpath => exact .circle hpath
  | case5 path id hpath hfind => exact .unknown hpath hfind
  | case6 path id hpath p hfind ih => exact .group hpath hfind ih

/-- What the rules allow is the expansion. -/
theorem Unfolds.eq_expand (h : lookup.Unfolds path p r) : r = lookup.expand path p := by
  induction h with
  | scan s => exact (expand_scan s).symm
  | unary _ ih => rw [expand_unary, ← ih, Except.map]
  | input_fails _ ih => rw [expand_unary, ← ih, Except.map]
  | join _ _ iha ihb => rw [expand_join, ← iha, ok_bind, ← ihb, Except.map]
  | left_fails _ ih =>
    rw [expand_join, ← ih]
    rfl
  | right_fails _ _ iha ihb => rw [expand_join, ← iha, ok_bind, ← ihb, Except.map]
  | circle met => exact (expand_group_of_mem met).symm
  | unknown new missing => exact (expand_group_of_unknown new missing).symm
  | group new found _ ih => rw [expand_group_of_find new found, ih]

theorem unfolds_iff : lookup.Unfolds path p r ↔ lookup.expand path p = r :=
  ⟨fun h => h.eq_expand.symm, fun h => h ▸ unfolds_expand path p⟩

end Lookup

/-- **Resolution is the plain recursion.**  For every plan and lookup it comes to the one outcome
that the rules allow.  What it gives has no reference at any depth, and a plan is what it resolves
to just if it has none. -/
theorem Plan.resolve_eq_iff_unfolds (p : Plan) (lookup : Lookup) :
    (∀ r, p.resolve lookup = r ↔ lookup.Unfolds [] p r) ∧
      (∀ q, p.resolve lookup = .ok q → q.hasGroups = false) ∧
      (p.resolve lookup = .ok p ↔ p.hasGroups = false) := by
  rw [resolve_eq_expand]
  refine ⟨fun r => Lookup.unfolds_iff.symm, fun q => Lookup.hasGroups_of_expand, ?_⟩
  exact ⟨Lookup.hasGroups_of_expand, Lookup.expand_of_hasGroups⟩

section Tangle

private def tangle : Lookup :=
  .ofTable [(0, .group 1), (1, .limit 0 1 (.group 2)), (2, .scanAll "s" "t"),
    (3, .join ⟨.cross, .always⟩ (.group 0) (.group 4)), (4, .limit 0 2 (.group 3))]

private def beneath : Plan := .limit 0 1 (.scanAll "s" "t")

/-- A group that is shared, and met again through another reference, is no circle.  Of a circle and
an unknown group the one further left is reported. -/
theorem unfolds_of_tangle :
    tangle.Unfolds [] (.join ⟨.cross, .always⟩ (.group 0) (.group 1))
        (.ok (.join ⟨.cross, .always⟩ beneath beneath)) ∧
      (Plan.join ⟨.cross, .always⟩ beneath beneath).hasGroups = false ∧
      tangle.Unfolds [] (.join ⟨.cross, .always⟩ (.group 4) (.group 9))
        (.error (.cyclicReference 4)) ∧
      tangle.Unfolds [] (.join ⟨.cross, .always⟩ (.group 9) (.group 4))
        (.error (.unknownGroup 9)) ∧
      beneath.resolve tangle = .ok beneath := by
  have hshared : (Plan.join ⟨.cross, .always⟩ (.group 0) (.group 1)).resolve tangle =
      .ok (.join ⟨.cross, .always⟩ beneath beneath) := by decide +kernel
  obtain ⟨hunfolds, hplain, -⟩ := Plan.resolve_eq_iff_unfolds
    (.join ⟨.cross, .always⟩ (.group 0) (.group 1)) tangle
  refine ⟨(hunfolds _).mp hshared, hplain _ hshared, ?_, ?_, ?_⟩
  · exact ((Plan.resolve_eq_iff_unfolds _ _).1 _).mp (by decide +kernel)
  · exact ((Plan.resolve_eq_iff_unfolds _ _).1 _).mp (by decide +kernel)
  · exact (Plan.resolve_eq_iff_unfolds _ _).2.2.mpr (by decide +kernel)

end Tangle

end PlanOptimizer
