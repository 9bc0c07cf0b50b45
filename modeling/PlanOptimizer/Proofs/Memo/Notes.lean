import PlanOptimizer.Proofs.Memo.Below
import PlanOptimizer.Proofs.Memo.Operations

/-!
# What an exploration note certifies

A note on a group is wiped when the group turns or any group below it does.  So a note
that is found later on certifies that nothing at or below the group has changed since it
was made (`Memo.Certifies`), as long as it is not made a second time.

Turning a group wipes the notes of all groups that some candidate leads from, retired ones
included.  These are more than the groups that lead to it through representatives.
-/

namespace PlanOptimizer

open Relation

namespace Memo

variable {m m' m'' : Memo} {id j : GroupId} {key : RuleKey}

/-- A group has a note for a rule. -/
def Noted (m : Memo) (id : GroupId) (key : RuleKey) : Prop :=
  ∃ g : Group, m.groups[id]? = some g ∧ key ∈ g.explored

/-- Every note of a later memo was there before, and nothing below its group has changed. -/
def Certifies (m m' : Memo) : Prop :=
  ∀ id key, m'.Noted id key → m.Noted id key ∧ m.SameBelow m' id

theorem Certifies.refl (m : Memo) : m.Certifies m := fun id _ h => ⟨h, .refl m id⟩

theorem Certifies.trans (h : m.Certifies m') (h' : m'.Certifies m'') : m.Certifies m'' := by
  intro id key hnoted
  obtain ⟨hmid, hsame'⟩ := h' id key hnoted
  obtain ⟨hfirst, hsame⟩ := h id key hmid
  exact ⟨hfirst, hsame.trans hsame'⟩

theorem lt_of_noted (h : m.Noted id key) : id < m.size := by
  obtain ⟨g, hg, -⟩ := h
  exact lt_size_iff.mpr ⟨g, hg⟩

theorem not_noted_empty : ¬ Memo.empty.Noted id key :=
  fun h => Nat.not_lt_zero _ (lt_of_noted h)

theorem noted_explore {x : RuleKey} (h : (m.edit id (·.explore key)).Noted j x) :
    m.Noted j x ∨ j = id ∧ x = key := by
  obtain ⟨g', hg', hx⟩ := h
  by_cases heq : j = id
  · subst heq
    rw [groups_edit] at hg'
    obtain ⟨g, hg, rfl⟩ := Option.map_eq_some_iff.mp hg'
    rw [if_pos rfl] at hx
    rcases Group.mem_explore.mp hx with rfl | hx
    · exact .inr ⟨rfl, rfl⟩
    · exact .inl ⟨g, hg, hx⟩
  · rw [groups_edit_ne heq] at hg'
    exact .inl ⟨g', hg', hx⟩

/-! ## Moves -/

/-- A new group has no notes, and the others keep theirs. -/
theorem Quiet.noted (h : Quiet m m') (hnoted : m'.Noted id key) : m.Noted id key := by
  obtain ⟨g', hg', hkey⟩ := hnoted
  have hback : id < m.size → m.Noted id key := by
    intro hid
    obtain ⟨g, hg⟩ := lt_size_iff.mp hid
    obtain ⟨g'', hg'', hsteady⟩ := h.steady hg
    obtain rfl : g' = g'' := Option.some.inj (hg'.symm.trans hg'')
    exact ⟨g, hg, hsteady.explored ▸ hkey⟩
  have hid' : id < m'.size := lt_size_iff.mpr ⟨g', hg'⟩
  cases h with
  | create hcreate =>
    obtain ⟨-, -⟩ := hcreate
    rcases group_withGroup_cases hg' with ⟨g, hg, -⟩ | ⟨-, rfl⟩
    · exact hback (lt_size_iff.mpr ⟨g, hg⟩)
    · cases hkey
  | attach =>
    rw [size_attach] at hid'
    exact hback hid'
  | pin => exact hback ((size_edit _ _ _).symm ▸ hid')
  | settle => exact hback ((size_edit _ _ _).symm ▸ hid')

theorem Quiet.certifies (h : Quiet m m') (hv : m.Valid) : m.Certifies m' := by
  intro id key hnoted
  have hbefore := h.noted hnoted
  exact ⟨hbefore, fun j hj => h.rep? (hv.lt_of_reaches (lt_of_noted hbefore) hj)⟩

theorem Rests.certifies (h : m.Rests m') (hv : m.Valid) : m.Certifies m' := by
  induction h with
  | refl => exact .refl m
  | tail hfirst hlast ih => exact ih.trans (hlast.certifies ((Rests.moves hfirst).valid hv))

theorem parents_edit {f : Group → Group} (hf : ∀ g, (f g).parents = g.parents) :
    (m.edit j f).parents = m.parents := by
  funext i
  unfold Memo.parents
  rw [groups_edit]
  cases m.groups[i]? with
  | none => rfl
  | some g =>
    by_cases heq : i = j
    · simp [heq, hf]
    · simp [heq]

/-- A group that keeps a note is not above the group that has turned. -/
theorem noted_edit_invalidate {f : Group → Group} (hp : ∀ g, (f g).parents = g.parents)
    (he : ∀ g, (f g).explored = g.explored) (h : ((m.edit j f).invalidate j).Noted id key) :
    m.Noted id key ∧ id ∉ m.above j := by
  have habove : (m.edit j f).above j = m.above j := by
    unfold above ids
    rw [parents_edit hp, size_edit]
  obtain ⟨g', hg', hkey⟩ := h
  rw [groups_invalidate, habove, groups_edit, Option.map_map] at hg'
  obtain ⟨g, hg, rfl⟩ := Option.map_eq_some_iff.mp hg'
  dsimp only [Function.comp] at hkey
  by_cases hin : id ∈ m.above j
  · rw [Group.explored_reopen_of_mem hin] at hkey
    cases hkey
  · rw [Group.reopen_of_not_mem hin] at hkey
    refine ⟨⟨g, hg, ?_⟩, hin⟩
    split at hkey
    · rwa [he] at hkey
    · exact hkey

theorem Turn.noted (h : Turn j m m') (hnoted : m'.Noted id key) :
    m.Noted id key ∧ id ∉ m.above j := by
  cases h with
  | promote => exact noted_edit_invalidate (by simp) (by simp) hnoted
  | force => exact noted_edit_invalidate (by simp) (by simp) hnoted

theorem Turn.certifies (h : Turn j m m') (hv : m.Valid) : m.Certifies m' := by
  intro id key hnoted
  obtain ⟨hbefore, hnot⟩ := h.noted hnoted
  obtain ⟨s, -, hs, -⟩ := h.rep?_self
  refine ⟨hbefore, fun k hk => h.rep?_of_ne ?_⟩
  rintro rfl
  exact hnot (hv.mem_above_of_reaches (lt_of_candidate hs) hk)

theorem Changes.certifies (h : Changes j m m') (hv : m.Valid) : m.Certifies m' := by
  cases h with
  | rests h => exact h.certifies hv
  | turns h hturn => exact (h.certifies hv).trans (hturn.certifies (h.moves.valid hv))

end Memo

end PlanOptimizer
