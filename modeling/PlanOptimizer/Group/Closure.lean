import PlanOptimizer.Plan.Basic

/-!
# Closures over groups

The groups that can be reached from some groups by following links.  The search
goes depth first and lists each group once, in the order in which it is met.  It
stays inside a finite domain and takes every group it visits out of the domain,
so it ends also where links lead in circles.
-/

namespace PlanOptimizer

/-- A list of groups with one group taken out. -/
def without (id : GroupId) (ids : List GroupId) : List GroupId := ids.filter (· ≠ id)

@[simp] theorem mem_without {id x : GroupId} {ids : List GroupId} :
    x ∈ without id ids ↔ x ∈ ids ∧ x ≠ id := by simp [without]

theorem without_cons (id x : GroupId) (ids : List GroupId) :
    without id (x :: ids) = if x = id then without id ids else x :: without id ids := by
  by_cases h : x = id <;> simp [without, h]

theorem length_without_lt {id : GroupId} {ids : List GroupId} (h : id ∈ ids) :
    (without id ids).length < ids.length :=
  List.length_filter_lt_length_iff_exists.mpr ⟨id, h, by simp⟩

/-- The groups of `fresh` met from `pending` by following the links `next`, in
the order of a depth-first search. -/
@[semireducible] def closure (next : GroupId → List GroupId) (fresh pending : List GroupId) :
    List GroupId :=
  match _hfind : pending.find? (· ∈ fresh) with
  | none => []
  | some id => id :: closure next (without id fresh) (next id ++ pending)
termination_by fresh.length
decreasing_by
  exact length_without_lt (by simpa using List.find?_some _hfind)

/-- A search stays inside its domain. -/
theorem mem_of_mem_closure {next : GroupId → List GroupId} {fresh pending : List GroupId}
    {id : GroupId} (h : id ∈ closure next fresh pending) : id ∈ fresh := by
  fun_induction closure next fresh pending with
  | case1 => simp at h
  | case2 fresh pending found hfound ih =>
    rcases List.mem_cons.mp h with rfl | h
    · simpa using List.find?_some hfound
    · exact (mem_without.mp (ih h)).1

/-- Circles are no obstacle, and the first link is followed first. -/
example : closure (fun id => if id = 0 then [2, 1] else [0]) [0, 1, 2, 3] [0] = [0, 2, 1] := by
  decide

end PlanOptimizer
