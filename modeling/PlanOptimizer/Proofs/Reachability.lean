import Mathlib.Logic.Relation
import Mathlib.Order.WellFounded
import PlanOptimizer.Group.Closure

/-!
# Reaching groups by links

A function from groups to the groups they link to makes a graph.  `Reaches next a b`
says that links lead from `a` to `b` in any number of steps.

`mem_closure_iff`: a search finds exactly the groups that can be reached from the
pending ones, if its domain is closed under links.

`wellFounded_redirect`: giving one group other links closes no circle, if none of
the new links leads back to it.  Whether a link leads back is asked before the
change is made.
-/

namespace PlanOptimizer

open Relation

/-- A group links to another one. -/
def Links (next : GroupId → List GroupId) (a b : GroupId) : Prop := b ∈ next a

/-- Links lead from a group to another one. -/
abbrev Reaches (next : GroupId → List GroupId) : GroupId → GroupId → Prop :=
  ReflTransGen (Links next)

variable {next : GroupId → List GroupId}

/-! ## What a search finds -/

/-- Whatever a search finds is reached from a pending group. -/
theorem reaches_of_mem_closure {fresh pending : List GroupId} {x : GroupId}
    (h : x ∈ closure next fresh pending) : ∃ p ∈ pending, Reaches next p x := by
  fun_induction closure next fresh pending with
  | case1 => cases h
  | case2 fresh pending found hfound ih =>
    have hpending : found ∈ pending := List.mem_of_find?_eq_some hfound
    rcases List.mem_cons.mp h with rfl | h
    · exact ⟨x, hpending, .refl⟩
    · obtain ⟨p, hp, hreach⟩ := ih h
      rcases List.mem_append.mp hp with hnext | hp
      · exact ⟨found, hpending, .head hnext hreach⟩
      · exact ⟨p, hp, hreach⟩

/-- A search finds every pending group of its domain. -/
theorem mem_closure_of_pending {fresh pending : List GroupId} {x : GroupId} (hx : x ∈ pending)
    (hfresh : x ∈ fresh) : x ∈ closure next fresh pending := by
  fun_induction closure next fresh pending with
  | case1 fresh pending hnone =>
    have hno := List.find?_eq_none.mp hnone x hx
    exact absurd hfresh (by simpa using hno)
  | case2 fresh pending found hfound ih =>
    by_cases heq : x = found
    · exact heq ▸ List.mem_cons_self
    · exact List.mem_cons_of_mem _
        (ih (List.mem_append_right _ hx) (mem_without.mpr ⟨hfresh, heq⟩))

/-- A search follows the links of every group it finds. -/
theorem mem_closure_of_link {fresh pending : List GroupId} {x y : GroupId}
    (hx : x ∈ closure next fresh pending) (hxy : Links next x y) (hfresh : y ∈ fresh) :
    y ∈ closure next fresh pending := by
  fun_induction closure next fresh pending with
  | case1 => cases hx
  | case2 fresh pending found hfound ih =>
    by_cases heq : y = found
    · exact heq ▸ List.mem_cons_self
    · have hrest : y ∈ without found fresh := mem_without.mpr ⟨hfresh, heq⟩
      refine List.mem_cons_of_mem _ ?_
      rcases List.mem_cons.mp hx with rfl | hx
      · exact mem_closure_of_pending (List.mem_append_left _ hxy) hrest
      · exact ih hx hrest

/-- A search finds exactly the groups reached from the pending ones, if its domain
is closed under links. -/
theorem mem_closure_iff {domain pending : List GroupId} {x : GroupId}
    (hclosed : ∀ a ∈ domain, ∀ b, Links next a b → b ∈ domain)
    (hpending : ∀ p ∈ pending, p ∈ domain) :
    x ∈ closure next domain pending ↔ ∃ p ∈ pending, Reaches next p x := by
  constructor
  · exact reaches_of_mem_closure
  · rintro ⟨p, hp, hreach⟩
    have hin : p ∈ closure next domain pending := mem_closure_of_pending hp (hpending p hp)
    induction hreach with
    | refl => exact hin
    | tail _ hlink ih =>
      exact mem_closure_of_link ih hlink (hclosed _ (mem_of_mem_closure ih) _ hlink)

/-! ## Circles -/

/-- No link of a group without a circle of links leads back to it. -/
theorem not_reaches_of_links (hwf : WellFounded fun b a => Links next a b) {a b : GroupId}
    (hab : Links next a b) : ¬ Reaches next b a := by
  intro hba
  have hcycle : TransGen (Links next) a a := .head' hab hba
  exact hwf.transGen.irrefl.irrefl a (transGen_swap.mp hcycle)

/-- Giving one group other links closes no circle, if none of the new links leads
back to the group. -/
theorem wellFounded_redirect {next' : GroupId → List GroupId} {a : GroupId}
    (hwf : WellFounded fun y x => Links next x y) (hsame : ∀ x, x ≠ a → next' x = next x)
    (hback : ∀ y, Links next' a y → ¬ Reaches next y a) :
    WellFounded fun y x => Links next' x y := by
  -- a group that does not lead to `a` keeps all its links, and so do the groups below it
  have hoff : ∀ y, ¬ Reaches next y a → Acc (fun y x => Links next' x y) y := by
    intro y
    induction y using hwf.induction with
    | _ y ih =>
      intro hy
      refine Acc.intro y fun z hz => ?_
      have hne : y ≠ a := fun h => hy (h ▸ .refl)
      have hlink : Links next y z := by
        unfold Links at hz ⊢
        rwa [hsame y hne] at hz
      exact ih z hlink fun hza => hy (.head hlink hza)
  have hat : Acc (fun y x => Links next' x y) a := Acc.intro a fun y hy => hoff y (hback y hy)
  refine ⟨fun x => ?_⟩
  induction x using hwf.induction with
  | _ x ih =>
    by_cases hx : x = a
    · exact hx ▸ hat
    · refine Acc.intro x fun z hz => ih z ?_
      unfold Links at hz ⊢
      rwa [hsame x hx] at hz

end PlanOptimizer
