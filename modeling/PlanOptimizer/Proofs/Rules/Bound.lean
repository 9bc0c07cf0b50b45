import PlanOptimizer.Proofs.Rows
import PlanOptimizer.Proofs.Rules.Readings

/-!
# Columns in reach

A scan produces the columns it lists.  Filters, sorts and limits pass on what their input produces,
and so do joins for both inputs, but for semi and anti joins, which drop the right one.  A predicate
is *bound* by some columns if each column it mentions is among them, by its name and, if it is
qualified, by its table.

The rules tell where a conjunct belongs by the tables that qualify its columns.  Columns without
a table do not count, and neither does it count whether a table below an input still shows in what
the input produces.  Where the tables do tell where columns come from, the offers of the standard
rules keep all predicates bound (`Rule.wellBound_of_apply`).
-/

namespace PlanOptimizer

/-! ## Columns that plans produce -/

/-- What plans produce, given what aggregations and projections compute. -/
def Reading.produced (computed : Unary → List Column) : Reading (List Column) where
  scan s := s.columns
  unary op cs :=
    match op with
    | .filter _ | .sort _ | .limit .. => cs
    | op => computed op
  join j cs ds := if j.kind.emitsRight then cs ++ ds else cs

/-- A mention of a column is bound by a column of its name, and of its table if it has one. -/
def Column.BoundBy (c : Column) (cs : List Column) : Prop :=
  ∃ d ∈ cs, d.name = c.name ∧ ∀ t ∈ c.table, d.table = some t

instance (c : Column) (cs : List Column) : Decidable (c.BoundBy cs) :=
  inferInstanceAs (Decidable (∃ d ∈ cs, d.name = c.name ∧ ∀ t ∈ c.table, d.table = some t))

/-- All columns of an expression are bound. -/
def Expr.BoundBy (e : Expr) (cs : List Column) : Prop := ∀ c ∈ e.columns, c.BoundBy cs

instance (e : Expr) (cs : List Column) : Decidable (e.BoundBy cs) :=
  inferInstanceAs (Decidable (∀ c ∈ e.columns, c.BoundBy cs))

theorem Column.BoundBy.mono {c : Column} {cs ds : List Column} (h : c.BoundBy cs) (hsub : cs ⊆ ds) :
    c.BoundBy ds := by
  obtain ⟨d, hd, hbound⟩ := h
  exact ⟨d, hsub hd, hbound⟩

namespace Expr

variable {e : Expr} {ps : List Expr} {cs ds : List Column} {c : Column}

theorem BoundBy.mono (h : e.BoundBy cs) (hsub : cs ⊆ ds) : e.BoundBy ds :=
  fun c hc => (h c hc).mono hsub

/-- A conjunct of a bound predicate is bound. -/
theorem BoundBy.conjunct {p : Expr} (h : e.BoundBy cs) (hp : p ∈ e.conjuncts) : p.BoundBy cs :=
  fun c hc => h c (columns_of_mem_conjuncts hp hc)

theorem columns_of_mem_parts {p : Expr} (hp : p ∈ e.parts) : p.columns ⊆ e.columns := by
  have hleaf : ∀ e : Expr, p ∈ (if e.isTrue then [] else [e]) → p.columns ⊆ e.columns := by
    intro e h
    split at h
    · cases h
    · cases List.mem_singleton.mp h
      exact List.Subset.refl _
  cases e with
  | and ps =>
    intro c hc
    rw [Expr.columns, columnsAll_eq_flatMap]
    exact List.mem_flatMap.mpr ⟨p, (List.mem_filter.mp hp).1, hc⟩
  | _ => exact hleaf _ hp

/-- Bound predicates that are put together are bound. -/
theorem boundBy_conjunction (h : ∀ p ∈ ps, p.BoundBy cs) : (conjunction ps).BoundBy cs := by
  have hparts : ∀ q ∈ ps.flatMap parts, q.BoundBy cs := by
    intro q hq c hc
    obtain ⟨p, hp, hq⟩ := List.mem_flatMap.mp hq
    exact h p hp c (columns_of_mem_parts hq hc)
  unfold conjunction
  split
  · exact fun c hc => nomatch hc
  · next q hq => exact hparts q (hq ▸ List.mem_singleton_self q)
  · intro c hc
    rw [Expr.columns, columnsAll_eq_flatMap] at hc
    obtain ⟨q, hq, hc⟩ := List.mem_flatMap.mp hc
    exact hparts q hq c hc

mutual

theorem columns_swapSides : ∀ e : Expr, (Rule.swapSides e).columns ⊆ e.columns
  | .column _ | .literal _ | .unary _ _ | .call _ _ | .or _ => List.Subset.refl _
  | .binary op a b => by
    cases op with
    | eq => exact fun c hc => List.mem_append.mpr (List.mem_append.mp hc).symm
    | _ => exact List.Subset.refl _
  | .and ps => columns_swapSidesAll ps

theorem columns_swapSidesAll :
    ∀ ps : List Expr, columnsAll (Rule.swapSidesAll ps) ⊆ columnsAll ps
  | [] => List.Subset.refl _
  | p :: ps => by
    intro c hc
    exact List.mem_append.mpr ((List.mem_append.mp hc).imp (columns_swapSides p ·)
      (columns_swapSidesAll ps ·))

end

/-- A predicate of two inputs is bound by one of them, if the other one has no column of a table
that it mentions. -/
theorem BoundBy.of_append (h : e.BoundBy (cs ++ ds)) (hqualified : ∀ c ∈ e.columns, c.table ≠ none)
    (hapart : ∀ d ∈ cs, ∀ t ∈ d.table, t ∉ e.tables) : e.BoundBy ds := by
  intro c hc
  obtain ⟨d, hd, hname, htable⟩ := h c hc
  obtain ⟨t, ht⟩ := Option.ne_none_iff_exists'.mp (hqualified c hc)
  rcases List.mem_append.mp hd with hd | hd
  · exact absurd (mem_tables.mpr ⟨c, hc, ht⟩) (hapart d hd t (htable t ht))
  · exact ⟨d, hd, hname, htable⟩

end Expr

/-! ## Bound predicates -/

section WellBound

variable {computed : Unary → List Column} {D : GroupId → List Column} {lookup : Lookup}
variable {p q l r y a b c : Plan} {rule : Rule}

/-- The predicate of a filter is bound. -/
def Unary.BoundBy (cs : List Column) : Unary → Prop
  | .filter e => e.BoundBy cs
  | _ => True

instance (cs : List Column) : ∀ op : Unary, Decidable (op.BoundBy cs)
  | .filter e => inferInstanceAs (Decidable (e.BoundBy cs))
  | .project .. | .aggregate .. | .sort _ | .limit .. => inferInstanceAs (Decidable True)

/-- All predicates of filters and joins are bound by what the inputs produce. -/
def Plan.WellBound (computed : Unary → List Column) (D : GroupId → List Column) : Plan → Prop
  | .scan _ | .group _ => True
  | .unary op a => op.BoundBy ((Reading.produced computed).value D a) ∧ WellBound computed D a
  | .join j a b =>
    j.condition.BoundBy
        ((Reading.produced computed).value D a ++ (Reading.produced computed).value D b) ∧
      WellBound computed D a ∧ WellBound computed D b

instance Plan.decidableWellBound (computed : Unary → List Column) (D : GroupId → List Column) :
    ∀ p : Plan, Decidable (p.WellBound computed D)
  | .scan _ | .group _ => inferInstanceAs (Decidable True)
  | .unary _ a =>
    have := decidableWellBound computed D a
    inferInstanceAs (Decidable (_ ∧ _))
  | .join _ a b =>
    have := decidableWellBound computed D a
    have := decidableWellBound computed D b
    inferInstanceAs (Decidable (_ ∧ _ ∧ _))

theorem produced_filteredBy (ps : List Expr) (p : Plan) :
    (Reading.produced computed).value D (Rule.filteredBy ps p) =
      (Reading.produced computed).value D p := by
  unfold Rule.filteredBy
  split <;> rfl

theorem wellBound_filteredBy {ps : List Expr} (hp : p.WellBound computed D)
    (h : ∀ e ∈ ps, e.BoundBy ((Reading.produced computed).value D p)) :
    (Rule.filteredBy ps p).WellBound computed D := by
  unfold Rule.filteredBy
  split
  · exact hp
  · exact ⟨Expr.boundBy_conjunction h, hp⟩

theorem produced_join {j : Join} (h : j.kind.emitsRight = true) :
    (Reading.produced computed).value D (.join j l r) =
      (Reading.produced computed).value D l ++ (Reading.produced computed).value D r := if_pos h

/-- The columns that one input produces are not those of a table below the other one. -/
structure Discerned (computed : Unary → List Column) (D : GroupId → List Column) (lookup : Lookup)
    (l r : Plan) : Prop where
  left : ∀ names, r.tables lookup = .ok names →
    ∀ d ∈ (Reading.produced computed).value D l, ∀ t ∈ d.table, t ∉ names
  right : ∀ names, l.tables lookup = .ok names →
    ∀ d ∈ (Reading.produced computed).value D r, ∀ t ∈ d.table, t ∉ names

/-- Where a rule looks at a join below a plan, tables tell where the columns of conjuncts come
from. -/
structure Discerning (computed : Unary → List Column) (rule : Rule) (D : GroupId → List Column)
    (lookup : Lookup) (p : Plan) : Prop where
  /-- A conjunct that mentions a table mentions no column without one. -/
  qualified : ∀ e j l r, p.condition? = some e → rule.Shows lookup p (.join j l r) →
    ∀ c ∈ e.conjuncts, c.tables ≠ [] → ∀ k ∈ c.columns, k.table ≠ none
  /-- The inputs of the join below have columns of their own. -/
  below : ∀ j l r, rule.Shows lookup p (.join j l r) → Discerned computed D lookup l r
  /-- And so have the inputs of a join above it. -/
  above : ∀ i y c j l r, p = .join i y c → rule.Shows lookup p (.join j l r) →
    Discerned computed D lookup y c

/-! ## The rules -/

theorem wellBound_routed {e : Expr} {j : Join} {lefts rights : List String}
    (hl : l.tables lookup = .ok lefts) (hr : r.tables lookup = .ok rights)
    (hdiscerned : Discerned computed D lookup l r)
    (hqualified : ∀ c ∈ e.conjuncts, c.tables ≠ [] → ∀ k ∈ c.columns, k.table ≠ none)
    (he : e.BoundBy
      ((Reading.produced computed).value D l ++ (Reading.produced computed).value D r))
    (hjoin : (Plan.join j l r).WellBound computed D) :
    (Rule.routed e j l r lefts rights).WellBound computed D := by
  obtain ⟨hcondition, hleft, hright⟩ := hjoin
  refine ⟨?_, wellBound_filteredBy hleft fun c hc => ?_, wellBound_filteredBy hright fun c hc => ?_⟩
  · rw [produced_filteredBy, produced_filteredBy]
    refine Expr.boundBy_conjunction fun c hc => ?_
    rcases List.mem_append.mp hc with hc | hc
    · exact hcondition.conjunct hc
    · exact he.conjunct (List.mem_filter.mp hc).1
  · obtain ⟨hc, htoLeft⟩ := List.mem_filter.mp hc
    obtain ⟨hsome, hnames⟩ := Rule.tables_of_confined htoLeft
    have hswapped := (he.conjunct hc).mono List.perm_append_comm.subset
    exact hswapped.of_append (hqualified c hc hsome) fun d hd t ht hmem =>
      hdiscerned.right lefts hl d hd t ht (hnames t hmem)
  · obtain ⟨hc, htoRight⟩ := List.mem_filter.mp hc
    obtain ⟨hsome, hnames⟩ := Rule.tables_of_confined (Bool.and_eq_true_iff.mp htoRight).2
    exact (he.conjunct hc).of_append (hqualified c hc hsome) fun d hd t ht hmem =>
      hdiscerned.left rights hr d hd t ht (hnames t hmem)

variable {stay move last : Plan} {moves lasts : List String} {outer inner : Expr}

theorem wellBound_rotated
    (hstay : ∀ d ∈ (Reading.produced computed).value D stay, ∀ t ∈ d.table, t ∉ moves ∧ t ∉ lasts)
    (hqualified : ∀ c ∈ outer.conjuncts, c.tables ≠ [] → ∀ k ∈ c.columns, k.table ≠ none)
    (houter : outer.BoundBy ((Reading.produced computed).value D stay ++
      ((Reading.produced computed).value D move ++ (Reading.produced computed).value D last)))
    (hinner : inner.BoundBy ((Reading.produced computed).value D stay ++
      (Reading.produced computed).value D move))
    (hs : stay.WellBound computed D) (hm : move.WellBound computed D)
    (hl : last.WellBound computed D) :
    (Plan.join ⟨.inner, Expr.conjunction (inner.conjuncts ++
          outer.conjuncts.filter fun e => !Rule.connects moves lasts e)⟩ stay
        (.join ⟨.inner, Expr.conjunction (outer.conjuncts.filter (Rule.connects moves lasts))⟩
          move last)).WellBound computed D := by
  refine ⟨?_, hs, ?_, hm, hl⟩
  · rw [produced_join rfl]
    refine Expr.boundBy_conjunction fun c hc => ?_
    rcases List.mem_append.mp hc with hc | hc
    · refine (hinner.conjunct hc).mono ?_
      rw [← List.append_assoc]
      exact List.subset_append_left _ _
    · exact houter.conjunct (List.mem_filter.mp hc).1
  · refine Expr.boundBy_conjunction fun c hc => ?_
    obtain ⟨hc, hconnects⟩ := List.mem_filter.mp hc
    obtain ⟨hsome, hnames⟩ := Rule.tables_of_connects hconnects
    refine (houter.conjunct hc).of_append (hqualified c hc hsome) fun d hd t ht hmem => ?_
    obtain ⟨hmove, hlast⟩ := hstay d hd t ht
    exact (hnames t hmem).elim hmove hlast

/-- What is derived from a plan has bound predicates, if the plan has and what the rule sees of its
input has. -/
theorem Rule.Derives.wellBound (h : Rule.Derives lookup rule p q)
    (hD : (Reading.produced computed).Follows D lookup p) (hp : p.WellBound computed D)
    (hshown : ∀ s, rule.Shows lookup p s → s.WellBound computed D)
    (hdiscerning : Discerning computed rule D lookup p) : q.WellBound computed D := by
  cases h with
  | trivial => exact hp.2
  | @merge outer inner y z hy =>
    obtain ⟨hinner, hz⟩ := hshown _ ⟨rfl, y, rfl, hy⟩
    have hsame : (Reading.produced computed).value D (.filter inner z) =
        (Reading.produced computed).value D y := hD.expose (List.mem_singleton_self y) hy
    have houter : outer.BoundBy ((Reading.produced computed).value D (.filter inner z)) :=
      hsame ▸ hp.1
    refine ⟨Expr.boundBy_conjunction fun e he => ?_, hz⟩
    rcases List.mem_pair.mp he with rfl | rfl
    · exact hinner
    · exact houter
  | @route e j y l r lefts rights hy hmovable hlefts hrights =>
    have hshows : routePredicates.Shows lookup (.filter e y) (.join j l r) := ⟨rfl, y, rfl, hy⟩
    have hsame := hD.expose (List.mem_singleton_self y) hy
    rw [produced_join (emitsRight_of_movable hmovable)] at hsame
    exact wellBound_routed hlefts hrights (hdiscerning.below j l r hshows)
      (hdiscerning.qualified e j l r rfl hshows) (hsame ▸ hp.1) (hshown _ hshows)
  | prune => exact ⟨True.intro, True.intro⟩
  | @swap j l r =>
    obtain ⟨hcondition, hl, hr⟩ := hp
    refine ⟨fun c hc => ?_, hr, hl⟩
    exact (hcondition c (Expr.columns_swapSides _ hc)).mono List.perm_append_comm.subset
  | @rotate outer inner y a b c stay move moving last hy hsides hmove hlast =>
    have hshows : rotateJoin.Shows lookup (.join ⟨.inner, outer⟩ y c) (.join ⟨.inner, inner⟩ a b) :=
      ⟨rfl, y, rfl, hy⟩
    have hsame := hD.expose (List.mem_cons_self) hy
    rw [produced_join rfl] at hsame
    obtain ⟨houter, -, hc⟩ := hp
    obtain ⟨hinner, ha, hb⟩ := hshown _ hshows
    have hbelow := hdiscerning.below _ a b hshows
    have habove := (hdiscerning.above _ y c _ a b rfl hshows).left last hlast
    have hqualified := hdiscerning.qualified outer _ a b rfl hshows
    rw [← hsame] at houter habove
    rcases hsides with ⟨rfl, rfl⟩ | ⟨rfl, rfl⟩
    · refine wellBound_rotated (fun d hd t ht => ⟨?_, ?_⟩) hqualified ?_ hinner ha hb hc
      · exact hbelow.left moving hmove d hd t ht
      · exact habove d (List.mem_append_left _ hd) t ht
      · rwa [← List.append_assoc]
    · refine wellBound_rotated (fun d hd t ht => ⟨?_, ?_⟩) hqualified ?_ ?_ hb ha hc
      · exact hbelow.right moving hmove d hd t ht
      · exact habove d (List.mem_append_right _ hd) t ht
      · rw [← List.append_assoc]
        exact houter.mono (List.perm_append_comm.append_right _).subset
      · exact hinner.mono List.perm_append_comm.subset

/-- The offers of the standard rules have bound predicates, where tables tell where columns come
from. -/
theorem Rule.wellBound_of_apply (hrule : rule ∈ Rule.standard) {context : Context}
    {offers : List Offer} (haccepts : rule.accepts p = true)
    (happly : rule.apply context lookup p = .ok offers)
    (hD : (Reading.produced computed).Follows D lookup p) (hp : p.WellBound computed D)
    (hshown : ∀ s, rule.Shows lookup p s → s.WellBound computed D)
    (hdiscerning : Discerning computed rule D lookup p) :
    ∀ x ∈ offers, x.plan.WellBound computed D :=
  fun _ hx => (Rule.derives_of_apply hrule haccepts happly hx).wellBound hD hp hshown hdiscerning

end WellBound

section Listing

private def columnOf (table name : String) : Column := ⟨some table, name⟩

private def nothing : Unary → List Column := fun _ => []

private def sides : Lookup :=
  .ofTable [(0, .scanOf "s" "a" ["x"]), (1, .scanOf "s" "b" ["y"]),
    (2, .join ⟨.cross, .always⟩ (.group 0) (.group 1))]

private def sided : GroupId → List Column
  | 0 => [columnOf "a" "x"]
  | 1 => [columnOf "b" "y"]
  | _ => [columnOf "a" "x", columnOf "b" "y"]

private def split : Plan :=
  .filter (.and [.col "a" "x", .col "b" "y", .binary .eq (.col "a" "x") (.col "b" "y")]) (.group 2)

private theorem shows_split {q : Plan} (h : Rule.routePredicates.Shows sides split q) :
    q = .join ⟨.cross, .always⟩ (.group 0) (.group 1) := by
  obtain ⟨-, y, hy, hshown⟩ := h
  cases hy
  cases (show sides.expose (.group 2) = .ok (.join ⟨.cross, .always⟩ (.group 0) (.group 1)) by
    decide +kernel).symm.trans hshown
  rfl

private theorem discerning_split :
    Discerning nothing Rule.routePredicates sided sides split where
  qualified e j l r he h := by
    cases he
    decide +kernel
  below j l r h := by
    cases shows_split h
    refine ⟨fun names hnames => ?_, fun names hnames => ?_⟩
    · cases (show (Plan.group 1).tables sides = .ok ["b"] by decide +kernel).symm.trans hnames
      decide +kernel
    · cases (show (Plan.group 0).tables sides = .ok ["a"] by decide +kernel).symm.trans hnames
      decide +kernel
  above i y c j l r hp := nomatch hp

private theorem follows_split : (Reading.produced nothing).Follows sided sides split := by
  intro id q hid hq
  cases List.mem_singleton.mp hid
  cases (show sides.find 2 = some (.join ⟨.cross, .always⟩ (.group 0) (.group 1)) by
    decide +kernel).symm.trans hq
  rfl

/-- A filter for both inputs of a join and for the pair. -/
theorem wellBound_of_split_filter :
    ∃ q, Rule.routePredicates.apply ⟨.empty, .indifferent, 0, 1⟩ sides split =
        .ok [.alternative q] ∧
      (Reading.produced nothing).Follows sided sides split ∧ split.WellBound nothing sided ∧
      Discerning nothing Rule.routePredicates sided sides split ∧ q.WellBound nothing sided := by
  have happly : Rule.routePredicates.apply ⟨.empty, .indifferent, 0, 1⟩ sides split =
      .ok [.alternative (.join ⟨.inner, .binary .eq (.col "a" "x") (.col "b" "y")⟩
        (.filter (.col "a" "x") (.group 0)) (.filter (.col "b" "y") (.group 1)))] := by
    decide +kernel
  have hp : split.WellBound nothing sided := by decide +kernel
  have hshown : ∀ s, Rule.routePredicates.Shows sides split s → s.WellBound nothing sided := by
    intro s hs
    rw [shows_split hs]
    decide +kernel
  exact ⟨_, happly, follows_split, hp, discerning_split,
    Rule.wellBound_of_apply (by simp [Rule.standard]) rfl happly follows_split hp hshown
      discerning_split _ (List.mem_singleton_self _)⟩

private def unqualified : Plan :=
  .filter (.binary .eq (.col "a" "x") (.column ⟨none, "y"⟩))
    (.join ⟨.inner, .always⟩ (.scanOf "s" "a" ["x"]) (.scanOf "s" "b" ["y"]))

/-- A conjunct goes to the input whose table it mentions, also if it mentions a column of the other
input without a table. -/
theorem not_wellBound_of_unqualified_column :
    unqualified.WellBound nothing (fun _ => []) ∧
      (∀ s, Rule.routePredicates.Shows .empty unqualified s → s.WellBound nothing fun _ => []) ∧
      ∃ q, Rule.routePredicates.apply ⟨.empty, .indifferent, 0, 1⟩ .empty unqualified =
          .ok [.alternative q] ∧ ¬ q.WellBound nothing fun _ => [] := by
  have happly : Rule.routePredicates.apply ⟨.empty, .indifferent, 0, 1⟩ .empty unqualified =
      .ok [.alternative (.join ⟨.inner, .always⟩
        (.filter (.binary .eq (.col "a" "x") (.column ⟨none, "y"⟩)) (.scanOf "s" "a" ["x"]))
        (.scanOf "s" "b" ["y"]))] := by
    decide +kernel
  refine ⟨by decide +kernel, ?_, _, happly, by decide +kernel⟩
  rintro s ⟨-, y, hy, hs⟩
  cases hy
  cases hs
  decide +kernel

end Listing

end PlanOptimizer
