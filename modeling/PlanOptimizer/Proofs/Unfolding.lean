import Mathlib.Data.List.Perm.Subperm
import PlanOptimizer.Estimate.Cost
import PlanOptimizer.Group.Width
import PlanOptimizer.Proofs.Expansion
import PlanOptimizer.Proofs.Tables

/-!
# Questions about resolved plans

A plan may be asked a question through a lookup, or it may be resolved first and then be asked
with nothing to look up.  For a *compositional* question, one that an operator answers from what
its inputs answer, both ways give the same answer (`Lookup.Compositional.answer_of_resolve`).
Width and estimates are such questions.

A question follows references as many groups deep as there are known groups.  That is enough for
a plan that resolves, since the groups on a path of its expansion are all different and all known.

The tables below a plan are collected in another way, each group once.  They are the tables that
the resolved plan scans (`Plan.tables_of_resolve`).
-/

namespace PlanOptimizer

open Relation

namespace Lookup

variable {lookup : Lookup} {path : List GroupId} {p q : Plan}

/-! ## Compositional questions -/

/-- A question that an operator answers from the answers of its inputs, and a reference by the
answer of its group. -/
structure Compositional {β : Type}
    (question : (GroupId → Except Fault β) → Plan → Except Fault β) : Prop where
  /-- A reference is passed on. -/
  group : ∀ through id, question through (.group id) = through id
  /-- A scan is not told of any group. -/
  scan : ∀ through through' s, question through (.scan s) = question through' (.scan s)
  /-- An operator sees of its input nothing but the answer. -/
  unary : ∀ {through through' a a'} (op : Unary), question through a = question through' a' →
    question through (.unary op a) = question through' (.unary op a')
  /-- A join sees of its inputs nothing but the answers. -/
  join : ∀ {through through' a a' b b'} (j : Join), question through a = question through' a' →
    question through b = question through' b' →
      question through (.join j a b) = question through' (.join j a' b')

theorem compositional_widthBy : Compositional Plan.widthBy where
  group _ _ := rfl
  scan _ _ _ := rfl
  unary op h := by
    cases op with
    | project es names => rfl
    | aggregate ks cs => rfl
    | filter e => exact h
    | sort ts => exact h
    | limit o c => exact h
  join j ha hb := by
    rw [Plan.widthBy, Plan.widthBy, ha, hb]

theorem compositional_estimateBy {α : Type} [Quantity α] (e : Estimator α) :
    Compositional e.estimateBy where
  group _ _ := rfl
  scan _ _ _ := rfl
  unary op h := by
    rw [Estimator.estimateBy, Estimator.estimateBy, h]
  join j ha hb := by
    rw [Estimator.estimateBy, Estimator.estimateBy, ha, hb]

variable {β : Type} {question : (GroupId → Except Fault β) → Plan → Except Fault β}

/-- If as many groups may be followed as are known and not on the path, then a group that is not on
the path may be, and the same holds after that. -/
theorem exists_hop {id : GroupId} {hops : Nat} (hpath : id ∉ path)
    (hfind : lookup.find id = some p) (hnodup : path.Nodup) (hknown : path ⊆ lookup.known)
    (hhops : lookup.known.length ≤ hops + path.length) :
    ∃ n, hops = n + 1 ∧ (id :: path).Nodup ∧ id :: path ⊆ lookup.known ∧
      lookup.known.length ≤ n + (id :: path).length := by
  have hnodup' : (id :: path).Nodup := List.nodup_cons.mpr ⟨hpath, hnodup⟩
  have hknown' : id :: path ⊆ lookup.known :=
    List.cons_subset.mpr ⟨lookup.known_of_find hfind, hknown⟩
  have hlen := (List.subperm_of_subset hnodup' hknown').length_le
  rw [List.length_cons] at hlen
  obtain ⟨n, rfl⟩ : ∃ n, hops = n + 1 := Nat.exists_eq_add_one.mpr (by omega)
  exact ⟨n, rfl, hnodup', hknown', by rw [List.length_cons]; omega⟩

/-- The expansion of a plan answers as the plan does, if as many groups may still be followed as
are known and not on the path. -/
theorem Compositional.expand (hq : Compositional question) (h : lookup.expand path p = .ok q)
    (hnodup : path.Nodup) (hknown : path ⊆ lookup.known) {hops : Nat}
    (hhops : lookup.known.length ≤ hops + path.length) (through : GroupId → Except Fault β) :
    question (lookup.answerWithin question hops) p = question through q := by
  fun_induction Lookup.expand lookup path p generalizing q hops with
  | case1 path s =>
    cases h
    exact hq.scan _ _ s
  | case2 path op a ih =>
    obtain ⟨a', ha, h⟩ := bind_eq_ok.mp h
    cases h
    exact hq.unary op (ih ha hnodup hknown hhops)
  | case3 path j a b iha ihb =>
    obtain ⟨a', ha, h⟩ := bind_eq_ok.mp h
    obtain ⟨b', hb, h⟩ := bind_eq_ok.mp h
    cases h
    exact hq.join j (iha ha hnodup hknown hhops) (ihb hb hnodup hknown hhops)
  | case4 path id hpath => cases h
  | case5 path id hpath hfind => cases h
  | case6 path id hpath p hfind ih =>
    obtain ⟨hops, rfl, hnodup', hknown', hhops'⟩ := exists_hop hpath hfind hnodup hknown hhops
    rw [hq.group, answerWithin, get_eq_ok_iff.mpr hfind, ok_bind]
    exact ih h hnodup' hknown' hhops'

/-- A plan answers through the lookup as the plan does that it resolves to. -/
theorem Compositional.answer_of_resolve (hq : Compositional question)
    (h : p.resolve lookup = .ok q) :
    lookup.answer question p = Lookup.empty.answer question q := by
  rw [Plan.resolve_eq_expand] at h
  exact hq.expand h List.nodup_nil (List.nil_subset _) (Nat.le_refl _) _

/-! ## Tables -/

/-- All groups below a plan that expands have a plan. -/
theorem find_of_expand (h : lookup.expand path p = .ok q) :
    ∀ i ∈ p.groups, ∀ id, Reaches lookup.links i id → ∃ r, lookup.find id = some r := by
  fun_induction Lookup.expand lookup path p generalizing q with
  | case1 path s =>
    intro i hi
    cases hi
  | case2 path op a ih =>
    obtain ⟨a', ha, -⟩ := bind_eq_ok.mp h
    exact ih ha
  | case3 path j a b iha ihb =>
    obtain ⟨a', ha, h⟩ := bind_eq_ok.mp h
    obtain ⟨b', hb, -⟩ := bind_eq_ok.mp h
    intro i hi
    rcases List.mem_append.mp hi with hi | hi
    · exact iha ha i hi
    · exact ihb hb i hi
  | case4 path id hpath => cases h
  | case5 path id hpath hfind => cases h
  | case6 path id hpath p hfind ih =>
    intro i hi x hreach
    obtain rfl := List.mem_singleton.mp hi
    rcases hreach.cases_head with rfl | ⟨k, hlink, hreach⟩
    · exact ⟨p, hfind⟩
    · rw [Links, links_of_find hfind, List.mem_reverse] at hlink
      exact ih h k hlink x hreach

/-- A table is scanned by a plan, or by the plan of a group that its references lead to. -/
def ScannedBelow (lookup : Lookup) (p : Plan) (t : String) : Prop :=
  t ∈ p.scanned ∨ ∃ i ∈ p.groups, ∃ id, Reaches lookup.links i id ∧
    ∃ r, lookup.find id = some r ∧ t ∈ r.scanned

theorem scannedBelow_join_iff {j : Join} {a b : Plan} {t : String} :
    lookup.ScannedBelow (.join j a b) t ↔
      lookup.ScannedBelow a t ∨ lookup.ScannedBelow b t := by
  simp only [ScannedBelow, Plan.scanned, Plan.groups, List.mem_append, or_and_right, exists_or]
  exact or_or_or_comm

/-- What is scanned below a reference is scanned below the plan of its group. -/
theorem scannedBelow_group_iff {id : GroupId} {t : String} (hfind : lookup.find id = some p) :
    lookup.ScannedBelow (.group id) t ↔ lookup.ScannedBelow p t := by
  have hlinks : ∀ k, Links lookup.links id k ↔ k ∈ p.groups := fun k => by
    rw [Links, links_of_find hfind, List.mem_reverse]
  constructor
  · rintro (h | ⟨i, hi, x, hreach, r, hr, ht⟩)
    · cases h
    · obtain rfl := List.mem_singleton.mp hi
      rcases hreach.cases_head with rfl | ⟨k, hlink, hreach⟩
      · cases hfind.symm.trans hr
        exact .inl ht
      · exact .inr ⟨k, (hlinks k).mp hlink, x, hreach, r, hr, ht⟩
  · rintro (ht | ⟨k, hk, x, hreach, r, hr, ht⟩)
    · exact .inr ⟨id, List.mem_singleton_self id, id, .refl, p, hfind, ht⟩
    · exact .inr ⟨id, List.mem_singleton_self id, x, .head ((hlinks k).mpr hk) hreach, r, hr, ht⟩

/-- The expansion of a plan scans the tables that are scanned below the plan. -/
theorem mem_scanned_of_expand (h : lookup.expand path p = .ok q) {t : String} :
    t ∈ q.scanned ↔ lookup.ScannedBelow p t := by
  fun_induction Lookup.expand lookup path p generalizing q with
  | case1 path s =>
    cases h
    simp [ScannedBelow, Plan.groups]
  | case2 path op a ih =>
    obtain ⟨a', ha, h⟩ := bind_eq_ok.mp h
    cases h
    show t ∈ a'.scanned ↔ lookup.ScannedBelow a t
    exact ih ha
  | case3 path j a b iha ihb =>
    obtain ⟨a', ha, h⟩ := bind_eq_ok.mp h
    obtain ⟨b', hb, h⟩ := bind_eq_ok.mp h
    cases h
    rw [scannedBelow_join_iff, ← iha ha, ← ihb hb]
    exact List.mem_append
  | case4 path id hpath => cases h
  | case5 path id hpath hfind => cases h
  | case6 path id hpath p hfind ih =>
    rw [scannedBelow_group_iff hfind]
    exact ih h

/-- Some groups are looked up together, if each of them has a plan. -/
theorem getAll_of_find {ids : List GroupId} (h : ∀ i ∈ ids, ∃ r, lookup.find i = some r) :
    ∃ ps, lookup.getAll ids = .ok ps := by
  induction ids with
  | nil => exact ⟨[], rfl⟩
  | cons i ids ih =>
    obtain ⟨r, hr⟩ := h i List.mem_cons_self
    obtain ⟨ps, hps⟩ := ih fun x hx => h x (List.mem_cons_of_mem _ hx)
    rw [getAll, get_eq_ok_iff.mpr hr, hps]
    exact ⟨_, rfl⟩

end Lookup

/-- The tables below a plan are told, and they are those that the resolved plan scans. -/
theorem Plan.tables_of_resolve {p q : Plan} {lookup : Lookup} (h : p.resolve lookup = .ok q) :
    ∃ names, p.tables lookup = .ok names ∧ ∀ t, t ∈ names ↔ t ∈ q.scanned := by
  rw [resolve_eq_expand] at h
  have hbelow : ∀ x ∈ lookup.below p, ∃ r, lookup.find x = some r := fun x hx => by
    obtain ⟨i, hi, hreach⟩ := Lookup.mem_below_iff.mp hx
    exact Lookup.find_of_expand h i hi x hreach
  obtain ⟨ps, hps⟩ := Lookup.getAll_of_find hbelow
  have hnames : p.tables lookup = .ok (p.scanned ++ ps.flatMap scanned) := by
    rw [tables, hps]
    rfl
  refine ⟨_, hnames, fun t => ?_⟩
  rw [Lookup.mem_scanned_of_expand h, mem_tables_iff hnames]
  rfl

end PlanOptimizer
