import Mathlib.Data.List.Basic
import PlanOptimizer.Wire.Estimates
import PlanOptimizer.Wire.Plans

/-!
# Reading what was written

A plan, an expression or statistics are written and read again.  What comes back is what was
written, at any depth, if all floats in it are finite.  A float that is not finite is written as
null, which is no number, so an expression or a plan with such a literal cannot be read at all: it
does not come back as another one (`Wire.fromValue_encode`).

Writers and readers are paired part by part.  A part is *kept*: it is read as it was if its floats
are finite, and not read otherwise.  Kept parts make kept wholes, whatever the parts are
(`Wire.kept_bind`, `Wire.mapM_kept`), so the induction on plans and expressions has one line for
each part.  Readers count the arrays and objects that they enter, and what is left for a part is no
less than the part needs (`Wire.levels_of_object`, `Wire.levels_of_record`).
-/

namespace PlanOptimizer

open Wire

namespace Wire

variable {α β : Type} {a : α} {b : β} {xs ys : List Float}

/-! ## Kept parts -/

/-- What is read of a value that was written with some floats in it: the value, if the floats are
finite. -/
def kept (xs : List Float) (a : α) : Option α := if xs.all Float.isFinite then some a else none

/-- A part is kept, and so is what follows. -/
theorem kept_bind {r : Option α} {f : α → Option β} (hr : r = kept xs a) (hf : f a = kept ys b) :
    r >>= f = kept (xs ++ ys) b := by
  subst hr
  unfold kept at hf ⊢
  rw [List.all_append]
  cases xs.all Float.isFinite with
  | true => simpa using hf
  | false => rfl

/-- A part without floats is read in any case. -/
theorem kept_skip {r : Option α} {f : α → Option β} (hr : r = some a) (hf : f a = kept ys b) :
    r >>= f = kept ys b := by
  subst hr
  exact hf

/-- The only part is kept. -/
theorem kept_map {r : Option α} (f : α → β) (hr : r = kept xs a) : f <$> r = kept xs (f a) := by
  subst hr
  unfold kept
  cases xs.all Float.isFinite <;> rfl

/-- The last part is kept. -/
theorem kept_last {r : Option α} {f : α → β} (hr : r = kept xs a) :
    (r >>= fun x => pure (f x)) = kept xs (f a) := by
  rw [bind_pure_comp, kept_map f hr]

/-- A list is kept if its items are. -/
theorem mapM_kept {write : α → β} {read : β → Option α} {f : α → List Float} {as : List α}
    (h : ∀ a ∈ as, read (write a) = kept (f a) a) :
    (as.map write).mapM read = kept (as.flatMap f) as := by
  induction as with
  | nil => rfl
  | cons a as ih =>
    have has := ih fun x hx => h x (List.mem_cons_of_mem _ hx)
    rw [List.map_cons, List.mapM_cons]
    exact kept_bind (h a List.mem_cons_self) (kept_last has)

/-- A list without floats is read in any case. -/
theorem mapM_skip {write : α → β} {read : β → Option α} {as : List α}
    (h : ∀ a ∈ as, read (write a) = some a) : (as.map write).mapM read = some as := by
  rw [mapM_kept (f := fun _ => []) h, List.flatMap_eq_nil_iff.mpr fun _ _ => rfl]
  rfl

/-! ## Scalars -/

theorem asFloat_ofFloat (x : Float) : asFloat (ofFloat x) = kept [x] x := by
  cases hx : x.isFinite <;> simp [ofFloat, kept, hx, asFloat]

theorem asIntIn_of_mem {low high n : Int} (h : low ≤ n ∧ n ≤ high) :
    asIntIn low high (.int n) = some n := if_pos h

theorem asGroup_int {id : Nat} (h : id < UInt32.size) : asGroup (.int id) = some id := by
  have hmem : (0 : Int) ≤ id ∧ (id : Int) ≤ UInt32.size - 1 := by
    unfold UInt32.size at h ⊢
    omega
  rw [asGroup, asIntIn_of_mem hmem]
  rfl

theorem asWord_toNat (w : UInt64) : asWord (.int w.toNat) = some w.toNat := by
  have hlt := w.toNat_lt_size
  have hmem : (0 : Int) ≤ w.toNat ∧ (w.toNat : Int) ≤ UInt64.size - 1 := by
    unfold UInt64.size at hlt ⊢
    omega
  rw [asWord, asIntIn_of_mem hmem]
  rfl

/-! ## Levels -/

theorem depth_le_of_mem_items {j : Json} {js : List Json} {n : Nat} (hj : j ∈ js)
    (h : Json.depthItems js ≤ n) : j.depth ≤ n := by
  induction js with
  | nil => cases hj
  | cons k js ih =>
    rw [Json.depthItems] at h
    rcases List.mem_cons.mp hj with rfl | hj
    · omega
    · exact ih hj (by omega)

theorem depth_le_of_mem_members {m : String × Json} {ms : List (String × Json)} {n : Nat}
    (hm : m ∈ ms) (h : Json.depthMembers ms ≤ n) : m.2.depth ≤ n := by
  induction ms with
  | nil => cases hm
  | cons k ms ih =>
    rw [Json.depthMembers] at h
    rcases List.mem_cons.mp hm with rfl | hm
    · omega
    · exact ih hm (by omega)

/-- An array takes a level, and what is left is enough for its items. -/
theorem levels_of_array {js : List Json} {n : Nat} (h : (Json.array js).depth ≤ n) :
    ∃ k, n = k + 1 ∧ Json.depthItems js ≤ k := by
  rw [Json.depth] at h
  exact ⟨n - 1, by omega, by omega⟩

/-- An object takes a level, and what is left is enough for each of its members. -/
theorem levels_of_object {ms : List (String × Json)} {n : Nat} (h : (Json.object ms).depth ≤ n) :
    ∃ k, n = k + 1 ∧ ms.Forall fun m => m.2.depth ≤ k := by
  rw [Json.depth] at h
  have hmembers : ∀ m ∈ ms, m.2.depth ≤ n - 1 := fun m hm =>
    depth_le_of_mem_members hm (by omega)
  exact ⟨n - 1, by omega, List.forall_iff_forall_mem.mpr hmembers⟩

/-- A variant over a record takes two levels, and what is left is enough for each field. -/
theorem levels_of_record {tag : String} {ms : List (String × Json)} {n : Nat}
    (h : (variant tag (.object ms)).depth ≤ n) :
    ∃ k, n = k + 2 ∧ ms.Forall fun m => m.2.depth ≤ k := by
  obtain ⟨k, rfl, hcontent⟩ := levels_of_object h
  obtain ⟨k, rfl, hfields⟩ := levels_of_object hcontent
  exact ⟨k, rfl, hfields⟩

/-- A variant over an array takes two levels, and what is left is enough for the items. -/
theorem levels_of_items {tag : String} {js : List Json} {n : Nat}
    (h : (variant tag (.array js)).depth ≤ n) : ∃ k, n = k + 2 ∧ Json.depthItems js ≤ k := by
  obtain ⟨k, rfl, hcontent⟩ := levels_of_object h
  obtain ⟨k, rfl, hitems⟩ := levels_of_array hcontent
  exact ⟨k, rfl, hitems⟩

end Wire

/-! ## Names and operators -/

theorem TableName.decode_encode (t : TableName) {n : Nat} (h : t.encode.depth ≤ n) :
    TableName.decode n t.encode = some t := by
  obtain ⟨k, rfl⟩ := Nat.exists_eq_add_of_le' h
  rfl

theorem Column.decode_encode (c : Column) {n : Nat} (h : c.encode.depth ≤ n) :
    Column.decode n c.encode = some c := by
  obtain ⟨table, name⟩ := c
  cases table <;> obtain ⟨k, rfl⟩ := Nat.exists_eq_add_of_le' h <;> rfl

theorem BinOp.decode_encode (op : BinOp) (n : Nat) : BinOp.decode n op.encode = some op := by
  cases op <;> rfl

theorem UnOp.decode_encode (op : UnOp) (n : Nat) : UnOp.decode n op.encode = some op := by
  cases op <;> rfl

theorem JoinKind.decode_encode (k : JoinKind) (n : Nat) :
    JoinKind.decode n k.encode = some k := by
  cases k <;> rfl

theorem AggregateFn.decode_encode (f : AggregateFn) (n : Nat) :
    AggregateFn.decode n f.encode = some f := by
  cases f <;> rfl

/-! ## Literals -/

/-- The float in a literal, if it is one. -/
def Literal.floats : Literal → List Float
  | .float x => [x]
  | _ => []

theorem Literal.decode_encode (l : Literal) {n : Nat} (h : l.encode.depth ≤ n) :
    Literal.decode n l.encode = kept l.floats l := by
  cases l with
  | null => cases n <;> rfl
  | bool b =>
    obtain ⟨k, rfl⟩ := Nat.exists_eq_add_of_le' h
    rfl
  | int v =>
    obtain ⟨k, rfl⟩ := Nat.exists_eq_add_of_le' h
    have hmem : asIntIn Int64.minValue.toInt Int64.maxValue.toInt (.int v.toInt) = some v.toInt :=
      asIntIn_of_mem ⟨v.minValue_le_toInt, v.toInt_le⟩
    show (fun n => Literal.int (Int64.ofInt n)) <$> asIntIn _ _ (.int v.toInt) = _
    rw [hmem, Option.map_eq_map, Option.map_some, Int64.ofInt_toInt]
    rfl
  | float x =>
    obtain ⟨k, rfl⟩ := Nat.exists_eq_add_of_le' h
    exact kept_map Literal.float (asFloat_ofFloat x)
  | string s =>
    obtain ⟨k, rfl⟩ := Nat.exists_eq_add_of_le' h
    rfl
  | date d =>
    obtain ⟨k, rfl⟩ := Nat.exists_eq_add_of_le' h
    have hmem : asIntIn Int32.minValue.toInt Int32.maxValue.toInt (.int d.toInt) = some d.toInt :=
      asIntIn_of_mem ⟨d.minValue_le_toInt, d.toInt_le⟩
    show (fun n => Literal.date (Int32.ofInt n)) <$> asIntIn _ _ (.int d.toInt) = _
    rw [hmem, Option.map_eq_map, Option.map_some, Int32.ofInt_toInt]
    rfl

/-! ## Expressions -/

namespace Expr

mutual

/-- The floats in an expression, from left to right. -/
def floats : Expr → List Float
  | .column _ => []
  | .literal l => l.floats
  | .binary _ a b => floats a ++ floats b
  | .unary _ a => floats a
  | .call _ as => floatsAll as
  | .and as => floatsAll as
  | .or as => floatsAll as

/-- The floats in some expressions. -/
def floatsAll : List Expr → List Float
  | [] => []
  | a :: as => floats a ++ floatsAll as

end

mutual

/-- Expressions are kept. -/
theorem decode_encode : ∀ (a : Expr) {n : Nat}, a.encode.depth ≤ n →
    decode n a.encode = kept a.floats a
  | .column c, n, h => by
    obtain ⟨k, rfl, hc⟩ := levels_of_object h
    exact kept_map Expr.column (c.decode_encode hc)
  | .literal l, n, h => by
    obtain ⟨k, rfl, hl⟩ := levels_of_object h
    exact kept_map Expr.literal (l.decode_encode hl)
  | .binary op a b, n, h => by
    obtain ⟨k, rfl, -, ha, hb⟩ := levels_of_record h
    show (do
      return Expr.binary (← BinOp.decode k op.encode) (← decode k a.encode)
        (← decode k b.encode)) = _
    refine kept_skip (op.decode_encode k) ?_
    exact kept_bind (decode_encode a ha) (kept_last (decode_encode b hb))
  | .unary op a, n, h => by
    obtain ⟨k, rfl, -, ha⟩ := levels_of_record h
    show (do return Expr.unary (← UnOp.decode k op.encode) (← decode k a.encode)) = _
    exact kept_skip (op.decode_encode k) (kept_last (decode_encode a ha))
  | .call f as, n, h => by
    obtain ⟨k, rfl, -, hargs⟩ := levels_of_record h
    -- the arguments stand one level below the other fields
    obtain ⟨k, rfl, has⟩ := levels_of_array hargs
    rw [encode, variant, decode]
    exact kept_last (decode_encodeAll as has)
  | .and as, n, h => by
    obtain ⟨k, rfl, has⟩ := levels_of_items h
    exact kept_map Expr.and (decode_encodeAll as has)
  | .or as, n, h => by
    obtain ⟨k, rfl, has⟩ := levels_of_items h
    exact kept_map Expr.or (decode_encodeAll as has)

/-- Lists of expressions are kept. -/
theorem decode_encodeAll : ∀ (as : List Expr) {n : Nat}, Json.depthItems (encodeAll as) ≤ n →
    (encodeAll as).mapM (decode n) = kept (floatsAll as) as
  | [], _, _ => rfl
  | a :: as, n, h => by
    rw [encodeAll, Json.depthItems] at h
    rw [encodeAll, List.mapM_cons]
    exact kept_bind (decode_encode a (by omega)) (kept_last (decode_encodeAll as (by omega)))

end

end Expr

/-! ## Parameters -/

theorem Aggregate.decode_encode (c : Aggregate) {n : Nat} (h : c.encode.depth ≤ n) :
    Aggregate.decode n c.encode = kept c.arg.floats c := by
  obtain ⟨k, rfl, -, harg, -⟩ := levels_of_object h
  show (do
    return Aggregate.mk (← AggregateFn.decode k c.fn.encode) (← Expr.decode k c.arg.encode)
      (← asBool (.bool c.distinct))) = _
  exact kept_skip (c.fn.decode_encode k) (kept_last (c.arg.decode_encode harg))

theorem SortTerm.decode_encode (t : SortTerm) {n : Nat} (h : t.encode.depth ≤ n) :
    SortTerm.decode n t.encode = kept t.expr.floats t := by
  obtain ⟨k, rfl, hexpr, -⟩ := levels_of_object h
  show (do
    return SortTerm.mk (← Expr.decode k t.expr.encode) (← asBool (.bool t.ascending))
      (← asBool (.bool t.nullsFirst))) = _
  exact kept_last (t.expr.decode_encode hexpr)

/-! ## Plans -/

/-- Items that are kept make a list that is kept. -/
theorem Plan.listAt_ofList {α : Type} {write : α → Json} {read : Nat → Json → Option α}
    {floats : α → List Float} {as : List α} {n : Nat}
    (hread : ∀ a {n}, (write a).depth ≤ n → read n (write a) = kept (floats a) a)
    (h : (ofList write as).depth ≤ n) :
    Plan.listAt read n (ofList write as) = kept (as.flatMap floats) as := by
  obtain ⟨k, rfl, hitems⟩ := levels_of_array h
  exact mapM_kept fun a ha => hread a (depth_le_of_mem_items (List.mem_map_of_mem ha) hitems)

theorem Plan.listAt_strings (names : List String) {n : Nat}
    (h : (ofList Json.string names).depth ≤ n) :
    Plan.listAt (fun _ => asString) n (ofList Json.string names) = some names := by
  obtain ⟨k, rfl, -⟩ := levels_of_array h
  exact mapM_skip fun _ _ => rfl

/-- A predicate is never written as null. -/
theorem Expr.asOptional_encode (p : Option Expr) {n : Nat}
    (h : (p.elim Json.null Expr.encode).depth ≤ n) :
    asOptional (Expr.decode n) (p.elim Json.null Expr.encode) = kept (p.elim [] floats) p := by
  cases p with
  | none => rfl
  | some p =>
    have hvalue : asOptional (Expr.decode n) p.encode = some <$> Expr.decode n p.encode := by
      cases p <;> rfl
    exact hvalue.trans (kept_map some (p.decode_encode h))

/-- The floats in a scan. -/
def Scan.floats (s : Scan) : List Float := s.predicate.elim [] Expr.floats

theorem Scan.decode_encode (s : Scan) {n : Nat} (h : s.encode.depth ≤ n) :
    Scan.decode n s.encode = kept s.floats s := by
  obtain ⟨k, rfl, htable, hlist, hpredicate⟩ := levels_of_object h
  obtain ⟨k, rfl, hitems⟩ := levels_of_array hlist
  have hcolumns : asList (Column.decode k) (ofList Column.encode s.columns) = some s.columns :=
    mapM_skip fun c hc => c.decode_encode (depth_le_of_mem_items (List.mem_map_of_mem hc) hitems)
  show (do
    return Scan.mk (← TableName.decode (k + 1) s.table.encode)
      (← asList (Column.decode k) (ofList Column.encode s.columns))
      (← asOptional (Expr.decode (k + 1)) (s.predicate.elim .null Expr.encode))) = _
  refine kept_skip (s.table.decode_encode htable) (kept_skip hcolumns ?_)
  exact kept_last (Expr.asOptional_encode s.predicate hpredicate)

/-- The floats in an operator over one input, its input aside. -/
def Unary.floats : Unary → List Float
  | .filter p => p.floats
  | .project es _ => es.flatMap Expr.floats
  | .aggregate ks cs => ks.flatMap Expr.floats ++ cs.flatMap fun c => c.arg.floats
  | .sort ts => ts.flatMap fun t => t.expr.floats
  | .limit _ _ => []

namespace Plan

/-- The floats in a plan, from the top down and from left to right. -/
def floats : Plan → List Float
  | .scan s => s.floats
  | .unary op a => op.floats ++ a.floats
  | .join j a b => j.condition.floats ++ (a.floats ++ b.floats)
  | .group _ => []

/-- An operator is kept if its input is. -/
theorem decode_encode_unary (op : Unary) {a : Plan} {n : Nat} (h : (op.encode a.encode).depth ≤ n)
    (ha : ∀ {k}, a.encode.depth ≤ k → decode k a.encode = kept a.floats a) :
    decode n (op.encode a.encode) = kept (op.floats ++ a.floats) (.unary op a) := by
  cases op with
  | filter p =>
    obtain ⟨k, rfl, hp, hinput⟩ := levels_of_record h
    show (do return Plan.filter (← Expr.decode k p.encode) (← decode k a.encode)) = _
    exact kept_bind (p.decode_encode hp) (kept_last (ha hinput))
  | project es names =>
    obtain ⟨k, rfl, hes, hnames, hinput⟩ := levels_of_record h
    show (do
      return Plan.project (← listAt Expr.decode k (ofList Expr.encode es))
        (← listAt (fun _ => asString) k (ofList Json.string names)) (← decode k a.encode)) = _
    refine kept_bind (listAt_ofList (fun e => e.decode_encode) hes) ?_
    exact kept_skip (listAt_strings names hnames) (kept_last (ha hinput))
  | aggregate ks cs =>
    obtain ⟨k, rfl, hks, hcs, hinput⟩ := levels_of_record h
    show (do
      return Plan.aggregate (← listAt Expr.decode k (ofList Expr.encode ks))
        (← listAt Aggregate.decode k (ofList Aggregate.encode cs)) (← decode k a.encode)) = _
    rw [Unary.floats, List.append_assoc]
    refine kept_bind (listAt_ofList (fun e => e.decode_encode) hks) ?_
    exact kept_bind (listAt_ofList (fun c => c.decode_encode) hcs) (kept_last (ha hinput))
  | sort ts =>
    obtain ⟨k, rfl, hts, hinput⟩ := levels_of_record h
    show (do
      return Plan.sort (← listAt SortTerm.decode k (ofList SortTerm.encode ts))
        (← decode k a.encode)) = _
    exact kept_bind (listAt_ofList (fun t => t.decode_encode) hts) (kept_last (ha hinput))
  | limit o c =>
    obtain ⟨k, rfl, -, -, hinput⟩ := levels_of_record h
    show (do
      return Plan.limit (UInt64.ofNat (← asWord (.int o.toNat)))
        (UInt64.ofNat (← asWord (.int c.toNat))) (← decode k a.encode)) = _
    refine kept_skip (asWord_toNat o) (kept_skip (asWord_toNat c) ?_)
    rw [UInt64.ofNat_toNat, UInt64.ofNat_toNat]
    exact kept_last (ha hinput)

/-- Plans are kept. -/
theorem decode_encode (p : Plan) (hgroups : ∀ i ∈ p.groups, i < UInt32.size) {n : Nat}
    (h : p.encode.depth ≤ n) : decode n p.encode = kept p.floats p := by
  induction p generalizing n with
  | scan s =>
    obtain ⟨k, rfl, hs⟩ := levels_of_object h
    exact kept_map Plan.scan (s.decode_encode hs)
  | unary op a ih => exact decode_encode_unary op h (ih hgroups)
  | join j a b iha ihb =>
    obtain ⟨k, rfl, -, hcondition, hleft, hright⟩ := levels_of_record h
    have ha := iha (fun i hi => hgroups i (List.mem_append_left _ hi)) hleft
    have hb := ihb (fun i hi => hgroups i (List.mem_append_right _ hi)) hright
    show (do
      return Plan.join ⟨← JoinKind.decode k j.kind.encode, ← Expr.decode k j.condition.encode⟩
        (← decode k a.encode) (← decode k b.encode)) = _
    refine kept_skip (j.kind.decode_encode k) ?_
    exact kept_bind (j.condition.decode_encode hcondition) (kept_bind ha (kept_last hb))
  | group id =>
    obtain ⟨k, rfl, -⟩ := levels_of_object h
    exact kept_map Plan.group (asGroup_int (hgroups id (List.mem_singleton_self id)))

end Plan

/-! ## Statistics -/

namespace Assoc

variable {κ β : Type} [DecidableEq κ]

theorem setIn_of_not_mem {k : κ} {v : β} {es : List (κ × β)} (h : k ∉ es.map Prod.fst) :
    setIn k v es = es ++ [(k, v)] := by
  induction es with
  | nil => rfl
  | cons e es ih =>
    obtain ⟨hk, hes⟩ := not_or.mp (mt List.mem_cons.mpr h)
    rw [setIn, if_neg (Ne.symm hk), ih hes, List.cons_append]

/-- Setting entries with new keys puts them behind the others. -/
theorem entries_setAll {m : Assoc κ β} {es : List (κ × β)}
    (h : ((m.entries ++ es).map Prod.fst).Nodup) : (m.setAll es).entries = m.entries ++ es := by
  induction es generalizing m with
  | nil => exact (List.append_nil _).symm
  | cons e es ih =>
    -- no key is in both lists, so this one is not there yet
    have hnew : e.1 ∉ m.entries.map Prod.fst := fun he => by
      rw [List.map_append, List.nodup_append] at h
      exact h.2.2 _ he _ List.mem_cons_self rfl
    have hset : (m.set e.1 e.2).entries = m.entries ++ [e] := setIn_of_not_mem hnew
    show ((m.set e.1 e.2).setAll es).entries = _
    rw [ih (by rwa [hset, List.append_assoc]), hset, List.append_assoc]
    rfl

/-- The entries of a keyed list make the list. -/
theorem ofList_entries (m : Assoc κ β) : ofList m.entries = m := by
  have h : (ofList m.entries).entries = m.entries := entries_setAll m.nodup
  cases hm : ofList m.entries
  cases m
  rw [hm] at h
  cases h
  rfl

end Assoc

/-- The floats in what is known of a column. -/
def ColumnStatistics.floats (c : ColumnStatistics Float) : List Float :=
  [c.distinct, c.nullFraction]

theorem ColumnStatistics.decode_encode (c : ColumnStatistics Float) {n : Nat}
    (h : c.encode.depth ≤ n) : ColumnStatistics.decode n c.encode = kept c.floats c := by
  obtain ⟨k, rfl, -⟩ := levels_of_object h
  show (do
    return ColumnStatistics.mk (← asFloat (ofFloat c.distinct))
      (← asFloat (ofFloat c.nullFraction))) = _
  exact kept_bind (asFloat_ofFloat c.distinct) (kept_last (asFloat_ofFloat c.nullFraction))

namespace Statistics

/-- The floats in statistics. -/
def floats (s : Statistics Float) : List Float :=
  s.rows :: s.bytes :: s.columns.entries.flatMap fun e => e.2.floats

/-- Statistics are kept. -/
theorem decode_encode (s : Statistics Float) {n : Nat} (h : s.encode.depth ≤ n) :
    Statistics.decode n s.encode = kept s.floats s := by
  obtain ⟨k, rfl, -, -, hcolumns⟩ := levels_of_object h
  obtain ⟨k, rfl, hvalues⟩ := levels_of_object hcolumns
  have hentries : (s.columns.mapValues ColumnStatistics.encode).entries.mapM
      (fun m => (ColumnStatistics.decode k m.2).map fun v => (m.1, v)) =
        kept (s.columns.entries.flatMap fun e => e.2.floats) s.columns.entries := by
    refine mapM_kept fun e he => kept_map (e.1, ·) (e.2.decode_encode ?_)
    have hm : (e.1, e.2.encode) ∈ (s.columns.mapValues ColumnStatistics.encode).entries :=
      List.mem_map_of_mem he
    exact List.forall_iff_forall_mem.mp hvalues _ hm
  have hkept : namedValues ColumnStatistics.decode (k + 1)
      (.object (s.columns.mapValues ColumnStatistics.encode).entries) =
        kept (s.columns.entries.flatMap fun e => e.2.floats) s.columns := by
    rw [namedValues, kept_last hentries, Assoc.ofList_entries]
  show (do
    return Statistics.mk (← asFloat (ofFloat s.rows)) (← asFloat (ofFloat s.bytes))
      (← namedValues ColumnStatistics.decode (k + 1)
        (.object (s.columns.mapValues ColumnStatistics.encode).entries))) = _
  refine kept_bind (asFloat_ofFloat s.rows) (kept_bind (asFloat_ofFloat s.bytes) ?_)
  exact kept_last hkept

end Statistics

/-! ## Whole values -/

namespace Wire

variable {α : Type} {a : α} {xs : List Float}

theorem kept_of_finite (h : ∀ x ∈ xs, x.isFinite = true) : kept xs a = some a :=
  if_pos (List.all_eq_true.mpr h)

theorem kept_of_not_finite (h : ∃ x ∈ xs, x.isFinite = false) : kept xs a = none := by
  obtain ⟨x, hx, hinf⟩ := h
  refine if_neg fun hall => ?_
  rw [List.all_eq_true.mp hall x hx] at hinf
  cases hinf

/-- **What is finite comes back as it was.**  Plans and expressions whose float literals are all
finite are read as they were written, whatever they are made of and however deep they nest, and so
are statistics.  A float literal that is not finite is written as null.  An expression or a plan
with one is not read as another, but not at all. -/
theorem fromValue_encode :
    (∀ a : Expr,
      ((∀ x ∈ a.floats, x.isFinite = true) → fromValue Expr.decode a.encode = some a) ∧
        ((∃ x ∈ a.floats, x.isFinite = false) → fromValue Expr.decode a.encode = none)) ∧
      (∀ p : Plan, (∀ i ∈ p.groups, i < UInt32.size) →
        ((∀ x ∈ p.floats, x.isFinite = true) → fromValue Plan.decode p.encode = some p) ∧
          ((∃ x ∈ p.floats, x.isFinite = false) → fromValue Plan.decode p.encode = none)) ∧
      (∀ s : Statistics Float, (∀ x ∈ s.floats, x.isFinite = true) →
        fromValue Statistics.decode s.encode = some s) ∧
      ∀ x : Float, x.isFinite = false →
        Literal.encode (.float x) = variant "Float64" .null := by
  refine ⟨fun a => ?_, fun p hgroups => ?_, fun s hs => ?_, fun x hx => ?_⟩
  · have hread : fromValue Expr.decode a.encode = kept a.floats a :=
      a.decode_encode (Nat.le_refl _)
    exact ⟨fun h => hread.trans (kept_of_finite h), fun h => hread.trans (kept_of_not_finite h)⟩
  · have hread : fromValue Plan.decode p.encode = kept p.floats p :=
      p.decode_encode hgroups (Nat.le_refl _)
    exact ⟨fun h => hread.trans (kept_of_finite h), fun h => hread.trans (kept_of_not_finite h)⟩
  · exact (s.decode_encode (Nat.le_refl _)).trans (kept_of_finite hs)
  · rw [Literal.encode, ofFloat, hx]
    rfl

section Samples

/-- A predicate over an unqualified column, with a call below a disjunction. -/
private def bounded (x : Float) : Expr :=
  .or [.binary .lt (.column ⟨none, "a"⟩) (.literal (.float x)),
    .unary .isNull (.call "f" [.literal .null, .and []])]

/-- The sides differ in that one has a predicate and the other is a reference. -/
private def nested (x : Float) : Plan :=
  .sort [⟨.col "t" "a", true, false⟩]
    (.aggregate [.col "t" "a"] [⟨.sum, .literal (.int (-1)), true⟩]
      (.join ⟨.full, .always⟩ (.scan ⟨⟨"s", "t"⟩, [⟨none, "a"⟩], some (bounded x)⟩)
        (.project [.literal (.date 3)] ["", "d"] (.limit 0 9 (.group 7)))))

private def counts : Statistics Float :=
  ⟨10.0, 0.5, .ofList [("b", ⟨5.0, 0.25⟩), ("a", ⟨1.0, 0.0⟩)]⟩

/-- With a tenth the plan comes back, and with an infinite float it does not. -/
theorem fromValue_encode_nested :
    (∀ x ∈ (nested 0.1).floats, x.isFinite = true) ∧
      fromValue Plan.decode (nested 0.1).encode = some (nested 0.1) ∧
      fromValue Expr.decode (bounded 0.1).encode = some (bounded 0.1) ∧
      (∃ x ∈ (nested (1.0 / 0.0)).floats, x.isFinite = false) ∧
      fromValue Plan.decode (nested (1.0 / 0.0)).encode = none ∧
      (∀ x ∈ counts.floats, x.isFinite = true) ∧
      fromValue Statistics.decode counts.encode = some counts := by
  obtain ⟨hexprs, hplans, hstatistics, -⟩ := fromValue_encode
  have hgroups : ∀ x : Float, ∀ i ∈ (nested x).groups, i < UInt32.size := by
    intro x i hi
    cases List.mem_singleton.mp hi
    decide
  have hfinite : ∀ x ∈ (nested 0.1).floats, x.isFinite = true := by decide +kernel
  have hfinite' : ∀ x ∈ (bounded 0.1).floats, x.isFinite = true := by decide +kernel
  have hinfinite : ∃ x ∈ (nested (1.0 / 0.0)).floats, x.isFinite = false := by decide +kernel
  have hcounts : ∀ x ∈ counts.floats, x.isFinite = true := by decide +kernel
  exact ⟨hfinite, (hplans _ (hgroups _)).1 hfinite, (hexprs _).1 hfinite', hinfinite,
    (hplans _ (hgroups _)).2 hinfinite, hcounts, hstatistics _ hcounts⟩

end Samples

end Wire

end PlanOptimizer
