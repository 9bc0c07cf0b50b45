/-!
# Keyed lists

A finite map as a list of entries in the order in which their keys came in.  No
key occurs twice.  Setting a key that is there replaces its value in place.
-/

namespace PlanOptimizer

/-- A finite map from `κ` to `β`, as a list of entries with different keys. -/
structure Assoc (κ β : Type) where
  /-- The entries, in the order of their keys' arrival. -/
  entries : List (κ × β)
  /-- No key occurs twice. -/
  nodup : (entries.map Prod.fst).Nodup

namespace Assoc

variable {κ β γ : Type}

/-- The map without entries. -/
def empty : Assoc κ β := ⟨[], List.nodup_nil⟩

instance : EmptyCollection (Assoc κ β) := ⟨empty⟩

instance [DecidableEq κ] [DecidableEq β] : DecidableEq (Assoc κ β) := fun a b =>
  decidable_of_iff (a.entries = b.entries) (by cases a; cases b; simp)

/-- The keys, in the order of their arrival. -/
def keys (m : Assoc κ β) : List κ := m.entries.map Prod.fst

/-- The number of entries. -/
def size (m : Assoc κ β) : Nat := m.entries.length

/-- Every value changed, under the same keys. -/
def mapValues (f : β → γ) (m : Assoc κ β) : Assoc κ γ where
  entries := m.entries.map fun e => (e.1, f e.2)
  nodup := by simpa [List.map_map, Function.comp_def] using m.nodup

variable [DecidableEq κ]

/-- The value of a key in a list of entries. -/
def findIn (k : κ) : List (κ × β) → Option β
  | [] => none
  | e :: es => if e.1 = k then some e.2 else findIn k es

/-- The value of a key. -/
def find? (m : Assoc κ β) (k : κ) : Option β := findIn k m.entries

/-- A list of entries with a key set. -/
def setIn (k : κ) (v : β) : List (κ × β) → List (κ × β)
  | [] => [(k, v)]
  | e :: es => if e.1 = k then (k, v) :: es else e :: setIn k v es

theorem mem_keys_setIn {k x : κ} {v : β} {es : List (κ × β)} :
    x ∈ (setIn k v es).map Prod.fst ↔ x = k ∨ x ∈ es.map Prod.fst := by
  induction es with
  | nil => simp [setIn]
  | cons e es ih =>
    by_cases h : e.1 = k
    · simp [setIn, h]
    · simp only [setIn, h, if_false, List.map_cons, List.mem_cons, ih]
      exact or_left_comm

theorem nodup_setIn {k : κ} {v : β} {es : List (κ × β)} (h : (es.map Prod.fst).Nodup) :
    ((setIn k v es).map Prod.fst).Nodup := by
  induction es with
  | nil => simp [setIn]
  | cons e es ih =>
    rw [List.map_cons, List.nodup_cons] at h
    by_cases hk : e.1 = k
    · simp only [setIn, hk, if_true, List.map_cons, List.nodup_cons]
      exact ⟨hk ▸ h.1, h.2⟩
    · simp only [setIn, hk, if_false, List.map_cons, List.nodup_cons]
      exact ⟨fun hm => (mem_keys_setIn.mp hm).elim hk h.1, ih h.2⟩

/-- Set the value of a key. -/
def set (m : Assoc κ β) (k : κ) (v : β) : Assoc κ β := ⟨setIn k v m.entries, nodup_setIn m.nodup⟩

/-- Set every entry of a list, the later ones last. -/
def setAll (m : Assoc κ β) (es : List (κ × β)) : Assoc κ β :=
  es.foldl (fun m e => m.set e.1 e.2) m

/-- The map with the entries of a list.  Of two entries with one key the later
one counts. -/
def ofList (es : List (κ × β)) : Assoc κ β := setAll ∅ es

/-- A key that was set has its value, and every other key keeps what it had. -/
theorem find?_set (m : Assoc κ β) (k x : κ) (v : β) :
    (m.set k v).find? x = if x = k then some v else m.find? x := by
  simp only [find?, set]
  generalize m.entries = es
  induction es with
  | nil => simp only [setIn, findIn, eq_comm]
  | cons e es ih =>
    by_cases hk : e.1 = k
    · by_cases hx : x = k
      · simp [setIn, findIn, hk, hx]
      · simp [setIn, findIn, hk, hx, Ne.symm hx]
    · by_cases hx : e.1 = x
      · have hne : ¬ x = k := fun h => hk (hx.trans h)
        simp [setIn, findIn, hx, hne]
      · simp [setIn, findIn, hk, hx, ih]

end Assoc

end PlanOptimizer
