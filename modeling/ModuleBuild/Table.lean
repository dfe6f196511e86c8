/-!
# Tables in insertion order

A table lists its entries in the order in which their keys first came. Giving a key a new value keeps
its place. The view is `entries`; `find?_insert_self`, `find?_insert_of_ne` and `keys_insert` say what
an insertion does.
-/

namespace ModuleBuild

/-- Keys with their values, in the order in which the keys came. -/
structure Table (κ α : Type) where
  entries : List (κ × α)
  deriving DecidableEq, Repr

namespace Table

variable {κ α : Type} [DecidableEq κ]

/-- The table without entries. -/
def empty : Table κ α := ⟨[]⟩

instance : Inhabited (Table κ α) := ⟨empty⟩

/-- The keys, in order. -/
def keys (t : Table κ α) : List κ := t.entries.map Prod.fst

/-- The values, in the order of their keys. -/
def values (t : Table κ α) : List α := t.entries.map Prod.snd

/-- The value of a key. -/
def find? (t : Table κ α) (k : κ) : Option α := (t.entries.find? (·.1 = k)).map Prod.snd

/-- The key has a value. -/
def contains (t : Table κ α) (k : κ) : Bool := (t.find? k).isSome

/-- Give the key its value in a list of entries. -/
def insertEntry (k : κ) (a : α) : List (κ × α) → List (κ × α)
  | [] => [(k, a)]
  | e :: es => if e.1 = k then (k, a) :: es else e :: insertEntry k a es

/-- Give a key a value: in its place if it has one, else at the end. -/
def insert (t : Table κ α) (k : κ) (a : α) : Table κ α := ⟨insertEntry k a t.entries⟩

/-- Give a key a value unless it has one. -/
def insertNew (t : Table κ α) (k : κ) (a : α) : Table κ α :=
  if t.contains k then t else t.insert k a

/-- The table of the given entries, later values taking the place of earlier ones. -/
def ofList (es : List (κ × α)) : Table κ α := es.foldl (fun t e ↦ t.insert e.1 e.2) empty

@[simp] theorem find?_empty (k : κ) : (empty : Table κ α).find? k = none := rfl

private theorem find?_insertEntry (k k' : κ) (a : α) (es : List (κ × α)) :
    ((insertEntry k a es).find? (·.1 = k')).map Prod.snd =
      if k' = k then some a else (es.find? (·.1 = k')).map Prod.snd := by
  induction es with
  | nil => by_cases h : k' = k <;> simp [insertEntry, h, eq_comm]
  | cons e es ih =>
    by_cases h₀ : e.1 = k
    · by_cases h : k' = k
      · simp [insertEntry, h₀, h]
      · simp [insertEntry, h₀, h, Ne.symm h]
    · by_cases h : e.1 = k'
      · have : k' ≠ k := fun hk ↦ h₀ (h.trans hk)
        simp [insertEntry, h, this]
      · simp [insertEntry, h₀, h, ih]

/-- A look-up after an insertion. -/
theorem find?_insert (t : Table κ α) (k k' : κ) (a : α) :
    (t.insert k a).find? k' = if k' = k then some a else t.find? k' :=
  find?_insertEntry k k' a t.entries

/-- An inserted value is found. -/
@[simp] theorem find?_insert_self (t : Table κ α) (k : κ) (a : α) :
    (t.insert k a).find? k = some a := by
  simp [find?_insert]

/-- An insertion leaves the other keys alone. -/
theorem find?_insert_of_ne (t : Table κ α) {k k' : κ} (a : α) (h : k' ≠ k) :
    (t.insert k a).find? k' = t.find? k' := by
  simp [find?_insert, h]

/-- The keys are those that have a value. -/
theorem contains_iff_mem_keys (t : Table κ α) (k : κ) : t.contains k ↔ k ∈ t.keys := by
  simp [contains, find?, keys]

private theorem map_fst_insertEntry (k : κ) (a : α) (es : List (κ × α)) :
    (insertEntry k a es).map Prod.fst =
      if k ∈ es.map Prod.fst then es.map Prod.fst else es.map Prod.fst ++ [k] := by
  induction es with
  | nil => rfl
  | cons e es ih =>
    by_cases h : e.1 = k
    · simp [insertEntry, h]
    · simp only [insertEntry, h, if_false, List.map_cons, ih, List.mem_cons, Ne.symm h, false_or]
      split <;> simp

/-- An insertion keeps the keys, or adds the new one at the end. -/
theorem keys_insert (t : Table κ α) (k : κ) (a : α) :
    (t.insert k a).keys = if k ∈ t.keys then t.keys else t.keys ++ [k] :=
  map_fst_insertEntry k a t.entries

end Table

/-- Add to a list those of the values that it does not hold yet, in order. -/
def appendNew {α : Type} [DecidableEq α] (xs : List α) : List α → List α
  | [] => xs
  | y :: ys => if y ∈ xs then appendNew xs ys else appendNew (xs ++ [y]) ys

@[simp] theorem mem_appendNew {α : Type} [DecidableEq α] {x : α} {xs ys : List α} :
    x ∈ appendNew xs ys ↔ x ∈ xs ∨ x ∈ ys := by
  induction ys generalizing xs with
  | nil => simp [appendNew]
  | cons y ys ih =>
    simp only [appendNew]
    split <;> grind

/-- No value is added twice. -/
theorem nodup_appendNew {α : Type} [DecidableEq α] {xs : List α} (h : xs.Nodup) (ys : List α) :
    (appendNew xs ys).Nodup := by
  induction ys generalizing xs with
  | nil => exact h
  | cons y ys ih =>
    simp only [appendNew]
    split
    · exact ih h
    · exact ih (by grind)

end ModuleBuild
