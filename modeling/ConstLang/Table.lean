/-
Tables: names with what they stand for, in the order in which the names first appeared. A name
that is given a new value keeps its place. `get?_insert_self`, `get?_insert_of_ne` and
`keys_insert` say what an insertion does to what can be seen of a table; `nodup_keys_insert`:
it never makes a name appear twice.
-/

namespace ConstLang

structure Table (α : Type) where
  entries : List (String × α) := []
deriving DecidableEq

namespace Table

variable {α : Type}

def size (t : Table α) : Nat := t.entries.length

def keys (t : Table α) : List String := t.entries.map Prod.fst

def get? (t : Table α) (name : String) : Option α := t.entries.lookup name

def contains (t : Table α) (name : String) : Bool := (t.get? name).isSome

/-- Gives `name` a value in a list of entries: in its old place, or else at the end. -/
def insertEntry (name : String) (a : α) : List (String × α) → List (String × α)
  | [] => [(name, a)]
  | (key, b) :: rest =>
    if key = name then (key, a) :: rest else (key, b) :: insertEntry name a rest

def insert (t : Table α) (name : String) (a : α) : Table α := ⟨insertEntry name a t.entries⟩

/-- The table that insertions in the order of a list give. -/
def ofList (pairs : List (String × α)) : Table α :=
  pairs.foldl (fun t pair => t.insert pair.1 pair.2) {}

theorem get?_insert_self (t : Table α) (name : String) (a : α) :
    (t.insert name a).get? name = some a := by
  obtain ⟨entries⟩ := t
  simp only [insert, get?]
  induction entries with
  | nil => simp [insertEntry]
  | cons entry rest ih =>
    by_cases h : entry.1 = name
    · simp [insertEntry, h]
    · have hb : (name == entry.1) = false := beq_eq_false_iff_ne.mpr fun e => h e.symm
      simp only [insertEntry, h, if_false, List.lookup_cons, hb, ih]

theorem get?_insert_of_ne (t : Table α) {name other : String} (a : α) (hne : name ≠ other) :
    (t.insert name a).get? other = t.get? other := by
  have hb : (other == name) = false := beq_eq_false_iff_ne.mpr fun e => hne e.symm
  obtain ⟨entries⟩ := t
  simp only [insert, get?]
  induction entries with
  | nil => simp [insertEntry, List.lookup_cons, hb]
  | cons entry rest ih =>
    obtain ⟨key, b⟩ := entry
    by_cases h : key = name
    · simp only [insertEntry, h, if_true, List.lookup_cons, hb]
    · simp only [insertEntry, h, if_false, List.lookup_cons, ih]

theorem contains_iff_mem_keys (t : Table α) (name : String) :
    t.contains name = true ↔ name ∈ t.keys := by
  obtain ⟨entries⟩ := t
  simp only [contains, get?, keys]
  induction entries with
  | nil => simp
  | cons entry rest ih =>
    rw [List.lookup_cons, List.map_cons, List.mem_cons]
    split
    · next h => simp [beq_iff_eq.mp h]
    · next h => rw [ih, or_iff_right (beq_eq_false_iff_ne.mp h)]

/-- An old name leaves the names as they are, and a new one comes last. -/
theorem keys_insert (t : Table α) (name : String) (a : α) :
    (t.insert name a).keys = if name ∈ t.keys then t.keys else t.keys ++ [name] := by
  obtain ⟨entries⟩ := t
  simp only [insert, keys]
  induction entries with
  | nil => simp [insertEntry]
  | cons entry rest ih =>
    by_cases h : entry.1 = name
    · simp [insertEntry, h]
    · have h' : name ≠ entry.1 := fun e => h e.symm
      simp only [insertEntry, h, if_false, List.map_cons, ih, List.mem_cons, h', false_or]
      by_cases hm : name ∈ rest.map Prod.fst <;> simp only [hm, if_true, if_false, List.cons_append]

theorem nodup_keys_insert {t : Table α} (h : t.keys.Nodup) (name : String) (a : α) :
    (t.insert name a).keys.Nodup := by
  rw [keys_insert]
  split
  · exact h
  · next hn =>
    rw [List.nodup_append]
    exact ⟨h, by simp, fun x hx y hy => by rw [List.mem_singleton.mp hy]; rintro rfl; exact hn hx⟩

end Table

end ConstLang
