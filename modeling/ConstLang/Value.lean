/-
Values: what a program comes to. Nothing in a value refers to anything. A value is equal to
another one if both have the same shape, their numbers are equal as numbers, and their fields
are the same in any order. `Value.WellFormed` says that no struct has two fields of one name;
every value that a program or a sequence of insertions gives is so.
-/
import ConstLang.Binary64
import ConstLang.Table

namespace ConstLang

inductive Value
  | number (x : Binary64)
  | array (elements : List Value)
  | struct (fields : Table Value)

namespace Value

/-- A proof for all values goes by their elements and fields. -/
@[elab_as_elim]
theorem induction {P : Value → Prop} (number : ∀ x, P (.number x))
    (array : ∀ elements, (∀ v ∈ elements, P v) → P (.array elements))
    (struct : ∀ fields : Table Value, (∀ f ∈ fields.entries, P f.2) → P (.struct fields))
    (v : Value) : P v :=
  Value.rec (motive_1 := P) (motive_2 := fun vs => ∀ v ∈ vs, P v)
    (motive_3 := fun t => ∀ f ∈ t.entries, P f.2) (motive_4 := fun fs => ∀ f ∈ fs, P f.2)
    (motive_5 := fun f => P f.2)
    number array struct (by simp) (fun _ _ hv hvs => List.forall_mem_cons.mpr ⟨hv, hvs⟩)
    (fun _ h => h) (by simp) (fun _ _ hf hfs => List.forall_mem_cons.mpr ⟨hf, hfs⟩)
    (fun _ _ h => h) v

/-- No struct in the value has two fields of one name. -/
inductive WellFormed : Value → Prop
  | number (x : Binary64) : WellFormed (.number x)
  | array {elements : List Value} : (∀ v ∈ elements, WellFormed v) → WellFormed (.array elements)
  | struct {fields : Table Value} : fields.keys.Nodup →
      (∀ f ∈ fields.entries, WellFormed f.2) → WellFormed (.struct fields)

mutual

/-- Equality of values. -/
def equal : Value → Value → Bool
  | number x, number y => x.equal y
  | array us, array vs => equalAll us vs
  | struct ⟨fs⟩, struct gs => fs.length == gs.size && fieldsEqual fs gs
  | _, _ => false

def equalAll : List Value → List Value → Bool
  | [], [] => true
  | u :: us, v :: vs => u.equal v && equalAll us vs
  | _, _ => false

/-- Whether each of some fields has an equal one in a table. -/
def fieldsEqual : List (String × Value) → Table Value → Bool
  | [], _ => true
  | (name, u) :: fs, gs =>
    (match gs.get? name with
      | some v => u.equal v
      | none => false) && fieldsEqual fs gs

end

mutual

/-- The number of arrays and structs that are open at once on the deepest path. -/
def depth : Value → Nat
  | number _ => 0
  | array vs => depthOfAll vs + 1
  | struct ⟨fs⟩ => depthOfFields fs + 1

def depthOfAll : List Value → Nat
  | [] => 0
  | v :: vs => max v.depth (depthOfAll vs)

def depthOfFields : List (String × Value) → Nat
  | [] => 0
  | (_, v) :: fs => max v.depth (depthOfFields fs)

end

/-! ## Looking into a value -/

def number? : Value → Option Binary64
  | number x => some x
  | _ => none

def elements? : Value → Option (List Value)
  | array vs => some vs
  | _ => none

def fields? : Value → Option (Table Value)
  | struct fs => some fs
  | _ => none

/-- The field of a struct with a given name. -/
def get? (v : Value) (name : String) : Option Value := v.fields?.bind (·.get? name)

/-- A way down into a value: to a field or to an element. -/
inductive Selector
  | field (name : String)
  | element (index : Nat)

def select? (v : Value) : Selector → Option Value
  | .field name => v.get? name
  | .element index => v.elements?.bind (·[index]?)

/-- Follows selectors from a value downwards. One that leads nowhere is passed over. Gives for
each one whether it led somewhere, and the value it led to or stayed at. -/
def walk (v : Value) : List Selector → List (Bool × Value)
  | [] => []
  | s :: ss =>
    match v.select? s with
    | some w => (true, w) :: w.walk ss
    | none => (false, v) :: v.walk ss

end Value

end ConstLang
