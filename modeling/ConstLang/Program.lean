/-
Programs: declarations of constants, then one main value. What is said of a text's words and
marks is gone; names keep their places, for the errors that point at them. `Program.ofItems`
is what makes a list of items a program: any number of declarations and a value at the end.
-/
import ConstLang.Error

namespace ConstLang

/-- A name given to something: a field of a struct, or a constant. -/
structure Binding (α : Type) where
  name : String
  span : Span := {}
  value : α
deriving DecidableEq

inductive Expr
  | number (x : Binary64)
  | array (elements : List Expr)
  /-- The fields in the order of the text; a name may come again. -/
  | struct (fields : List (Binding Expr))
  | reference (name : String) (span : Span)

structure Program where
  declarations : List (Binding Expr)
  main : Expr

namespace Program

/-- What stands at the top of a text. -/
inductive Item
  | declaration (binding : Binding Expr)
  | value (e : Expr)

/-- The declaration that an item in front of the main value has to be. -/
def Item.toDeclaration : Item → Except Error (Binding Expr)
  | declaration binding => .ok binding
  | value _ => .error (.structural .valueBeforeMain)

/-- The program that a list of items is. The last item decides first: without a value there,
there is no program, whatever comes before. -/
def ofItems (items : List Item) : Except Error Program :=
  match items.getLast? with
  | some (.value main) => do
    let declarations ← items.dropLast.mapM Item.toDeclaration
    return ⟨declarations, main⟩
  | some (.declaration _) | none => .error .emptyProgram

end Program

end ConstLang
