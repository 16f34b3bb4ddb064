/-
From trees to programs. A tree need not come from a text, so the kinds of its tokens and the
texts of its numbers are looked at here, in the order of the text: a name before the value it
labels, and whether an array is empty before its elements. Marks and words are not looked at.
-/
import ConstLang.Tree.Reader
import ConstLang.Program

namespace ConstLang

namespace Token

/-- The text of a name. -/
def toName (t : Token) : Except Error String :=
  if t.kind = .name then .ok t.text else .error (.structural (.nameWanted t.kind))

/-- The number that a number's text stands for. -/
def toNumber (t : Token) : Except Error Binary64 :=
  if t.kind = .number then
    (Numeral.read t.text).mapError fun fault => .structural (.badNumber t.text fault)
  else .error (.structural (.numberWanted t.kind))

end Token

namespace Expr

mutual

/-- The expression that a tree stands for. -/
def ofTree : Tree → Except Error Expr
  | .number token => do return .number (← token.toNumber)
  | .array _ [] _ => .error (.structural .emptyArray)
  | .array _ (tree :: trees) _ => do
    let e ← ofTree tree
    return .array (e :: (← ofTrees trees))
  | .struct _ _ fields _ => do return .struct (← ofFields fields)
  | .reference _ name _ => do return .reference (← name.toName) name.span

def ofTrees : List Tree → Except Error (List Expr)
  | [] => .ok []
  | tree :: trees => do
    let e ← ofTree tree
    return e :: (← ofTrees trees)

def ofFields : List (Tree.Field Tree) → Except Error (List (Binding Expr))
  | [] => .ok []
  | ⟨_, name, _, value⟩ :: fields => do
    let label ← name.toName
    let e ← ofTree value
    return ⟨label, name.span, e⟩ :: (← ofFields fields)

end

end Expr

namespace Program

/-- The item that an item of a tree stands for. -/
def Item.ofTree : Tree.Item → Except Error Item
  | .declaration name _ tree => do
    let label ← name.toName
    return .declaration ⟨label, name.span, ← Expr.ofTree tree⟩
  | .value tree => do return .value (← Expr.ofTree tree)

/-- The program that the items of a tree stand for. -/
def ofTrees (items : List Tree.Item) : Except Error Program := do
  ofItems (← items.mapM Item.ofTree)

/-- The program that a text says. -/
def ofText (text : String) : Except Error Program := do
  ofTrees (← (Tree.parse text).mapError Error.malformed)

end Program

end ConstLang
