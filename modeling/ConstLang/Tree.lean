/-
Parse trees. A tree keeps every token it was read from, punctuation included: `leaves` gives
them back in the order of the text.

    text     :=  declaration* value?
    declaration  :=  NAME 'is' value
    value    :=  NUMBER  |  '[' value+ ']'  |  'struct' '{' [field (',' field)*] '}'  |  '!(' NAME ')'
    field    :=  NAME '=' value
-/
import ConstLang.Token

namespace ConstLang

/-- A field of a struct, together with the comma in front of it; the first one has none. A struct
whose commas are kept in a list of their own, beside the fields, could be made with more commas than
go between its fields; such a one is no tree. -/
structure Tree.Field (α : Type) where
  comma : Option Token
  name : Token
  equals : Token
  value : α

inductive Tree
  | number (token : Token)
  | array (opening : Token) (elements : List Tree) (closing : Token)
  | struct (keyword opening : Token) (fields : List (Tree.Field Tree)) (closing : Token)
  | reference (opening name closing : Token)

/-- What may stand at the top of a text. -/
inductive Tree.Item
  | declaration (name isWord : Token) (tree : Tree)
  | value (tree : Tree)

namespace Tree

mutual

/-- The tokens of a tree in the order of the text. -/
def leaves : Tree → List Token
  | number token => [token]
  | array opening elements closing => opening :: (leavesOfAll elements ++ [closing])
  | struct keyword opening fields closing =>
    keyword :: opening :: (leavesOfFields fields ++ [closing])
  | reference opening name closing => [opening, name, closing]

def leavesOfAll : List Tree → List Token
  | [] => []
  | tree :: trees => tree.leaves ++ leavesOfAll trees

def leavesOfFields : List (Field Tree) → List Token
  | [] => []
  | ⟨comma, name, equals, value⟩ :: fields =>
    comma.toList ++ name :: equals :: (value.leaves ++ leavesOfFields fields)

end

mutual

/-- The number of arrays and structs that are open at once on the deepest path. -/
def depth : Tree → Nat
  | number _ | reference .. => 0
  | array _ elements _ => depthOfAll elements + 1
  | struct _ _ fields _ => depthOfFields fields + 1

def depthOfAll : List Tree → Nat
  | [] => 0
  | tree :: trees => max tree.depth (depthOfAll trees)

def depthOfFields : List (Field Tree) → Nat
  | [] => 0
  | ⟨_, _, _, value⟩ :: fields => max value.depth (depthOfFields fields)

end

namespace Item

def leaves : Item → List Token
  | declaration name isWord tree => name :: isWord :: tree.leaves
  | value tree => tree.leaves

def depth : Item → Nat
  | declaration _ _ tree => tree.depth
  | value tree => tree.depth

end Item

end Tree

end ConstLang
