/-
Reading trees from tokens, one token at a time. The state of reading is the tree built so far
with one place in it still to be filled: a `Hole` is the chain of arrays and structs that are
open around that place, innermost first, and a `Stage` says what may stand next.
`Reader.step` takes a token or refuses it, `Reader.finish` takes the end of the input, and
`Tree.parse` runs a text through them.

A piece of text that is no lexeme is refused only after all tokens in front of it are taken,
so the error reported is the first one in the order of the text.
-/
import ConstLang.Token.Stream
import ConstLang.Tree

namespace ConstLang

namespace Reader

/-- A struct that is open, with the fields it has so far, the last one first. -/
structure OpenStruct where
  keyword : Token
  opening : Token
  fields : List (Tree.Field Tree) := []

/-- The start of a field: the comma in front of it, its name and its equals sign. -/
structure FieldStart where
  comma : Option Token
  name : Token

/-- The place of a value that is to be read. -/
inductive Hole
  /-- The main value. -/
  | main
  | declaration (name isWord : Token)
  /-- The next element of an open array, with the ones before it, the last one first. -/
  | element (opening : Token) (before : List Tree) (outer : Hole)
  | field (struct : OpenStruct) (start : FieldStart) (equals : Token) (outer : Hole)

/-- The number of arrays and structs that are open around a place. -/
def Hole.depth : Hole → Nat
  | main | declaration .. => 0
  | element _ _ outer | field _ _ _ outer => outer.depth + 1

/-- What is to be read next. -/
inductive Stage
  /-- A declaration, the main value or the end. -/
  | item
  | isWord (name : Token)
  /-- A value, or the end of an array that has an element. -/
  | value (hole : Hole)
  | openBrace (keyword : Token) (outer : Hole)
  /-- The name of a field, or the end of a struct that has no field yet. -/
  | fieldName (struct : OpenStruct) (comma : Option Token) (outer : Hole)
  | equals (struct : OpenStruct) (start : FieldStart) (outer : Hole)
  /-- A comma or the end of the struct. -/
  | separator (struct : OpenStruct) (outer : Hole)
  | referenceName (opening : Token) (hole : Hole)
  | closeReference (opening name : Token) (hole : Hole)
  /-- The end, behind the main value. -/
  | finished

/-- What is missing when reading cannot go on. -/
def Stage.wanted : Stage → Expectation
  | item | value _ => .value
  | isWord _ => .isWord
  | openBrace .. => .openBrace
  | fieldName .. => .fieldName
  | equals .. => .equals
  | separator .. => .commaOrCloseBrace
  | referenceName .. => .referenceName
  | closeReference .. => .closeReference
  | finished => .endOfInput

end Reader

/-- The items that are complete, the last one first, and what is to be read next. -/
structure Reader where
  items : List Tree.Item := []
  stage : Reader.Stage := .item

namespace Reader

/-- The most arrays and structs that may be open at once. -/
def maxDepth : Nat := 256

def refuse (stage : Stage) (t : Token) : Except SyntaxError Reader :=
  .error ⟨.unexpected stage.wanted, t.text, t.span⟩

/-- Puts a value in its place and goes on behind it. -/
def fill (items : List Tree.Item) (value : Tree) : Hole → Reader
  | .main => ⟨.value value :: items, .finished⟩
  | .declaration name isWord => ⟨.declaration name isWord value :: items, .item⟩
  | .element opening before outer => ⟨items, .value (.element opening (value :: before) outer)⟩
  | .field struct start equals outer =>
    let field : Tree.Field Tree := ⟨start.comma, start.name, equals, value⟩
    ⟨items, .separator { struct with fields := field :: struct.fields } outer⟩

/-- Goes on inside an array or struct that `t` opens, unless too many are open already. -/
def enter (limit : Nat) (items : List Tree.Item) (hole : Hole) (t : Token) (inside : Stage) :
    Except SyntaxError Reader :=
  if hole.depth < limit then .ok ⟨items, inside⟩
  else .error ⟨.nestingTooDeep limit, t.text, t.span⟩

/-- Closes the array around a place, if it has an element. -/
def closeArray? (items : List Tree.Item) (hole : Hole) (t : Token) : Option Reader :=
  match hole with
  | .element opening (last :: before) outer =>
    some (fill items (.array opening (last :: before).reverse t) outer)
  | _ => none

/-- The struct that `t` closes. -/
def OpenStruct.close (struct : OpenStruct) (t : Token) : Tree :=
  .struct struct.keyword struct.opening struct.fields.reverse t

/-- Takes the first token of a value that belongs in `hole`. -/
def startValue (limit : Nat) (items : List Tree.Item) (stage : Stage) (hole : Hole) (t : Token) :
    Except SyntaxError Reader :=
  match t.kind with
  | .number => .ok (fill items (.number t) hole)
  | .openBracket => enter limit items hole t (.value (.element t [] hole))
  | .structWord => enter limit items hole t (.openBrace t hole)
  | .openReference => .ok ⟨items, .referenceName t hole⟩
  | .closeBracket => (closeArray? items hole t).elim (refuse stage t) .ok
  | _ => refuse stage t

/-- Takes one token. -/
def step (limit : Nat) (r : Reader) (t : Token) : Except SyntaxError Reader :=
  match r.stage with
  | .item =>
    if t.kind = .name then .ok ⟨r.items, .isWord t⟩
    else startValue limit r.items r.stage .main t
  | .isWord name =>
    if t.kind = .isWord then .ok ⟨r.items, .value (.declaration name t)⟩
    else refuse r.stage t
  | .value hole => startValue limit r.items r.stage hole t
  | .openBrace keyword outer =>
    if t.kind = .openBrace then .ok ⟨r.items, .fieldName ⟨keyword, t, []⟩ none outer⟩
    else refuse r.stage t
  | .fieldName struct comma outer =>
    if t.kind = .name then .ok ⟨r.items, .equals struct ⟨comma, t⟩ outer⟩
    else if t.kind = .closeBrace ∧ comma = none then .ok (fill r.items (struct.close t) outer)
    else refuse r.stage t
  | .equals struct start outer =>
    if t.kind = .equals then .ok ⟨r.items, .value (.field struct start t outer)⟩
    else refuse r.stage t
  | .separator struct outer =>
    if t.kind = .comma then .ok ⟨r.items, .fieldName struct (some t) outer⟩
    else if t.kind = .closeBrace then .ok (fill r.items (struct.close t) outer)
    else refuse r.stage t
  | .referenceName opening hole =>
    if t.kind = .name then .ok ⟨r.items, .closeReference opening t hole⟩
    else refuse r.stage t
  | .closeReference opening name hole =>
    if t.kind = .closeReference then .ok (fill r.items (.reference opening name t) hole)
    else refuse r.stage t
  | .finished => refuse r.stage t

/-- Takes tokens one after the other. -/
def run (limit : Nat) (r : Reader) (tokens : List Token) : Except SyntaxError Reader :=
  tokens.foldlM (step limit) r

/-- Takes the end of the input. -/
def finish (r : Reader) (last : Token) : Except SyntaxError (List Tree.Item) :=
  match r.stage with
  | .item | .finished => .ok r.items.reverse
  | stage => .error ⟨.unexpected stage.wanted, last.text, last.span⟩

end Reader

namespace Tree

/-- The items of a token stream. -/
def ofStream (limit : Nat) (s : TokenStream) : Except SyntaxError (List Item) := do
  let r ← Reader.run limit {} s.tokens
  let last ← s.ending
  r.finish last

/-- The items of a text: its declarations and, if there is one, its main value. -/
def parse (text : String) : Except SyntaxError (List Item) :=
  ofStream Reader.maxDepth (.ofText text)

end Tree

end ConstLang
