/-
Reading a text by descent: one routine for every rule of the grammar, and they call each other. They
share a state, which is the next token, the cursor behind it and the number of arrays and structs
that are open. Only `bump`, `enter` and `leave` change it, and a `Trace` remembers every state that
reading comes to. Nothing in the form of the routines says that they end, so each is given the
number of calls that may be under way at once, and stops where that is used up. A loop is a routine
that calls itself, so every turn of it counts.
-/
import ConstLang.Tree.Reader
import ConstLang.Proofs.Token.Stepping

namespace ConstLang

structure Descent where
  current : Token
  /-- The place behind the current token. -/
  cursor : Cursor
  /-- The number of arrays and structs that are open. -/
  depth : Nat := 0

namespace Descent

/-- The place where the current token starts. -/
def offset (s : Descent) : Nat := s.current.span.start.offset

/-- Why a routine gives nothing. -/
inductive Stop
  | refused (e : SyntaxError)
  /-- Something was closed while nothing was open. -/
  | underflow
  | outOfCalls

/-- The state that reading has come to, and the ones that it has left, the last one first. -/
structure Trace where
  now : Descent
  past : List Descent := []

def Trace.states (t : Trace) : List Descent := t.now :: t.past

abbrev Routine := EStateM Stop Trace

def now : Routine Descent := do return (← get).now

def become (s : Descent) : Routine Unit := modify fun t => ⟨s, t.states⟩

/-! ## Moves -/

/-- Takes the current token. If no token can be read behind it, it stays. -/
def bump : Routine Token := do
  let s ← now
  match s.cursor.pull with
  | (.ok t, c) =>
    become { s with current := t, cursor := c }
    return s.current
  | (.error e, c) =>
    become { s with cursor := c }
    throw (.refused e)

/-- Refuses the current token. -/
def refuse {α : Type} (fault : SyntaxFault) : Routine α := do
  let t := (← now).current
  throw (.refused ⟨fault, t.text, t.span⟩)

def expect (kind : Token.Kind) (fault : SyntaxFault) : Routine Token := do
  if (← now).current.kind = kind then bump else refuse fault

/-- Takes the token that a routine starts with. Every caller has seen that it is there. -/
def start (kind : Token.Kind) (wanted : String) : Routine Token := do
  let t := (← now).current
  let found := SyntaxError.found ⟨.described wanted, t.text, t.span⟩
  expect kind (.described (wanted ++ ", found " ++ found))

/-- Opens an array or struct, unless too many are open already. -/
def enter (limit : Nat) : Routine Unit := do
  let s ← now
  if s.depth < limit then become { s with depth := s.depth + 1 }
  else refuse (.nestingTooDeep limit)

/-- Closes an array or struct. -/
def leave : Routine Unit := do
  let s ← now
  match s.depth with
  | 0 => throw .underflow
  | depth + 1 => become { s with depth }

/-- Opens an array or struct with the token that it starts with. -/
def openWith (limit : Nat) (kind : Token.Kind) (wanted : String) : Routine Token := do
  enter limit
  start kind wanted

/-! ## Routines -/

def reference : Routine Tree := do
  let opening ← start .openReference "Expected '!('"
  let name ← expect .name (.unexpected .referenceName)
  let closing ← expect .closeReference (.unexpected .closeReference)
  return .reference opening name closing

mutual

def value (limit : Nat) : Nat → Routine Tree
  | 0 => throw .outOfCalls
  | calls + 1 => do
    match (← now).current.kind with
    | .number => return .number (← bump)
    | .openBracket => array limit calls
    | .structWord => struct limit calls
    | .openReference => reference
    | _ => refuse (.unexpected .value)

def array (limit : Nat) : Nat → Routine Tree
  | 0 => throw .outOfCalls
  | calls + 1 => do
    let opening ← openWith limit .openBracket "Expected '['"
    let first ← value limit calls
    let others ← elements limit calls
    let closing ← bump
    leave
    return .array opening (first :: others) closing

/-- The loop over the elements of an array: values, as long as no closing bracket comes. -/
def elements (limit : Nat) : Nat → Routine (List Tree)
  | 0 => throw .outOfCalls
  | calls + 1 => do
    if (← now).current.kind = .closeBracket then return []
    else
      let tree ← value limit calls
      return tree :: (← elements limit calls)

def struct (limit : Nat) : Nat → Routine Tree
  | 0 => throw .outOfCalls
  | calls + 1 => do
    let keyword ← openWith limit .structWord "Expected 'struct'"
    let opening ← expect .openBrace (.unexpected .openBrace)
    let fields ← body limit calls
    let closing ← expect .closeBrace (.unexpected .commaOrCloseBrace)
    leave
    return .struct keyword opening fields closing

/-- What stands between the braces of a struct. -/
def body (limit : Nat) : Nat → Routine (List (Tree.Field Tree))
  | 0 => throw .outOfCalls
  | calls + 1 => do
    if (← now).current.kind = .closeBrace then return []
    else
      let first ← field limit calls
      return first :: (← fields limit calls)

/-- The loop over the fields of a struct behind the first one: as long as a comma comes. -/
def fields (limit : Nat) : Nat → Routine (List (Tree.Field Tree))
  | 0 => throw .outOfCalls
  | calls + 1 => do
    if (← now).current.kind = .comma then
      let comma ← bump
      let next ← field limit calls
      return { next with comma := some comma } :: (← fields limit calls)
    else return []

def field (limit : Nat) : Nat → Routine (Tree.Field Tree)
  | 0 => throw .outOfCalls
  | calls + 1 => do
    let name ← expect .name (.unexpected .fieldName)
    let equals ← expect .equals (.unexpected .equals)
    return ⟨none, name, equals, ← value limit calls⟩

end

def declaration (limit calls : Nat) : Routine Tree.Item := do
  let name ← start .name "Expected a constant name"
  let isWord ← expect .isWord (.unexpected .isWord)
  return .declaration name isWord (← value limit calls)

/-- The loop over the items of a text: declarations up to the end, or up to the main value. -/
def items (limit : Nat) : Nat → Routine (List Tree.Item)
  | 0 => throw .outOfCalls
  | calls + 1 => do
    match (← now).current.kind with
    | .endOfInput => return []
    | .name =>
      let item ← declaration limit calls
      return item :: (← items limit calls)
    | _ =>
      let tree ← value limit calls
      let _ ← expect .endOfInput (.unexpected .endOfInput)
      return [.value tree]

/-- A whole text, and the states that reading it comes to, the last one first. -/
def parse (limit calls : Nat) (text : String) : Except Stop (List Tree.Item) × List Descent :=
  match (Cursor.ofText text).pull with
  | (.error e, _) => (.error (.refused e), [])
  | (.ok t, c) =>
    match items limit calls ⟨⟨t, c, 0⟩, []⟩ with
    | .ok trees trace => (.ok trees, trace.states)
    | .error stop trace => (.error stop, trace.states)

end Descent

end ConstLang
