/-
What can be wrong with a text or a program. An error is its cause, as data, with the place it
points at; its wording is given in one place, by the functions `text`, `detail` and `message`.
-/
import ConstLang.Token
import ConstLang.Binary64.Numeral

namespace ConstLang

/-- What the grammar asks for at a place. -/
inductive Expectation
  | isWord
  | value
  | openBrace
  | fieldName
  | equals
  | commaOrCloseBrace
  | referenceName
  | closeReference
  | endOfInput
deriving DecidableEq

def Expectation.text : Expectation → String
  | isWord => "Expected 'is' after constant name"
  | value => "Expected a value"
  | openBrace => "Expected '\x7b' after 'struct'"
  | fieldName => "Expected a field name"
  | equals => "Expected '=' after field name"
  | commaOrCloseBrace => "Expected ',' or '\x7d' in struct"
  | referenceName => "Expected a constant name after '!('"
  | closeReference => "Expected ')' after constant name"
  | endOfInput => "Expected end of input after the main value"

/-- Why a text is not in the language. -/
inductive SyntaxFault
  /-- Digits that no point and digit follow. -/
  | fractionMissing
  /-- A character that starts no lexeme. -/
  | strayCharacter
  /-- A token that the grammar does not allow where it stands. -/
  | unexpected (wanted : Expectation)
  /-- More arrays and structs open at once than the limit. -/
  | nestingTooDeep (limit : Nat)
  /-- A fault that is known by its description alone. -/
  | described (text : String)
deriving DecidableEq

structure SyntaxError where
  fault : SyntaxFault
  /-- The offending text, empty at the end of the input. -/
  token : String
  span : Span
deriving DecidableEq

namespace SyntaxError

/-- How the offending text is called in a message. -/
def found (e : SyntaxError) : String :=
  if e.token = "" then Token.Kind.endOfInput.text else "'" ++ e.token ++ "'"

def detail (e : SyntaxError) : String :=
  match e.fault with
  | .fractionMissing => "Expected a number with a fractional part"
  | .strayCharacter => "Unexpected character '" ++ e.token ++ "'"
  | .unexpected wanted => wanted.text ++ ", found " ++ e.found
  | .nestingTooDeep limit => "Nesting too deep (limit " ++ limit.repr ++ ")"
  | .described text => text

/-- A place as `line:column`, both from zero. -/
def place (p : Position) : String := p.line.repr ++ ":" ++ p.column.repr

/-- The place of the error, its detail and its kind; an empty span is given as one place. -/
def message (e : SyntaxError) : String :=
  (if e.span.start = e.span.stop then place e.span.start
    else place e.span.start ++ "-" ++ place e.span.stop)
    ++ ": " ++ e.detail ++ " (syntax-error)"

end SyntaxError

/-- Why a tree or a list of items does not make a program. None arises from a text. -/
inductive StructuralFault
  | numberWanted (found : Token.Kind)
  | nameWanted (found : Token.Kind)
  | badNumber (text : String) (fault : Numeral.Fault)
  | emptyArray
  | valueBeforeMain
  /-- A fault that is known by its description alone. -/
  | described (text : String)
deriving DecidableEq

def StructuralFault.text : StructuralFault → String
  | numberWanted found => "expected a number token, got " ++ found.text
  | nameWanted found => "expected a name token, got " ++ found.text
  | badNumber text fault => "bad number literal '" ++ text ++ "': " ++ fault.text
  | emptyArray => "array without elements"
  | valueBeforeMain => "unexpected node before main value"
  | described text => text

/-- Every way in which a text fails to give a value. -/
inductive Error
  | malformed (e : SyntaxError)
  | structural (fault : StructuralFault)
  | emptyProgram
  | undefinedConstant (name : String) (span : Span)
  /-- Only of a strict evaluation. -/
  | duplicateKey (name : String) (span : Span)
  /-- Only of a strict evaluation. -/
  | redeclaredConstant (name : String) (span : Span)
deriving DecidableEq

namespace Error

/-- The name of the kind of error, for programs to read. -/
def code : Error → String
  | malformed _ => "syntax-error"
  | structural _ => "structural-error"
  | emptyProgram => "empty-program"
  | undefinedConstant .. => "undefined-constant"
  | duplicateKey .. => "duplicate-key"
  | redeclaredConstant .. => "redeclared-constant"

def message : Error → String
  | malformed e => e.message
  | structural fault => "Internal error: " ++ fault.text
  | emptyProgram => "Empty program: no value defined"
  | undefinedConstant name _ => "Use of undefined constant '" ++ name ++ "'"
  | duplicateKey name _ => "Duplicate key '" ++ name ++ "' in struct"
  | redeclaredConstant name _ => "Constant '" ++ name ++ "' is already defined"

/-- The stretch of text that the error points at, if there is one. -/
def span? : Error → Option Span
  | malformed e => some e.span
  | structural _ | emptyProgram => none
  | undefinedConstant _ span | duplicateKey _ span | redeclaredConstant _ span => some span

end Error

end ConstLang
