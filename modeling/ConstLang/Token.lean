/-
The words of the language: a token is a lexeme together with its kind and its place. The end
of the input is a token too, with an empty text.
-/
import ConstLang.Position

namespace ConstLang

namespace Token

inductive Kind
  | name
  | number
  | isWord
  | structWord
  | openBracket
  | closeBracket
  | openBrace
  | closeBrace
  | comma
  | equals
  | openReference
  | closeReference
  | endOfInput
deriving DecidableEq

/-- How a kind is called in messages. -/
def Kind.text : Kind → String
  | name => "name"
  | number => "number"
  | isWord => "'is'"
  | structWord => "'struct'"
  | openBracket => "'['"
  | closeBracket => "']'"
  | openBrace => "'\x7b'"
  | closeBrace => "'\x7d'"
  | comma => "','"
  | equals => "'='"
  | openReference => "'!('"
  | closeReference => "')'"
  | endOfInput => "end of input"

end Token

structure Token where
  kind : Token.Kind
  text : String
  span : Span := {}
deriving DecidableEq

/-- The token that stands for the end of a text which ends at `p`. -/
def Token.endAt (p : Position) : Token := ⟨.endOfInput, "", ⟨p, p⟩⟩

end ConstLang
