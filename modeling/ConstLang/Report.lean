/-
Reports for the reader of a text: what is wrong, with the line it is wrong in and a mark under
the piece that is meant. A line ends at a line feed, and a carriage return right before that
belongs to the ending too. The mark counts bytes, as columns do.
-/
import ConstLang.Error

namespace ConstLang

namespace Line

/-- What is left of a line when a carriage return at its end is taken off. -/
def dropReturn (line : List Char) : List Char :=
  if line.getLast? = some '\r' then line.dropLast else line

/-- The first line of a text without its ending. -/
def first (cs : List Char) : List Char :=
  let line := cs.takeWhile (· ≠ '\n')
  if line.length < cs.length then dropReturn line else line

/-- What follows the first line of a text. -/
def rest (cs : List Char) : List Char := (cs.dropWhile (· ≠ '\n')).drop 1

/-- A line of a text, counted from zero; there is nothing on a line that does not exist. -/
def nth : Nat → List Char → List Char
  | 0, cs => first cs
  | n + 1, cs => nth n (rest cs)

end Line

/-- A line of a text and a mark under a piece of it. -/
structure Excerpt where
  /-- The number of the line, counted from one. -/
  number : Nat
  line : List Char
  underline : List Char
deriving DecidableEq

namespace Excerpt

/-- The number of columns to be marked: those of the span on its first line, and at least one. -/
def width (span : Span) : Nat :=
  if span.start.line = span.stop.line ∧ span.start.column < span.stop.column then
    span.stop.column - span.start.column
  else 1

/-- The excerpt of a text that shows a span. -/
def ofSpan (text : List Char) (span : Span) : Excerpt where
  number := span.start.line + 1
  line := Line.nth span.start.line text
  underline :=
    List.replicate span.start.column ' ' ++ '^' :: List.replicate (width span - 1) '_'

def text (e : Excerpt) : String :=
  "  --> line " ++ e.number.repr ++ ":\n" ++ String.ofList e.line ++ "\n" ++
    String.ofList e.underline ++ "\n"

end Excerpt

/-- The whole report on a text that fails to give a value. -/
def Error.report (text : String) (e : Error) : String :=
  let excerpt := match e.span? with
    | some span => (Excerpt.ofSpan text.toList span).text
    | none => ""
  match e with
  | .malformed _ => "Syntax error:\n" ++ excerpt ++ e.message ++ "\n"
  | _ => "Semantic error: " ++ e.message ++ "\n" ++ excerpt

end ConstLang
