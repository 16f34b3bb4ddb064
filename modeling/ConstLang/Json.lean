/-
Values as JSON text, on one line or laid out with two spaces to a level. Inside a string the
quote, the backslash and the control characters are escaped, and no other character is. A
number has the shortest digits that read back; what is not finite is written as `null`.
Writing puts the text of a value in front of what follows it, `write_eq_append`.
-/
import ConstLang.Binary64.Numeral
import ConstLang.Value

namespace ConstLang

namespace Json

inductive Layout
  /-- No space anywhere outside strings. -/
  | compact
  /-- An entry to a line. -/
  | pretty
deriving DecidableEq

/-- What stands in front of an entry at a depth, and in front of what closes it. -/
def Layout.newline : Layout → Nat → List Char
  | compact, _ => []
  | pretty, depth => '\n' :: List.replicate (2 * depth) ' '

/-- What stands between a key and its value. -/
def Layout.colon : Layout → List Char
  | compact => [':']
  | pretty => [':', ' ']

/-- A number below sixteen as a digit. -/
def hexDigit (n : Nat) : Char := Nat.digitChar n

/-- A character as it is written inside a string. -/
def escape (c : Char) : List Char :=
  match c with
  | '"' => ['\\', '"']
  | '\\' => ['\\', '\\']
  | '\n' => ['\\', 'n']
  | '\r' => ['\\', 'r']
  | '\t' => ['\\', 't']
  | '\x08' => ['\\', 'b']
  | '\x0c' => ['\\', 'f']
  | c =>
    if c.toNat < 0x20 then
      ['\\', 'u', '0', '0', hexDigit (c.toNat / 16), hexDigit (c.toNat % 16)]
    else [c]

def writeString (s : String) : List Char := '"' :: (s.toList.flatMap escape ++ ['"'])

def writeNumber (x : Binary64) : List Char :=
  if x.isFinite then Numeral.write x else ['n', 'u', 'l', 'l']

mutual

/-- The text of a value that stands at a depth, and what follows it. -/
def write (layout : Layout) (depth : Nat) : Value → List Char → List Char
  | .number x, rest => writeNumber x ++ rest
  | .array [], rest => '[' :: ']' :: rest
  | .array (v :: vs), rest =>
    '[' :: (layout.newline (depth + 1) ++ write layout (depth + 1) v
      (writeElements layout (depth + 1) vs (layout.newline depth ++ ']' :: rest)))
  | .struct ⟨[]⟩, rest => '{' :: '}' :: rest
  | .struct ⟨(name, v) :: fs⟩, rest =>
    '{' :: (layout.newline (depth + 1) ++ (writeString name ++ (layout.colon ++
      write layout (depth + 1) v
        (writeFields layout (depth + 1) fs (layout.newline depth ++ '}' :: rest)))))

/-- The elements after the first one, each with a comma in front, and what follows them. -/
def writeElements (layout : Layout) (depth : Nat) : List Value → List Char → List Char
  | [], rest => rest
  | v :: vs, rest =>
    ',' :: (layout.newline depth ++ write layout depth v (writeElements layout depth vs rest))

/-- The fields after the first one, each with a comma in front, and what follows them. -/
def writeFields (layout : Layout) (depth : Nat) : List (String × Value) → List Char → List Char
  | [], rest => rest
  | (name, v) :: fs, rest =>
    ',' :: (layout.newline depth ++ (writeString name ++ (layout.colon ++
      write layout depth v (writeFields layout depth fs rest))))

end

mutual

/-- What follows a value has no part in its text. -/
theorem write_eq_append (layout : Layout) (depth : Nat) :
    ∀ (v : Value) (rest : List Char),
      write layout depth v rest = write layout depth v [] ++ rest
  | .number x, rest => by simp [write]
  | .array [], rest => by simp [write]
  | .array (v :: vs), rest => by
    simp only [write]
    rw [write_eq_append _ _ v, writeElements_eq_append _ _ vs, write_eq_append _ _ v
      (writeElements _ _ _ (_ ++ [_])), writeElements_eq_append _ _ vs (_ ++ [_])]
    simp
  | .struct ⟨[]⟩, rest => by simp [write]
  | .struct ⟨(name, v) :: fs⟩, rest => by
    simp only [write]
    rw [write_eq_append _ _ v, writeFields_eq_append _ _ fs, write_eq_append _ _ v
      (writeFields _ _ _ (_ ++ [_])), writeFields_eq_append _ _ fs (_ ++ [_])]
    simp

theorem writeElements_eq_append (layout : Layout) (depth : Nat) :
    ∀ (vs : List Value) (rest : List Char),
      writeElements layout depth vs rest = writeElements layout depth vs [] ++ rest
  | [], rest => by simp [writeElements]
  | v :: vs, rest => by
    simp only [writeElements]
    rw [write_eq_append _ _ v, writeElements_eq_append _ _ vs, write_eq_append _ _ v
      (writeElements _ _ _ [])]
    simp

theorem writeFields_eq_append (layout : Layout) (depth : Nat) :
    ∀ (fs : List (String × Value)) (rest : List Char),
      writeFields layout depth fs rest = writeFields layout depth fs [] ++ rest
  | [], rest => by simp [writeFields]
  | (name, v) :: fs, rest => by
    simp only [writeFields]
    rw [write_eq_append _ _ v, writeFields_eq_append _ _ fs, write_eq_append _ _ v
      (writeFields _ _ _ [])]
    simp

end

end Json

/-- The JSON text of a value. -/
def Value.toJson (v : Value) (layout : Json.Layout) : String :=
  String.ofList (Json.write layout 0 v [])

end ConstLang
