/-
The lexemes of the language, as the longest start of a text that belongs to a class: a word is
letters and underscores; a number is digits around a point, at least one behind it; digits
that make no number are taken together with what looks like the rest of one, and refused. A
lexeme read is never empty (`Lexeme.text_ne_nil`) and is a start of the text
(`Lexeme.text_isPrefix`), and so is a piece that is refused.
-/
import ConstLang.Error

namespace ConstLang

/-- Space, tab, carriage return and line feed separate tokens, and nothing else does. -/
def isBlank (c : Char) : Bool := c == ' ' || c == '\t' || c == '\r' || c == '\n'

/-- An unaccented letter or an underscore. -/
def isWordChar (c : Char) : Bool := c == '_' || c.isAlpha

namespace Lexeme

/-- The word at the start, or nothing. -/
def word (cs : List Char) : List Char := cs.takeWhile isWordChar

/-- The number at the start, or nothing: digits, a point and at least one more digit. -/
def number (cs : List Char) : List Char :=
  match cs.dropWhile Char.isDigit with
  | '.' :: r =>
    if (r.takeWhile Char.isDigit).isEmpty then []
    else cs.takeWhile Char.isDigit ++ '.' :: r.takeWhile Char.isDigit
  | _ => []

/-- A point at the start, or nothing. -/
def point : List Char → List Char
  | '.' :: _ => ['.']
  | _ => []

/-- A sign at the start, or nothing. -/
def sign : List Char → List Char
  | '+' :: _ => ['+']
  | '-' :: _ => ['-']
  | _ => []

/-- An exponent at the start, or nothing: a letter, then a sign and digits, both optional. -/
def exponent : List Char → List Char
  | c :: r =>
    if c == 'e' || c == 'E' then
      c :: (sign r ++ (r.drop (sign r).length).takeWhile Char.isDigit)
    else []
  | [] => []

/-- A run of digits at the start with the point and the exponent that follow it, or nothing. -/
def integral (cs : List Char) : List Char :=
  if (cs.takeWhile Char.isDigit).isEmpty then []
  else
    let r := cs.dropWhile Char.isDigit
    cs.takeWhile Char.isDigit ++ (point r ++ exponent (r.drop (point r).length))

/-- The kind of a word; two words are not names. -/
def wordKind (w : List Char) : Token.Kind :=
  if w = ['i', 's'] then .isWord
  else if w = ['s', 't', 'r', 'u', 'c', 't'] then .structWord
  else .name

/-- The kind of a mark of one character. -/
def markKind? (c : Char) : Option Token.Kind :=
  match c with
  | '[' => some .openBracket
  | ']' => some .closeBracket
  | '{' => some .openBrace
  | '}' => some .closeBrace
  | ',' => some .comma
  | '=' => some .equals
  | ')' => some .closeReference
  | _ => none

/-- The mark at the start, if there is one. -/
def mark? : List Char → Option (Token.Kind × List Char)
  | '!' :: '(' :: _ => some (.openReference, ['!', '('])
  | c :: _ => (markKind? c).map (·, [c])
  | [] => none

end Lexeme

/-- What a text starts with: a lexeme of some kind, or a piece that is refused. -/
inductive Lexeme
  | accepted (kind : Token.Kind) (text : List Char)
  | refused (fault : SyntaxFault) (text : List Char)
deriving DecidableEq

namespace Lexeme

def text : Lexeme → List Char
  | accepted _ text | refused _ text => text

/-- Reads the start of the text `c :: r`: a word, else a number, else digits to refuse, else a
mark, else a character to refuse. -/
def read (c : Char) (r : List Char) : Lexeme :=
  let cs := c :: r
  if !(word cs).isEmpty then .accepted (wordKind (word cs)) (word cs)
  else if !(number cs).isEmpty then .accepted .number (number cs)
  else if !(integral cs).isEmpty then .refused .fractionMissing (integral cs)
  else match mark? cs with
    | some (kind, text) => .accepted kind text
    | none => .refused .strayCharacter [c]

theorem mark?_some {cs : List Char} {kind : Token.Kind} {text : List Char}
    (h : mark? cs = some (kind, text)) : text ≠ [] ∧ text <+: cs := by
  unfold mark? at h
  split at h
  · next r =>
    simp only [Option.some.injEq, Prod.mk.injEq] at h
    exact h.2 ▸ ⟨by simp, ⟨r, rfl⟩⟩
  · next c r _ =>
    cases hk : markKind? c with
    | none => simp [hk] at h
    | some k =>
      simp only [hk, Option.map_some, Option.some.injEq, Prod.mk.injEq] at h
      exact h.2 ▸ ⟨by simp, ⟨r, rfl⟩⟩
  · simp at h

theorem text_ne_nil (c : Char) (r : List Char) : (read c r).text ≠ [] := by
  unfold read
  dsimp only
  split
  · next h => simpa [text] using h
  · split
    · next h => simpa [text] using h
    · split
      · next h => simpa [text] using h
      · split
        · next h => exact (mark?_some h).1
        · simp [text]

theorem word_isPrefix (cs : List Char) : word cs <+: cs := List.takeWhile_prefix _

theorem takeWhile_append_isPrefix {p : Char → Bool} {bs cs : List Char}
    (h : bs <+: cs.dropWhile p) : cs.takeWhile p ++ bs <+: cs := by
  have := (List.prefix_append_right_inj (cs.takeWhile p)).mpr h
  rwa [List.takeWhile_append_dropWhile] at this

theorem number_isPrefix (cs : List Char) : number cs <+: cs := by
  unfold number
  split
  · next r hr =>
    split
    · exact List.nil_prefix
    · refine takeWhile_append_isPrefix ?_
      rw [hr, List.cons_prefix_cons]
      exact ⟨rfl, List.takeWhile_prefix _⟩
  · exact List.nil_prefix

theorem point_isPrefix (cs : List Char) : point cs <+: cs := by
  unfold point; split <;> simp

theorem sign_isPrefix (cs : List Char) : sign cs <+: cs := by
  unfold sign; split <;> simp

/-- A start of a text, followed by a start of what it leaves, is a start of the text. -/
theorem append_isPrefix_of_drop {as bs cs : List Char} (ha : as <+: cs)
    (hb : bs <+: cs.drop as.length) : as ++ bs <+: cs := by
  obtain ⟨r, rfl⟩ := ha
  rw [List.drop_left] at hb
  exact (List.prefix_append_right_inj as).mpr hb

theorem exponent_isPrefix (cs : List Char) : exponent cs <+: cs := by
  unfold exponent
  split
  · next c r =>
    split
    · rw [List.cons_prefix_cons]
      exact ⟨rfl, append_isPrefix_of_drop (sign_isPrefix r) (List.takeWhile_prefix _)⟩
    · exact List.nil_prefix
  · exact List.nil_prefix

theorem integral_isPrefix (cs : List Char) : integral cs <+: cs := by
  unfold integral
  split
  · exact List.nil_prefix
  · exact takeWhile_append_isPrefix (append_isPrefix_of_drop (point_isPrefix _) (exponent_isPrefix _))

theorem text_isPrefix (c : Char) (r : List Char) : (read c r).text <+: c :: r := by
  unfold read
  dsimp only
  split
  · exact word_isPrefix _
  · split
    · exact number_isPrefix _
    · split
      · exact integral_isPrefix _
      · split
        · next h => exact (mark?_some h).2
        · exact ⟨r, rfl⟩

end Lexeme

end ConstLang
