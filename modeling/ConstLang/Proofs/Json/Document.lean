/-
A strict reader of JSON, by RFC 8259: what it takes for a document is one, and nothing else is.
`tokens?` cuts a text into marks, strings and words. A string has no raw control character in
it, and the halves of a surrogate pair are only taken together. A word is all that stands
between marks, quotes and blanks, so that a number ends where the format lets it end; it has to
be a number or a literal as a whole. `Reader.step` puts tokens together, with what is open
around them as data. Nothing may follow a document, and no comma may stand before a closing mark.
-/
import ConstLang.Binary64.Numeral

namespace ConstLang

namespace Json

/-- A document. Of a number it holds the text, which says more than any one number format. -/
inductive Document
  | null
  | boolean (b : Bool)
  | number (text : List Char)
  | string (s : String)
  | array (elements : List Document)
  | object (members : List (String × Document))

/-- No object in the document has two members of one name. -/
inductive Document.DistinctKeys : Document → Prop
  | null : DistinctKeys .null
  | boolean (b : Bool) : DistinctKeys (.boolean b)
  | number (text : List Char) : DistinctKeys (.number text)
  | string (s : String) : DistinctKeys (.string s)
  | array {elements : List Document} : (∀ d ∈ elements, DistinctKeys d) →
      DistinctKeys (.array elements)
  | object {members : List (String × Document)} : (members.map Prod.fst).Nodup →
      (∀ m ∈ members, DistinctKeys m.2) → DistinctKeys (.object members)

/-! ## Strings -/

def hexValue? (c : Char) : Option Nat :=
  if c.isDigit then some (c.toNat - '0'.toNat)
  else if 'a' ≤ c ∧ c ≤ 'f' then some (c.toNat - 'a'.toNat + 10)
  else if 'A' ≤ c ∧ c ≤ 'F' then some (c.toNat - 'A'.toNat + 10)
  else none

/-- The number that four hexadecimal digits stand for, and what follows them. -/
def codeUnit? : List Char → Option (Nat × List Char)
  | a :: b :: c :: d :: rest => do
    let a ← hexValue? a
    let b ← hexValue? b
    let c ← hexValue? c
    let d ← hexValue? d
    some (((a * 16 + b) * 16 + c) * 16 + d, rest)
  | _ => none

/-- The character behind `\u`, which two code units may make up, and what follows it. -/
def unicode? (cs : List Char) : Option (Char × List Char) := do
  let (high, rest) ← codeUnit? cs
  if high < 0xd800 ∨ 0xdfff < high then some (.ofNat high, rest)
  else if high < 0xdc00 then
    match rest with
    | '\\' :: 'u' :: rest =>
      let (low, rest) ← codeUnit? rest
      if 0xdc00 ≤ low ∧ low ≤ 0xdfff then
        some (.ofNat (0x10000 + (high - 0xd800) * 0x400 + (low - 0xdc00)), rest)
      else none
    | _ => none
  else none

/-- The character that an escape behind its backslash stands for, and what follows it. -/
def unescape? : List Char → Option (Char × List Char)
  | '"' :: rest => some ('"', rest)
  | '\\' :: rest => some ('\\', rest)
  | '/' :: rest => some ('/', rest)
  | 'b' :: rest => some ('\x08', rest)
  | 'f' :: rest => some ('\x0c', rest)
  | 'n' :: rest => some ('\n', rest)
  | 'r' :: rest => some ('\r', rest)
  | 't' :: rest => some ('\t', rest)
  | 'u' :: rest => unicode? rest
  | _ => none

theorem codeUnit?_length {cs rest : List Char} {n : Nat} (h : codeUnit? cs = some (n, rest)) :
    rest.length < cs.length := by
  unfold codeUnit? at h
  split at h
  · simp only [Option.bind_eq_bind, Option.bind_eq_some_iff, Option.some.injEq, Prod.mk.injEq] at h
    obtain ⟨_, -, _, -, _, -, _, -, -, rfl⟩ := h
    simp only [List.length_cons]
    omega
  · cases h

theorem unicode?_length {cs rest : List Char} {c : Char} (h : unicode? cs = some (c, rest)) :
    rest.length < cs.length := by
  unfold unicode? at h
  rw [Option.bind_eq_bind, Option.bind_eq_some_iff] at h
  obtain ⟨⟨high, behind⟩, hhigh, h⟩ := h
  have := codeUnit?_length hhigh
  dsimp only at h
  split at h
  · cases h
    assumption
  · split at h
    · split at h
      · rw [Option.bind_eq_some_iff] at h
        obtain ⟨⟨low, last⟩, hlow, h⟩ := h
        have := codeUnit?_length hlow
        dsimp only at h
        split at h
        · rw [Option.some.injEq, Prod.mk.injEq] at h
          obtain ⟨-, rfl⟩ := h
          simp only [List.length_cons] at *
          omega
        · cases h
      · cases h
    · cases h

theorem unescape?_length {cs rest : List Char} {c : Char} (h : unescape? cs = some (c, rest)) :
    rest.length < cs.length := by
  unfold unescape? at h
  split at h
  case h_9 => exact Nat.lt_succ_of_lt (unicode?_length h)
  case h_10 => cases h
  all_goals
    cases h
    exact Nat.lt_succ_self _

/-- The characters up to the closing quote, and what follows it. -/
def string? : List Char → Option (List Char × List Char)
  | [] => none
  | c :: cs =>
    if c = '"' then some ([], cs)
    else if c = '\\' then
      match h : unescape? cs with
      | some (c, rest) =>
        have := unescape?_length h
        (string? rest).map fun (s, rest) => (c :: s, rest)
      | none => none
    else if c.toNat < 0x20 then none
    else (string? cs).map fun (s, rest) => (c :: s, rest)
termination_by cs => cs.length

theorem string?_length {cs rest s : List Char} (h : string? cs = some (s, rest)) :
    rest.length < cs.length := by
  fun_induction string? cs generalizing rest s with
  | case1 => cases h
  | case2 cs =>
    cases h
    exact Nat.lt_succ_self _
  | case3 cs c behind he hlt hq ih =>
    obtain ⟨⟨s', rest'⟩, hs, heq⟩ := Option.map_eq_some_iff.mp h
    cases heq
    exact Nat.lt_succ_of_lt (Nat.lt_trans (ih hs) hlt)
  | case4 cs he => cases h
  | case5 c cs hq hb hlt => cases h
  | case6 c cs hq hb hlt ih =>
    obtain ⟨⟨s', rest'⟩, hs, heq⟩ := Option.map_eq_some_iff.mp h
    cases heq
    exact Nat.lt_succ_of_lt (ih hs)

/-! ## Words -/

def isDigits (cs : List Char) : Bool := !cs.isEmpty && cs.all Char.isDigit

/-- Whether a text is the exponent of a number, or empty. -/
def isExponent : List Char → Bool
  | [] => true
  | c :: cs => (c == 'e' || c == 'E') && isDigits (Numeral.splitSign cs).2

/-- Whether a text is what may follow the whole part of a number. -/
def isNumberEnd : List Char → Bool
  | '.' :: cs => !(cs.takeWhile Char.isDigit).isEmpty && isExponent (cs.dropWhile Char.isDigit)
  | cs => isExponent cs

/-- Whether digits are the whole part of a number: a zero stands first only by itself. -/
def isWhole (ds : List Char) : Bool := ds == ['0'] || !ds.isEmpty && ds.head? != some '0'

def isUnsignedNumber (cs : List Char) : Bool :=
  isWhole (cs.takeWhile Char.isDigit) && isNumberEnd (cs.dropWhile Char.isDigit)

def isNumber : List Char → Bool
  | '-' :: cs => isUnsignedNumber cs
  | cs => isUnsignedNumber cs

/-- The document that is a single word. -/
def word? (word : List Char) : Option Document :=
  if word = ['n', 'u', 'l', 'l'] then some .null
  else if word = ['t', 'r', 'u', 'e'] then some (.boolean true)
  else if word = ['f', 'a', 'l', 's', 'e'] then some (.boolean false)
  else if isNumber word then some (.number word)
  else none

/-! ## Tokens -/

inductive Mark
  | openArray
  | closeArray
  | openObject
  | closeObject
  | colon
  | comma
deriving DecidableEq

def mark? : Char → Option Mark
  | '[' => some .openArray
  | ']' => some .closeArray
  | '{' => some .openObject
  | '}' => some .closeObject
  | ':' => some .colon
  | ',' => some .comma
  | _ => none

inductive Token
  | mark (m : Mark)
  | string (s : String)
  | word (text : List Char)

def isBlank (c : Char) : Bool := c == ' ' || c == '\t' || c == '\n' || c == '\r'

/-- Whether a character is part of a word. -/
def isWordChar (c : Char) : Bool := !isBlank c && (mark? c).isNone && c != '"'

/-- The tokens that make up a text. -/
def tokens? : List Char → Option (List Token)
  | [] => some []
  | c :: cs =>
    if isBlank c then tokens? cs
    else if c = '"' then
      match h : string? cs with
      | some (s, rest) =>
        have := string?_length h
        (tokens? rest).map (.string (.ofList s) :: ·)
      | none => none
    else
      match mark? c with
      | some m => (tokens? cs).map (.mark m :: ·)
      | none =>
        have := (List.dropWhile_suffix isWordChar (l := cs)).length_le
        (tokens? (cs.dropWhile isWordChar)).map (.word (c :: cs.takeWhile isWordChar) :: ·)
termination_by cs => cs.length

/-! ## Structure -/

/-- Where a document is missing: behind some elements or, with its key, behind some members. -/
inductive Gap
  | element (before : List Document)
  | member (before : List (String × Document)) (key : String)

/-- What may come next. -/
inductive Stage
  /-- A document; or, in front of a first element, the closing mark. -/
  | document
  /-- A key behind some members; or, behind none, the closing mark. -/
  | key (members : List (String × Document))
  | colon (members : List (String × Document)) (key : String)
  /-- What follows a document. -/
  | behind (d : Document)

/-- The gaps that what comes next stands in, the innermost one first, and what may come next. -/
structure Reader where
  gaps : List Gap := []
  stage : Stage := .document

namespace Reader

def step : Reader → Token → Option Reader
  | ⟨gaps, .document⟩, .mark .openArray => some ⟨.element [] :: gaps, .document⟩
  | ⟨gaps, .document⟩, .mark .openObject => some ⟨gaps, .key []⟩
  | ⟨gaps, .document⟩, .string s => some ⟨gaps, .behind (.string s)⟩
  | ⟨gaps, .document⟩, .word w => (word? w).map fun d => ⟨gaps, .behind d⟩
  | ⟨.element [] :: gaps, .document⟩, .mark .closeArray => some ⟨gaps, .behind (.array [])⟩
  | ⟨gaps, .key members⟩, .string key => some ⟨gaps, .colon members key⟩
  | ⟨gaps, .key []⟩, .mark .closeObject => some ⟨gaps, .behind (.object [])⟩
  | ⟨gaps, .colon members key⟩, .mark .colon => some ⟨.member members key :: gaps, .document⟩
  | ⟨.element before :: gaps, .behind d⟩, .mark .comma =>
    some ⟨.element (before ++ [d]) :: gaps, .document⟩
  | ⟨.element before :: gaps, .behind d⟩, .mark .closeArray =>
    some ⟨gaps, .behind (.array (before ++ [d]))⟩
  | ⟨.member before key :: gaps, .behind d⟩, .mark .comma =>
    some ⟨gaps, .key (before ++ [(key, d)])⟩
  | ⟨.member before key :: gaps, .behind d⟩, .mark .closeObject =>
    some ⟨gaps, .behind (.object (before ++ [(key, d)]))⟩
  | _, _ => none

/-- The document that is read, if nothing is open around it. -/
def result? : Reader → Option Document
  | ⟨[], .behind d⟩ => some d
  | _ => none

end Reader

/-- The document that a text is. -/
def Document.read (text : String) : Option Document := do
  let tokens ← tokens? text.toList
  let reader ← tokens.foldlM Reader.step {}
  reader.result?

end Json

end ConstLang
