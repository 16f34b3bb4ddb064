/-
Places in a text. Lines and columns count from zero; a column and an offset count the bytes
that the characters before it take in UTF-8, and only a line feed starts a line.
`Position.after_append`: a place is reached piece by piece.
-/

namespace ConstLang

/-- The number of bytes that a run of characters takes in UTF-8. -/
def byteLength : List Char → Nat
  | [] => 0
  | c :: cs => c.utf8Size + byteLength cs

@[simp] theorem byteLength_append (as bs : List Char) :
    byteLength (as ++ bs) = byteLength as + byteLength bs := by
  induction as with
  | nil => simp [byteLength]
  | cons c cs ih => simp [byteLength, ih, Nat.add_assoc]

structure Position where
  line : Nat := 0
  /-- Bytes since the start of the line. -/
  column : Nat := 0
  /-- Bytes since the start of the text. -/
  offset : Nat := 0
deriving DecidableEq

namespace Position

/-- The place one character further. -/
def advance (p : Position) (c : Char) : Position :=
  if c = '\n' then ⟨p.line + 1, 0, p.offset + 1⟩
  else ⟨p.line, p.column + c.utf8Size, p.offset + c.utf8Size⟩

/-- The place behind a run of characters that starts at `p`. -/
def after (p : Position) (cs : List Char) : Position := cs.foldl advance p

@[simp] theorem after_nil (p : Position) : p.after [] = p := rfl

@[simp] theorem after_cons (p : Position) (c : Char) (cs : List Char) :
    p.after (c :: cs) = (p.advance c).after cs := rfl

theorem after_append (p : Position) (as bs : List Char) :
    p.after (as ++ bs) = (p.after as).after bs := List.foldl_append

theorem offset_advance (p : Position) (c : Char) :
    (p.advance c).offset = p.offset + c.utf8Size := by
  unfold advance
  split
  · next h => subst h; rfl
  · rfl

theorem offset_after (p : Position) (cs : List Char) :
    (p.after cs).offset = p.offset + byteLength cs := by
  induction cs generalizing p with
  | nil => rfl
  | cons c cs ih => simp [ih, offset_advance, byteLength, Nat.add_assoc]

end Position

/-- The stretch of a text from `start` up to, and not including, `stop`. -/
structure Span where
  start : Position := {}
  stop : Position := {}
deriving DecidableEq

end ConstLang
