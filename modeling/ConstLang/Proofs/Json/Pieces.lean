/-
A JSON text as a list of pieces. A piece is a mark or a number with what the layout puts in
front of it, so that it ends in what every layout has: a key and its colon are in front of
the value. `pieces_text` says that the text of a value is the texts of its pieces; the layout
and the depth then only matter piece by piece, and what each piece has, such as that it has no
line feed, all of the text has.
-/
import ConstLang.Json
import ConstLang.Proofs.Json.Document

namespace ConstLang

namespace Json

/-- The character of a mark. -/
def Mark.char : Mark → Char
  | openArray => '['
  | closeArray => ']'
  | openObject => '{'
  | closeObject => '}'
  | colon => ':'
  | comma => ','

/-- What stands in front of a mark or a number. -/
inductive Front
  | none
  /-- The start of a line at a depth. -/
  | line (depth : Nat)
  /-- The start of a line, with a key on it. -/
  | key (depth : Nat) (name : String)

def Front.text (layout : Layout) : Front → List Char
  | none => []
  | line depth => layout.newline depth
  | key depth name => layout.newline depth ++ (writeString name ++ layout.colon)

inductive Core
  | mark (m : Mark)
  | number (x : Binary64)

def Core.text : Core → List Char
  | mark m => [m.char]
  | number x => writeNumber x

structure Piece where
  front : Front := .none
  core : Core

def Piece.text (layout : Layout) (p : Piece) : List Char := p.front.text layout ++ p.core.text

mutual

/-- The pieces of a value that stands at a depth, with a front before the first one. -/
def pieces (front : Front) (depth : Nat) : Value → List Piece
  | .number x => [⟨front, .number x⟩]
  | .array [] => [⟨front, .mark .openArray⟩, ⟨.none, .mark .closeArray⟩]
  | .array (v :: vs) =>
    ⟨front, .mark .openArray⟩ :: (pieces (.line (depth + 1)) (depth + 1) v ++
      (elementPieces (depth + 1) vs ++ [⟨.line depth, .mark .closeArray⟩]))
  | .struct ⟨[]⟩ => [⟨front, .mark .openObject⟩, ⟨.none, .mark .closeObject⟩]
  | .struct ⟨(name, v) :: fs⟩ =>
    ⟨front, .mark .openObject⟩ :: (pieces (.key (depth + 1) name) (depth + 1) v ++
      (fieldPieces (depth + 1) fs ++ [⟨.line depth, .mark .closeObject⟩]))

/-- The pieces of the elements after the first one. -/
def elementPieces (depth : Nat) : List Value → List Piece
  | [] => []
  | v :: vs => ⟨.none, .mark .comma⟩ :: (pieces (.line depth) depth v ++ elementPieces depth vs)

/-- The pieces of the fields after the first one. -/
def fieldPieces (depth : Nat) : List (String × Value) → List Piece
  | [] => []
  | (name, v) :: fs =>
    ⟨.none, .mark .comma⟩ :: (pieces (.key depth name) depth v ++ fieldPieces depth fs)

end

/-! ## The text of a list of pieces -/

/-- The texts of some pieces, one behind the other. -/
def piecesText (layout : Layout) (ps : List Piece) : List Char := ps.flatMap (Piece.text layout)

theorem piecesText_nil (layout : Layout) : piecesText layout [] = [] := rfl

@[simp]
theorem piecesText_cons (layout : Layout) (p : Piece) (ps : List Piece) :
    piecesText layout (p :: ps) = p.front.text layout ++ (p.core.text ++ piecesText layout ps) := by
  simp [piecesText, Piece.text]

@[simp]
theorem piecesText_append (layout : Layout) (ps qs : List Piece) :
    piecesText layout (ps ++ qs) = piecesText layout ps ++ piecesText layout qs :=
  List.flatMap_append

mutual

theorem pieces_text (layout : Layout) (front : Front) (depth : Nat) :
    ∀ (v : Value) (rest : List Char),
      piecesText layout (pieces front depth v) ++ rest =
        front.text layout ++ write layout depth v rest
  | .number x, rest => by simp [pieces, write, Core.text, piecesText_nil]
  | .array [], rest => by simp [pieces, write, Core.text, Front.text, Mark.char, piecesText_nil]
  | .array (v :: vs), rest => by
    simp only [pieces, piecesText_cons, piecesText_append, List.append_assoc]
    rw [pieces_text layout _ _ v, elementPieces_text layout _ vs]
    simp [write, Core.text, Front.text, Mark.char, piecesText_nil]
  | .struct ⟨[]⟩, rest => by simp [pieces, write, Core.text, Front.text, Mark.char, piecesText_nil]
  | .struct ⟨(name, v) :: fs⟩, rest => by
    simp only [pieces, piecesText_cons, piecesText_append, List.append_assoc]
    rw [pieces_text layout _ _ v, fieldPieces_text layout _ fs]
    simp [write, Core.text, Front.text, Mark.char, piecesText_nil]

theorem elementPieces_text (layout : Layout) (depth : Nat) :
    ∀ (vs : List Value) (rest : List Char),
      piecesText layout (elementPieces depth vs) ++ rest = writeElements layout depth vs rest
  | [], rest => rfl
  | v :: vs, rest => by
    simp only [elementPieces, piecesText_cons, piecesText_append, List.append_assoc]
    rw [pieces_text layout _ _ v, elementPieces_text layout _ vs]
    rfl

theorem fieldPieces_text (layout : Layout) (depth : Nat) :
    ∀ (fs : List (String × Value)) (rest : List Char),
      piecesText layout (fieldPieces depth fs) ++ rest = writeFields layout depth fs rest
  | [], rest => rfl
  | (name, v) :: fs, rest => by
    simp only [fieldPieces, piecesText_cons, piecesText_append, List.append_assoc]
    rw [pieces_text layout _ _ v, fieldPieces_text layout _ fs]
    simp [writeFields, Core.text, Front.text, Mark.char]

end

/-- **The text of a value is the texts of its pieces.** -/
theorem toList_toJson (layout : Layout) (v : Value) :
    (v.toJson layout).toList = piecesText layout (pieces .none 0 v) := by
  have h := pieces_text layout .none 0 v []
  rw [List.append_nil] at h
  rw [Value.toJson, String.toList_ofList, h]
  rfl

end Json

end ConstLang
