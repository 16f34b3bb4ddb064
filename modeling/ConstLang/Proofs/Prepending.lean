/-
Declarations in front of a text. Reading is the same from any place on, but for the places it
reports: `Cursor.stream_shift`. So behind a text of declarations and a line feed another text
has its own tokens, moved down, and the reader of trees starts on them as it starts on any text,
with the declarations as the items it has. `parse_declarations_append`: the whole parses to the
declarations and what the other text parses to, or fails as that does.
-/
import Mathlib
import ConstLang.Proofs.Compilation
import ConstLang.Proofs.Reader.Viability
import ConstLang.Proofs.Relocation

namespace ConstLang

open Position (behind)

/-! ## Moved places -/

/-- The place some lines further down, in the same column. -/
def Position.shift (lines bytes : Nat) (p : Position) : Position :=
  ⟨p.line + lines, p.column, p.offset + bytes⟩

def Span.shift (lines bytes : Nat) (s : Span) : Span :=
  ⟨s.start.shift lines bytes, s.stop.shift lines bytes⟩

def Cursor.shift (lines bytes : Nat) (c : Cursor) : Cursor :=
  ⟨c.rest, c.position.shift lines bytes⟩

section

variable (lines bytes : Nat)

theorem Position.advance_shift (p : Position) (c : Char) :
    (p.shift lines bytes).advance c = (p.advance c).shift lines bytes := by
  unfold advance
  split
  · simp only [shift, Nat.add_right_comm]
  · simp only [shift, Nat.add_right_comm]

/-- **Walking is the same from anywhere.** -/
theorem Position.after_shift (p : Position) (cs : List Char) :
    (p.shift lines bytes).after cs = (p.after cs).shift lines bytes := by
  induction cs generalizing p with
  | nil => rfl
  | cons c cs ih => rw [after_cons, after_cons, advance_shift, ih]

namespace Cursor

theorem skip_shift (c : Cursor) (text : List Char) :
    (c.shift lines bytes).skip text = (c.skip text).shift lines bytes := by
  simp only [skip, shift, Position.after_shift]

theorem span_shift (c : Cursor) (text : List Char) :
    (c.shift lines bytes).span text = (c.span text).shift lines bytes := by
  simp only [span, shift, Span.shift, Position.after_shift]

theorem skipBlanks_shift (c : Cursor) :
    (c.shift lines bytes).skipBlanks = c.skipBlanks.shift lines bytes := skip_shift lines bytes c _

/-- What is read from a moved cursor is what the cursor reads, moved. -/
theorem next_shift (c : Cursor) :
    (c.shift lines bytes).next =
      mapOutcome (SyntaxError.relocate (.shift lines bytes))
        (fun p => (p.1.relocate (.shift lines bytes), p.2.shift lines bytes)) c.next := by
  have hrest : (c.skipBlanks.shift lines bytes).rest = c.skipBlanks.rest := rfl
  rw [next, next, skipBlanks_shift, nextHere, nextHere, hrest]
  split
  · rfl
  · split
    · rw [span_shift, skip_shift]
      rfl
    · rw [span_shift]
      rfl

/-- **A stream is the same from anywhere**, but for its places. -/
theorem stream_shift (c : Cursor) :
    (c.shift lines bytes).stream = c.stream.relocate (.shift lines bytes) := by
  have hnext := next_shift lines bytes
  induction c using Cursor.induction with
  | refused c e h =>
    rw [stream_of_next_error h]
    exact stream_of_next_error (by rw [hnext, h]; rfl)
  | ended c t c' h ht =>
    rw [stream_of_next_end h ht]
    exact stream_of_next_end (by rw [hnext, h]; rfl) ht
  | token c t c' h ht ih =>
    have hs : (c.shift lines bytes).next =
        .ok (t.relocate (.shift lines bytes), c'.shift lines bytes) := by rw [hnext, h]; rfl
    rw [stream_of_next_token h ht, stream_of_next_token hs ht, ih]
    rfl

end Cursor

end

/-! ## Behind a text and a line feed -/

theorem Cursor.stream_congr {c d : Cursor} (h : c.next = d.next) : c.stream = d.stream := by
  cases hd : d.next with
  | error e => rw [stream_of_next_error hd, stream_of_next_error (h.trans hd)]
  | ok p =>
    obtain ⟨t, d'⟩ := p
    by_cases ht : t.kind = .endOfInput
    · rw [stream_of_next_end hd ht, stream_of_next_end (h.trans hd) ht]
    · rw [stream_of_next_token hd ht, stream_of_next_token (h.trans hd) ht]

/-- Blanks in front of a cursor are passed over. -/
theorem Cursor.stream_blanks {blanks rest : List Char} (hb : ∀ c ∈ blanks, isBlank c)
    (p : Position) :
    (⟨blanks ++ rest, p⟩ : Cursor).stream = (⟨rest, p.after blanks⟩ : Cursor).stream := by
  refine stream_congr ?_
  have hskip : (⟨blanks ++ rest, p⟩ : Cursor).skipBlanks =
      (⟨rest, p.after blanks⟩ : Cursor).skipBlanks := by
    simp only [skipBlanks, skip, List.takeWhile_append_of_pos hb, List.length_append,
      Position.after_append, ← List.drop_drop, List.drop_left]
  rw [next, next, hskip]

/-- A piece without the character `c` that goes on in front of `c` ends there. -/
theorem isPrefix_of_isPrefix_append_cons {x as bs : List Char} {c : Char} (hc : c ∉ x)
    (h : x <+: as ++ c :: bs) : x <+: as := by
  rcases List.prefix_or_prefix_of_prefix h (List.prefix_append as (c :: bs)) with hle | ⟨ys, rfl⟩
  · exact hle
  · rw [List.prefix_append_right_inj] at h
    cases ys with
    | nil => simp
    | cons y ys =>
      obtain ⟨rfl, -⟩ := List.cons_prefix_cons.mp h
      exact absurd (List.mem_append_right as List.mem_cons_self) hc

/-- A blank behind a text makes none of its lexemes longer. -/
theorem Lexeme.IsLongest.append_blank {kind : Token.Kind} {x cs : List Char} {c : Char}
    (hc : isBlank c) (h : IsLongest kind x cs) (bs : List Char) :
    IsLongest kind x (cs ++ c :: bs) where
  spells := h.spells
  isPrefix := h.isPrefix.trans (List.prefix_append _ _)
  length_le := by
    intro kind' x' hx' hp'
    refine h.length_le kind' x' hx' (isPrefix_of_isPrefix_append_cons (fun hm => ?_) hp')
    rw [hx'.not_blank c hm] at hc
    cases hc

/-- What is taken apart is taken apart in the same way in front of a blank. -/
theorem Splits.append_blank {before rest before' rest' : List Char} {tokens : List Token} {c : Char}
    (hc : isBlank c) (h : Splits before rest tokens before' rest') (bs : List Char) :
    Splits before (rest ++ c :: bs) tokens before' (rest' ++ c :: bs) := by
  induction h with
  | nil => exact .nil
  | cons hb hx hs ih =>
    have hlongest := hx.append_blank hc bs
    rw [List.append_assoc] at hlongest
    rw [List.append_assoc, List.append_assoc]
    exact .cons hb hlongest ih

/-- The number of line feeds and the number of bytes that a line below a text is moved down by. -/
def Span.below (front : String) : Span → Span :=
  .shift (front.toList.count '\n' + 1) (front.utf8ByteSize + 1)

theorem behind_feed (front : String) :
    behind (front.toList ++ ['\n']) =
      Position.shift (front.toList.count '\n' + 1) (front.utf8ByteSize + 1) {} := by
  have hsize : Char.utf8Size '\n' = 1 := rfl
  simp [behind, completeLines_append_feed, Position.shift, byteLength, byteLength_toList, hsize]

/-- **Behind a text and a line feed**, another text has its own tokens, moved down. -/
theorem ofText_append_feed {front : String} {tokens : List Token} {last : Token}
    (h : tokenize front = .ok (tokens ++ [last])) (text : String) :
    TokenStream.ofText (front ++ "\n" ++ text) =
      ⟨tokens ++ ((TokenStream.ofText text).relocate (.below front)).tokens,
        ((TokenStream.ofText text).relocate (.below front)).ending⟩ := by
  obtain ⟨lexemes, before, blanks, hsplits, hb, htokens⟩ := tokenize_eq_ok_iff_exists_splits.mp h
  obtain rfl := (List.append_inj' htokens rfl).1
  have hfeed : isBlank '\n' := rfl
  have hreads := Cursor.reads_iff_splits.mpr
    ⟨before, _, rfl, hsplits.append_blank hfeed text.toList⟩
  have hblanks : ∀ c ∈ blanks ++ ['\n'], isBlank c :=
    List.forall_mem_append.mpr ⟨hb, List.forall_mem_singleton.mpr hfeed⟩
  have hplace : (behind before).after (blanks ++ ['\n']) = behind (front.toList ++ ['\n']) := by
    have happend := hsplits.append_eq
    rw [List.nil_append] at happend
    rw [Position.after_behind, happend, List.append_assoc]
  have hrest : (⟨blanks ++ '\n' :: text.toList, behind before⟩ : Cursor).stream =
      (TokenStream.ofText text).relocate (.below front) := by
    rw [← List.singleton_append, ← List.append_assoc, Cursor.stream_blanks hblanks, hplace,
      behind_feed]
    exact Cursor.stream_shift _ _ (Cursor.ofText text)
  have hstart : Cursor.ofText (front ++ "\n" ++ text) =
      ⟨front.toList ++ '\n' :: text.toList, behind []⟩ := by
    rw [Cursor.ofText, String.toList_append, String.toList_append, List.append_assoc]
    rfl
  rw [TokenStream.ofText, hstart, hreads.stream_eq, hrest]

/-! ## Reading behind declarations -/

/-- Behind declarations the reader is where it started, with the declarations as its items. -/
theorem run_declarations {text : String} {items : List Tree.Item}
    (hp : Tree.parse text = .ok items) (hd : ∀ item ∈ items, item.IsDeclaration) :
    Reader.run Reader.maxDepth {} (TokenStream.ofText text).tokens = .ok ⟨items.reverse, .item⟩ := by
  obtain ⟨last, -, r, hr, hf⟩ := Tree.ofStream_eq_ok_iff.mp hp
  obtain ⟨hstop, rfl⟩ := Reader.finish_eq_ok_iff.mp hf
  obtain ⟨hv, -⟩ := Reader.run_valid hr (Reader.valid_empty _)
  rw [hr, List.reverse_reverse]
  cases hv with
  | reading hi hs =>
    rcases hstop with rfl | rfl
    · rfl
    · exact absurd hs id
  | @finished items tree hi ht hdepth => exact absurd (hd (.value tree) (by simp)) id

namespace Program

/-- The declarations that items without a main value stand for. -/
theorem exists_declarations {text : String} {items : List Tree.Item}
    (hp : Tree.parse text = .ok items) (hd : ∀ item ∈ items, item.IsDeclaration) :
    ∃ ds : List (Binding Expr), items.mapM Item.ofTree = .ok (ds.map .declaration) := by
  obtain ⟨hder, hleaves, -⟩ := derivation_of_parse hp
  rcases exists_mapM_ofTree hder (hleaves ▸ readable_of_mem_tokens text) with
    ⟨ds, -, hds⟩ | ⟨p, hmain, -, -⟩
  · exact ⟨ds, hds⟩
  · exact absurd hmain (not_hasMain_of_declarations hd)

/-- Declarations in front of items are declared in front of what the items declare. -/
theorem ofItems_append (ds : List (Binding Expr)) (items : List Item) :
    ofItems (ds.map .declaration ++ items) =
      mapOutcome id (fun p => ⟨ds ++ p.declarations, p.main⟩) (ofItems items) := by
  rcases List.eq_nil_or_concat items with rfl | ⟨before, last, rfl⟩
  · rw [List.append_nil, ofItems_declarations]
    rfl
  · rw [List.concat_eq_append, ← List.append_assoc, ofItems, ofItems, List.getLast?_concat,
      List.getLast?_concat, List.dropLast_concat, List.dropLast_concat]
    cases last with
    | declaration binding => rfl
    | value main =>
      dsimp only
      rw [List.mapM_append, mapM_toDeclaration]
      cases before.mapM Item.toDeclaration <;> rfl

theorem ofTrees_append {front : List Tree.Item} {ds : List (Binding Expr)}
    (hf : front.mapM Item.ofTree = .ok (ds.map .declaration)) (items : List Tree.Item) :
    ofTrees (front ++ items) =
      mapOutcome id (fun p => ⟨ds ++ p.declarations, p.main⟩) (ofTrees items) := by
  rw [ofTrees, ofTrees, List.mapM_append, hf]
  cases items.mapM Item.ofTree with
  | error e => rfl
  | ok is => exact ofItems_append ds is

end Program

/-- What is read of a text that stands below declarations. -/
theorem parse_append_feed {front : String} {declared : List Tree.Item}
    (hp : Tree.parse front = .ok declared) (hd : ∀ item ∈ declared, item.IsDeclaration)
    (text : String) :
    Tree.parse (front ++ "\n" ++ text) =
      mapOutcome (SyntaxError.relocate (.below front))
        (fun items => declared ++ items.map (Tree.Item.relocate (.below front)))
        (Tree.parse text) := by
  obtain ⟨-, -, last, hending⟩ := derivation_of_parse hp
  have htokens := (tokenize_eq_ok_iff front _ last).mpr ⟨rfl, hending⟩
  have hread := Reader.read_relocate Reader.maxDepth (.below front) declared.reverse (.ofText text)
  rw [List.reverse_reverse] at hread
  rw [Tree.parse, Tree.parse, ← hread, ofText_append_feed htokens, Tree.ofStream,
    Reader.run_append_of_ok (run_declarations hp hd)]

/-- **A text below declarations.** Where a text stands below declarations, it is read as it is read
alone, with all places moved down: behind the items that are declared its own items follow, or
there is its own error. So what it says as a program, or what is wrong with it, is the same, with
the declarations in front of its own ones. -/
theorem parse_declarations_append {front : String} {declared : List Tree.Item}
    (hp : Tree.parse front = .ok declared) (hd : ∀ item ∈ declared, item.IsDeclaration)
    (text : String) :
    Tree.parse (front ++ "\n" ++ text) =
      mapOutcome (SyntaxError.relocate (.below front))
        (fun items => declared ++ items.map (Tree.Item.relocate (.below front)))
        (Tree.parse text) ∧
    ∃ ds : List (Binding Expr), declared.mapM Program.Item.ofTree = .ok (ds.map .declaration) ∧
      Program.ofText (front ++ "\n" ++ text) =
        mapOutcome (Error.relocate (.below front))
          (fun p => ⟨ds ++ (p.relocate (.below front)).declarations,
            (p.relocate (.below front)).main⟩)
          (Program.ofText text) := by
  have hparse := parse_append_feed hp hd text
  obtain ⟨ds, hds⟩ := Program.exists_declarations hp hd
  refine ⟨hparse, ds, hds, ?_⟩
  rw [Program.ofText, Program.ofText, hparse]
  cases Tree.parse text with
  | error e => rfl
  | ok items =>
    have hprogram := Program.ofTrees_append hds (items.map (Tree.Item.relocate (.below front)))
    rw [Program.ofTrees_relocate] at hprogram
    refine hprogram.trans ?_
    change _ = mapOutcome _ _ (Program.ofTrees items)
    cases Program.ofTrees items <;> rfl

/-- The reference is eight bytes and one line further down than it is alone. -/
theorem parse_reference_below_declaration :
    Tree.parse ("a is .5" ++ "\n" ++ "!(a)") =
      .ok [.declaration ⟨.name, "a", ⟨⟨0, 0, 0⟩, ⟨0, 1, 1⟩⟩⟩ ⟨.isWord, "is", ⟨⟨0, 2, 2⟩, ⟨0, 4, 4⟩⟩⟩
          (.number ⟨.number, ".5", ⟨⟨0, 5, 5⟩, ⟨0, 7, 7⟩⟩⟩),
        .value (.reference ⟨.openReference, "!(", ⟨⟨1, 0, 8⟩, ⟨1, 2, 10⟩⟩⟩
          ⟨.name, "a", ⟨⟨1, 2, 10⟩, ⟨1, 3, 11⟩⟩⟩ ⟨.closeReference, ")", ⟨⟨1, 3, 11⟩, ⟨1, 4, 12⟩⟩⟩)] ∧
    ∃ ds, Program.ofText ("a is .5" ++ "\n" ++ "!(a)") =
      .ok ⟨ds, .reference "a" ⟨⟨1, 2, 10⟩, ⟨1, 3, 11⟩⟩⟩ := by
  have hp : Tree.parse "a is .5" = .ok [.declaration ⟨.name, "a", ⟨⟨0, 0, 0⟩, ⟨0, 1, 1⟩⟩⟩
      ⟨.isWord, "is", ⟨⟨0, 2, 2⟩, ⟨0, 4, 4⟩⟩⟩ (.number ⟨.number, ".5", ⟨⟨0, 5, 5⟩, ⟨0, 7, 7⟩⟩⟩)] := by
    cbv
  have hd : ∀ item ∈ [Tree.Item.declaration ⟨.name, "a", ⟨⟨0, 0, 0⟩, ⟨0, 1, 1⟩⟩⟩
      ⟨.isWord, "is", ⟨⟨0, 2, 2⟩, ⟨0, 4, 4⟩⟩⟩ (.number ⟨.number, ".5", ⟨⟨0, 5, 5⟩, ⟨0, 7, 7⟩⟩⟩)],
      item.IsDeclaration := List.forall_mem_singleton.mpr trivial
  have halone : Tree.parse "!(a)" = .ok [.value (.reference
      ⟨.openReference, "!(", ⟨⟨0, 0, 0⟩, ⟨0, 2, 2⟩⟩⟩ ⟨.name, "a", ⟨⟨0, 2, 2⟩, ⟨0, 3, 3⟩⟩⟩
      ⟨.closeReference, ")", ⟨⟨0, 3, 3⟩, ⟨0, 4, 4⟩⟩⟩)] := by cbv
  have hprogram : Program.ofText "!(a)" = .ok ⟨[], .reference "a" ⟨⟨0, 2, 2⟩, ⟨0, 3, 3⟩⟩⟩ := by
    rw [Program.ofText, halone]
    rfl
  have hbelow : Span.below "a is .5" = .shift 1 8 := by
    have hcount : "a is .5".toList.count '\n' = 0 := by cbv
    have hsize : "a is .5".utf8ByteSize = 7 := by cbv
    rw [Span.below, hcount, hsize]
  obtain ⟨hitems, ds, -, hds⟩ := parse_declarations_append hp hd "!(a)"
  rw [halone, hbelow] at hitems
  rw [hprogram, hbelow] at hds
  exact ⟨hitems, ds ++ [], hds⟩

end ConstLang
