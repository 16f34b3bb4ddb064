/-
How the pretty layout sets values in. To write a value deeper down is to write deeper pieces,
`pieces_deepen`, and that is to set the lines of the value in, `write_pretty`: a line feed is the
layout's, for no string has one. Every piece ends in a mark or a number, so that no line ends in
a space. `toJson_indented` says what pretty texts are made of.
-/
import ConstLang.Proofs.Json.Layouts
import ConstLang.Proofs.Json.Lines
import ConstLang.Proofs.Json.Writer

namespace ConstLang

namespace Json

/-! ## Depth -/

/-- A text with every line but the first one set in by some levels. -/
def indent (k : Nat) (cs : List Char) : List Char :=
  cs.flatMap fun c => if c = '\n' then '\n' :: List.replicate (2 * k) ' ' else [c]

theorem indent_append (k : Nat) (as bs : List Char) :
    indent k (as ++ bs) = indent k as ++ indent k bs := List.flatMap_append

/-- A text on one line stays as it is. -/
theorem indent_of_notMem (k : Nat) {cs : List Char} (h : '\n' ∉ cs) : indent k cs = cs := by
  induction cs with
  | nil => rfl
  | cons c cs ih =>
    obtain ⟨hc, hcs⟩ := not_or.mp (mt List.mem_cons.mpr h)
    rw [indent, List.flatMap_cons, if_neg (Ne.symm hc), ← indent, ih hcs]
    rfl

theorem indent_newline (k depth : Nat) :
    indent k (Layout.pretty.newline depth) = Layout.pretty.newline (depth + k) := by
  have hspaces : '\n' ∉ List.replicate (2 * depth) ' ' := by simp
  rw [Layout.newline, Layout.newline, indent, List.flatMap_cons, ← indent,
    indent_of_notMem k hspaces, if_pos rfl, List.cons_append, List.replicate_append_replicate,
    ← Nat.mul_add, Nat.add_comm k]

/-- A front some levels deeper. -/
def Front.deepen (k : Nat) : Front → Front
  | none => none
  | line depth => line (depth + k)
  | key depth name => key (depth + k) name

def Piece.deepen (k : Nat) (p : Piece) : Piece := { p with front := p.front.deepen k }

mutual

/-- **A value some levels deeper** has its pieces some levels deeper. -/
theorem pieces_deepen (k : Nat) (front : Front) (depth : Nat) : ∀ v : Value,
    pieces (front.deepen k) (depth + k) v = (pieces front depth v).map (Piece.deepen k)
  | .number x => rfl
  | .array [] => rfl
  | .array (v :: vs) => by
    -- The entries stand at `depth + 1 + k` on one side and at `depth + k + 1` on the other.
    have hv := pieces_deepen k (.line (depth + 1)) (depth + 1) v
    have hvs := elementPieces_deepen k (depth + 1) vs
    rw [Nat.add_right_comm] at hv hvs
    simp only [Front.deepen, Nat.add_right_comm depth 1 k] at hv
    simp [pieces, hv, hvs, Piece.deepen, Front.deepen]
  | .struct ⟨[]⟩ => rfl
  | .struct ⟨(name, v) :: fs⟩ => by
    have hv := pieces_deepen k (.key (depth + 1) name) (depth + 1) v
    have hfs := fieldPieces_deepen k (depth + 1) fs
    rw [Nat.add_right_comm] at hv hfs
    simp only [Front.deepen, Nat.add_right_comm depth 1 k] at hv
    simp [pieces, hv, hfs, Piece.deepen, Front.deepen]

theorem elementPieces_deepen (k : Nat) (depth : Nat) : ∀ vs : List Value,
    elementPieces (depth + k) vs = (elementPieces depth vs).map (Piece.deepen k)
  | [] => rfl
  | v :: vs => by
    have hv := pieces_deepen k (.line depth) depth v
    rw [Front.deepen] at hv
    simp [elementPieces, hv, elementPieces_deepen k depth vs, Piece.deepen, Front.deepen]

theorem fieldPieces_deepen (k : Nat) (depth : Nat) : ∀ fs : List (String × Value),
    fieldPieces (depth + k) fs = (fieldPieces depth fs).map (Piece.deepen k)
  | [] => rfl
  | (name, v) :: fs => by
    have hv := pieces_deepen k (.key depth name) depth v
    rw [Front.deepen] at hv
    simp [fieldPieces, hv, fieldPieces_deepen k depth fs, Piece.deepen, Front.deepen]

end

theorem feed_notMem_key (layout : Layout) (name : String) :
    '\n' ∉ writeString name ++ layout.colon := by
  cases layout <;> simp [Layout.colon, feed_notMem_writeString]

theorem indent_front (k : Nat) (front : Front) :
    indent k (front.text .pretty) = (front.deepen k).text .pretty := by
  cases front with
  | none => rfl
  | line depth => exact indent_newline k depth
  | key depth name =>
    rw [Front.text, indent_append, indent_newline,
      indent_of_notMem k (feed_notMem_key .pretty name)]
    rfl

theorem indent_piecesText (k : Nat) (ps : List Piece) :
    indent k (piecesText .pretty ps) = piecesText .pretty (ps.map (Piece.deepen k)) := by
  induction ps with
  | nil => rfl
  | cons p ps ih =>
    rw [piecesText_cons, indent_append, indent_append, indent_front,
      indent_of_notMem k (feed_notMem_core p.core), ih, List.map_cons, piecesText_cons]
    rfl

/-- **To write a value at a depth** is to write it by itself and to set it in. -/
theorem write_pretty (depth : Nat) (v : Value) (rest : List Char) :
    write .pretty depth v rest = indent depth (v.toJson .pretty).toList ++ rest := by
  have hpieces := pieces_deepen depth .none 0 v
  rw [Nat.zero_add] at hpieces
  rw [toList_toJson, indent_piecesText, ← hpieces]
  exact (pieces_text .pretty .none depth v rest).symm

/-! ## Entries -/

/-- An element on its own line, a level in. -/
def elementEntry (v : Value) : List Char :=
  '\n' :: ' ' :: ' ' :: indent 1 (v.toJson .pretty).toList

/-- A field on its own line, a level in. -/
def fieldEntry : String × Value → List Char
  | (name, v) =>
    '\n' :: ' ' :: ' ' :: (writeString name ++ ':' :: ' ' :: indent 1 (v.toJson .pretty).toList)

theorem intercalate_comma (entry : List Char) (entries : List (List Char)) :
    [','].intercalate (entry :: entries) = entry ++ entries.flatMap (',' :: ·) := by
  induction entries generalizing entry with
  | nil => simp
  | cons next entries ih =>
    rw [List.intercalate_cons_cons, ih, List.flatMap_cons]
    simp

theorem writeElements_pretty (vs : List Value) (rest : List Char) :
    writeElements .pretty 1 vs rest = (vs.map elementEntry).flatMap (',' :: ·) ++ rest := by
  induction vs with
  | nil => rfl
  | cons v vs ih =>
    rw [writeElements, write_pretty, ih, List.map_cons, List.flatMap_cons, elementEntry]
    simp [Layout.newline]

theorem writeFields_pretty (fs : List (String × Value)) (rest : List Char) :
    writeFields .pretty 1 fs rest = (fs.map fieldEntry).flatMap (',' :: ·) ++ rest := by
  induction fs with
  | nil => rfl
  | cons f fs ih =>
    obtain ⟨name, v⟩ := f
    rw [writeFields, write_pretty, ih, List.map_cons, List.flatMap_cons, fieldEntry]
    simp [Layout.newline, Layout.colon]

theorem toJson_array (v : Value) (vs : List Value) :
    ((Value.array (v :: vs)).toJson .pretty).toList =
      '[' :: ([','].intercalate ((v :: vs).map elementEntry) ++ ['\n', ']']) := by
  rw [Value.toJson, String.toList_ofList, write, write_pretty, writeElements_pretty,
    List.map_cons, intercalate_comma, elementEntry]
  simp [Layout.newline]

theorem toJson_struct (f : String × Value) (fs : List (String × Value)) :
    ((Value.struct ⟨f :: fs⟩).toJson .pretty).toList =
      '{' :: ([','].intercalate ((f :: fs).map fieldEntry) ++ ['\n', '}']) := by
  obtain ⟨name, v⟩ := f
  rw [Value.toJson, String.toList_ofList, write, write_pretty, writeFields_pretty,
    List.map_cons, intercalate_comma, fieldEntry]
  simp [Layout.newline, Layout.colon]

/-! ## Lines -/

/-- Every line feed of a text stands outside its strings. -/
def FeedsOutside (cs : List Char) : Prop := ∀ s, ('\n', s) ∈ located .outside cs → s = .outside

theorem feedsOutside_of_feed_notMem {cs : List Char} (h : '\n' ∉ cs) : FeedsOutside cs := by
  intro s hs
  have hmem := List.mem_map_of_mem (f := Prod.fst) hs
  rw [map_fst_located] at hmem
  exact absurd hmem h

theorem feedsOutside_of_quote_notMem {cs : List Char} (h : '"' ∉ cs) : FeedsOutside cs := by
  intro s hs
  rw [located_of_notMem h] at hs
  obtain ⟨c, -, heq⟩ := List.mem_map.mp hs
  cases heq
  rfl

theorem feedsOutside_front (layout : Layout) (front : Front) :
    FeedsOutside (front.text layout) := by
  cases front with
  | none => exact feedsOutside_of_feed_notMem List.not_mem_nil
  | line depth => exact feedsOutside_of_quote_notMem (quote_notMem_newline layout depth)
  | key depth name =>
    have hquote := quote_notMem_newline layout depth
    intro s h
    rcases (closed_of_notMem hquote).mem_located_append.mp h with h | h
    · exact feedsOutside_of_quote_notMem hquote s h
    · exact feedsOutside_of_feed_notMem (feed_notMem_key layout name) s h

/-- **A line feed is the layout's**, whatever strings a text has. -/
theorem feedsOutside_piecesText (layout : Layout) (ps : List Piece) :
    FeedsOutside (piecesText layout ps) := by
  intro s h
  obtain ⟨p, -, hfront | hcore⟩ := mem_located_piecesText.mp h
  · exact feedsOutside_front layout p.front s hfront
  · exact feedsOutside_of_feed_notMem (feed_notMem_core p.core) s hcore

/-- No line of a text ends in a space. -/
def Tidy (cs : List Char) : Prop := ∀ line ∈ cs.splitOn '\n', line.getLast? ≠ some ' '

theorem splitOn_feed (cs : List Char) : ('\n' :: cs).splitOn '\n' = [] :: cs.splitOn '\n' := by
  rw [List.splitOn, List.splitOnP_cons_eq_if_modifyHead, if_pos (by rfl)]
  rfl

theorem splitOn_append_of_notMem {as : List Char} (h : '\n' ∉ as) (bs : List Char) :
    (as ++ bs).splitOn '\n' = (bs.splitOn '\n').modifyHead (as ++ ·) := by
  induction as with
  | nil =>
    rw [List.nil_append]
    cases bs.splitOn '\n' <;> rfl
  | cons a as ih =>
    obtain ⟨ha, has⟩ := not_or.mp (mt List.mem_cons.mpr h)
    have hne : ¬ (a == '\n') = true := by simpa using Ne.symm ha
    rw [List.cons_append, List.splitOn, List.splitOnP_cons_eq_if_modifyHead, if_neg hne,
      ← List.splitOn, ih has, List.modifyHead_modifyHead]
    rfl

theorem tidy_feed {cs : List Char} (h : Tidy cs) : Tidy ('\n' :: cs) := by
  rw [Tidy, splitOn_feed]
  exact List.forall_mem_cons.mpr ⟨by simp, h⟩

/-- What goes in front of a tidy text on its first line does not have to end that line. -/
theorem tidy_append {as bs : List Char} (hfeed : '\n' ∉ as) (hlast : as.getLast? ≠ some ' ')
    (h : Tidy bs) : Tidy (as ++ bs) := by
  rw [Tidy, splitOn_append_of_notMem hfeed]
  unfold Tidy at h
  cases hlines : bs.splitOn '\n' with
  | nil => simp
  | cons line lines =>
    -- The line in front goes on with the first line of the rest, which may be empty.
    rw [hlines] at h
    obtain ⟨hline, hlines⟩ := List.forall_mem_cons.mp h
    refine List.forall_mem_cons.mpr ⟨?_, hlines⟩
    rw [List.getLast?_append]
    cases hl : line.getLast? with
    | none => simpa using hlast
    | some c =>
      rw [hl] at hline
      simpa using hline

theorem getLast?_core_ne_space (k : Core) (cs : List Char) :
    (cs ++ k.text).getLast? ≠ some ' ' := by
  have hne : k.text ≠ [] := by
    cases k with
    | mark m => exact List.cons_ne_nil _ _
    | number x => exact writeNumber_ne_nil x
  intro h
  rw [List.getLast?_append, List.getLast?_eq_some_getLast hne, Option.some_or,
    Option.some.injEq] at h
  have hspace : ' ' ∈ k.text := h ▸ List.getLast_mem hne
  have hvisible := neat_core k ' '
  rw [located_of_notMem (quote_notMem_core k)] at hvisible
  exact absurd (hvisible (List.mem_map_of_mem hspace)) (by decide)

/-- **A piece ends its last line in a mark or a number.** -/
theorem tidy_piece_append (p : Piece) {cs : List Char} (h : Tidy cs) :
    Tidy (p.text .pretty ++ cs) := by
  obtain ⟨front, k⟩ := p
  have hcore := feed_notMem_core k
  cases front with
  | none => exact tidy_append hcore (getLast?_core_ne_space k []) h
  | line depth =>
    have hfeed : '\n' ∉ List.replicate (2 * depth) ' ' ++ k.text := by simp [hcore]
    exact tidy_feed (tidy_append hfeed (getLast?_core_ne_space k _) h)
  | key depth name =>
    have hfeed : '\n' ∉ List.replicate (2 * depth) ' ' ++
        (writeString name ++ Layout.pretty.colon) ++ k.text := by
      simp [hcore, feed_notMem_writeString, Layout.colon]
    exact tidy_feed (tidy_append hfeed (getLast?_core_ne_space k _) h)

theorem tidy_piecesText (ps : List Piece) : Tidy (piecesText .pretty ps) := by
  induction ps with
  | nil => simp [Tidy, piecesText_nil]
  | cons p ps ih => exact tidy_piece_append p ih

/-! ## Pretty texts -/

/-- **What pretty texts are made of.** A value at a depth is its own text set in, and the writer
comes back to the depth it stood at. What is in an array or in a struct is its own text a level
in, on lines between the marks; what is empty is on one line. A key is written between quotes, a
quote, a backslash or a control character in it escaped, and it is read again from that. A line feed
is never in a string, and no line ends in a space. -/
theorem toJson_indented :
    (∀ depth v rest,
      write .pretty depth v rest = indent depth (v.toJson .pretty).toList ++ rest) ∧
    (∀ layout v, (Writer.value layout v {}).text = (v.toJson layout).toList) ∧
    (∀ v w, Writer.value .pretty v w =
      ⟨w.text ++ indent w.depth (v.toJson .pretty).toList, w.depth⟩) ∧
    (∀ v vs, ((Value.array (v :: vs)).toJson .pretty).toList =
      '[' :: ([','].intercalate ((v :: vs).map elementEntry) ++ ['\n', ']'])) ∧
    (∀ f fs, ((Value.struct ⟨f :: fs⟩).toJson .pretty).toList =
      '{' :: ([','].intercalate ((f :: fs).map fieldEntry) ++ ['\n', '}'])) ∧
    (Value.array []).toJson .pretty = "[]" ∧
    (Value.struct ⟨[]⟩).toJson .pretty = "\x7b\x7d" ∧
    (∀ key : String, writeString key = '"' :: (key.toList.flatMap escape ++ ['"'])) ∧
    (∀ c : Char, escape c = [c] ↔ c ≠ '"' ∧ c ≠ '\\' ∧ ¬ c.toNat < 0x20) ∧
    (∀ (key : String) rest,
      string? (key.toList.flatMap escape ++ '"' :: rest) = some (key.toList, rest)) ∧
    (∀ v : Value, FeedsOutside (v.toJson .pretty).toList) ∧
    ∀ v : Value, Tidy (v.toJson .pretty).toList := by
  refine ⟨write_pretty, Writer.text_value, ?_, toJson_array, toJson_struct, rfl, rfl, fun _ => rfl,
    fun _ => escape_eq_self_iff, fun key => string?_escaped key.toList, ?_, ?_⟩
  · intro v w
    rw [Writer.value_eq, write_pretty, List.append_nil]
    rfl
  · intro v
    rw [toList_toJson]
    exact feedsOutside_piecesText .pretty _
  · intro v
    rw [toList_toJson]
    exact tidy_piecesText _

end Json

end ConstLang
