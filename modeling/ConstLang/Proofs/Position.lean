/-
Places by counting. `Position.behind` is the place behind a run of characters as the line feeds
and the bytes in the run say, without walking through it; `after_behind`: walking on from there
leads to the place behind the longer run. `Span.Shows` says of a span that a piece of a text
stands exactly there.
-/
import ConstLang.Position

namespace ConstLang

/-- A run of characters up to its last line feed, which it includes: the lines that are over. -/
def completeLines (cs : List Char) : List Char := (cs.reverse.dropWhile (· ≠ '\n')).reverse

theorem completeLines_isPrefix (cs : List Char) : completeLines cs <+: cs := by
  rw [completeLines, ← List.reverse_suffix, List.reverse_reverse]
  exact List.dropWhile_suffix _

theorem completeLines_append_feed (cs : List Char) :
    completeLines (cs ++ ['\n']) = cs ++ ['\n'] := by
  rw [completeLines, List.reverse_append, List.reverse_singleton, List.singleton_append,
    List.dropWhile_cons_of_neg (by simp), List.reverse_cons, List.reverse_reverse]

theorem completeLines_append_of_ne (cs : List Char) {c : Char} (hc : c ≠ '\n') :
    completeLines (cs ++ [c]) = completeLines cs := by
  rw [completeLines, List.reverse_append, List.reverse_singleton, List.singleton_append,
    List.dropWhile_cons_of_pos (by simp [hc]), completeLines]

/-- What is behind the last line feed of a run: the line that is not over. -/
def openLine (cs : List Char) : List Char := (cs.reverse.takeWhile (· ≠ '\n')).reverse

theorem completeLines_append_openLine (cs : List Char) :
    completeLines cs ++ openLine cs = cs := by
  rw [completeLines, openLine, ← List.reverse_append, List.takeWhile_append_dropWhile,
    List.reverse_reverse]

theorem feed_notMem_openLine (cs : List Char) : '\n' ∉ openLine cs := by
  intro hm
  have hall := List.all_eq_true.mp (List.all_takeWhile (p := (· ≠ '\n')) (l := cs.reverse))
  simpa using hall _ (List.mem_reverse.mp hm)

theorem ne_feed_of_notMem {cs : List Char} (h : '\n' ∉ cs) : ∀ c ∈ cs, decide (c ≠ '\n') = true :=
  fun _ hc => decide_eq_true fun he => h (he ▸ hc)

theorem takeWhile_append_of_notMem {cs : List Char} (h : '\n' ∉ cs) (rest : List Char) :
    (cs ++ rest).takeWhile (· ≠ '\n') = cs ++ rest.takeWhile (· ≠ '\n') :=
  List.takeWhile_append_of_pos (ne_feed_of_notMem h)

theorem openLine_append_of_notMem (as : List Char) {bs : List Char} (h : '\n' ∉ bs) :
    openLine (as ++ bs) = openLine as ++ bs := by
  rw [openLine, List.reverse_append, takeWhile_append_of_notMem (mt List.mem_reverse.mp h),
    List.reverse_append, List.reverse_reverse, openLine]

theorem openLine_of_notMem {cs : List Char} (h : '\n' ∉ cs) : openLine cs = cs :=
  openLine_append_of_notMem [] h

theorem openLine_append_feed (as bs : List Char) : openLine (as ++ '\n' :: bs) = openLine bs := by
  have hreverse : (as ++ '\n' :: bs).reverse = bs.reverse ++ '\n' :: as.reverse := by simp
  rw [openLine, openLine, hreverse, List.takeWhile_append]
  split
  · next hlength =>
    have htake := (List.takeWhile_sublist _).eq_of_length hlength
    rw [htake, List.takeWhile_cons_of_neg (by simp), List.append_nil]
  · rfl

theorem byteLength_le_of_isPrefix {as bs : List Char} (h : as <+: bs) :
    byteLength as ≤ byteLength bs := by
  obtain ⟨rest, rfl⟩ := h
  rw [byteLength_append]
  omega

theorem byteLength_eq_length {cs : List Char} (h : ∀ c ∈ cs, c.toNat < 128) :
    byteLength cs = cs.length := by
  induction cs with
  | nil => rfl
  | cons c cs ih =>
    obtain ⟨hc, hcs⟩ := List.forall_mem_cons.mp h
    have hsize : c.utf8Size = 1 := by
      rw [Char.utf8Size_eq_one_iff, UInt32.le_iff_toNat_le]
      exact Nat.le_of_lt_succ hc
    rw [byteLength, hsize, ih hcs, List.length_cons, Nat.add_comm]

theorem byteLength_eq_utf8ByteSize (cs : List Char) :
    byteLength cs = (String.ofList cs).utf8ByteSize := by
  induction cs with
  | nil => rfl
  | cons c cs ih =>
    rw [String.ofList_cons, String.utf8ByteSize_append, String.utf8ByteSize_singleton, ← ih,
      byteLength]

theorem byteLength_toList (s : String) : byteLength s.toList = s.utf8ByteSize := by
  rw [byteLength_eq_utf8ByteSize, String.ofList_toList]

namespace Position

/-- The place behind a run of characters at the start of a text: its line feeds are counted, and
the bytes since the last one. -/
def behind (cs : List Char) : Position where
  line := cs.count '\n'
  column := byteLength cs - byteLength (completeLines cs)
  offset := byteLength cs

@[simp] theorem line_behind (cs : List Char) : (behind cs).line = cs.count '\n' := rfl

@[simp] theorem offset_behind (cs : List Char) : (behind cs).offset = byteLength cs := rfl

theorem column_behind (cs : List Char) : (behind cs).column = byteLength (openLine cs) := by
  have happend := congrArg byteLength (completeLines_append_openLine cs)
  rw [byteLength_append] at happend
  simp only [behind]
  omega

theorem advance_behind (cs : List Char) (c : Char) :
    (behind cs).advance c = behind (cs ++ [c]) := by
  by_cases hc : c = '\n'
  · subst hc
    have hsize : Char.utf8Size '\n' = 1 := rfl
    simp [advance, behind, completeLines_append_feed, byteLength, hsize]
  · have hle := byteLength_le_of_isPrefix (completeLines_isPrefix cs)
    have hcount : [c].count '\n' = 0 := List.count_eq_zero_of_not_mem (by simp [Ne.symm hc])
    simp only [advance, hc, if_false, behind, completeLines_append_of_ne _ hc, byteLength_append,
      byteLength, List.count_append, hcount, Position.mk.injEq]
    omega

/-- **Walking is counting.** -/
theorem after_behind (as bs : List Char) : (behind as).after bs = behind (as ++ bs) := by
  induction bs generalizing as with
  | nil => simp
  | cons c cs ih => rw [after_cons, advance_behind, ih, List.append_assoc, List.singleton_append]

/-- A run of characters on one line takes up its bytes. -/
theorem behind_append_of_notMem (as : List Char) {bs : List Char} (h : '\n' ∉ bs) :
    behind (as ++ bs) = ⟨(behind as).line, (behind as).column + byteLength bs,
      (behind as).offset + byteLength bs⟩ := by
  have hcolumn : (behind (as ++ bs)).column = (behind as).column + byteLength bs := by
    rw [column_behind, column_behind, openLine_append_of_notMem as h, byteLength_append]
  have hline : (behind (as ++ bs)).line = (behind as).line := by
    simp [List.count_eq_zero_of_not_mem h]
  rw [← hcolumn, ← hline, offset_behind, ← byteLength_append]
  rfl

end Position

/-- The span is where the piece stands in the text: on character boundaries, on one line, with
every place given by what stands in front of it. -/
structure Span.Shows (text : String) (span : Span) (piece : String) : Prop where
  exists_split : ∃ before rest, text.toList = before ++ (piece.toList ++ rest) ∧
    span.start = .behind before ∧ span.stop = .behind (before ++ piece.toList)
  line : span.start.line = span.stop.line
  start_le : span.start.offset ≤ span.stop.offset
  stop_le : span.stop.offset ≤ text.utf8ByteSize

/-- A piece without a line feed is shown by the places in front of it and behind it. -/
theorem Span.Shows.of_split {text piece : String} {before rest : List Char}
    (h : text.toList = before ++ (piece.toList ++ rest)) (hf : '\n' ∉ piece.toList) :
    Span.Shows text ⟨.behind before, .behind (before ++ piece.toList)⟩ piece where
  exists_split := ⟨before, rest, h, rfl, rfl⟩
  line := by simp [List.count_eq_zero_of_not_mem hf]
  start_le := by simp
  stop_le := by
    rw [← byteLength_toList, h, ← List.append_assoc, byteLength_append (before ++ piece.toList)]
    exact Nat.le_add_right _ _

end ConstLang
