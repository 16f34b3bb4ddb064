/-
What a report shows of a text. The lexer counts line feeds, and a report splits the text into
lines; `Line.nth_append`: both come to the same line. `Line.exists_ends_first` says what is left
of a line, all but its ending, and an `Excerpt` that points at a piece has the piece right above
the mark. `report_pointsAt`: every report on an error that has a place does, and the command prints
it and nothing else.
-/
import ConstLang.Proofs.Command
import ConstLang.Proofs.Places

namespace ConstLang

open Position (behind)

namespace Line

/-- What follows a line of a text, its ending included: a carriage return in front of the line
feed is not of the line, and no other one is of the ending. -/
inductive Ends (line : List Char) : List Char → Prop
  | feed {below : List Char} (h : line.getLast? ≠ some '\r') : Ends line ('\n' :: below)
  | returnFeed {below : List Char} : Ends line ('\r' :: '\n' :: below)
  | last : Ends line []

theorem first_of_notMem {cs : List Char} (h : '\n' ∉ cs) : first cs = cs := by
  have htake := takeWhile_append_of_notMem h []
  rw [List.append_nil, List.takeWhile_nil, List.append_nil] at htake
  simp only [first, htake, Nat.lt_irrefl, if_false]

theorem first_append_feed {line : List Char} (h : '\n' ∉ line) (below : List Char) :
    first (line ++ '\n' :: below) = dropReturn line := by
  have htake := takeWhile_append_of_notMem h ('\n' :: below)
  rw [List.takeWhile_cons_of_neg (by simp), List.append_nil] at htake
  have hlength : line.length < (line ++ '\n' :: below).length := by simp
  simp only [first, htake, hlength, if_true]

theorem rest_append_feed {line : List Char} (h : '\n' ∉ line) (below : List Char) :
    rest (line ++ '\n' :: below) = below := by
  rw [rest, List.dropWhile_append_of_pos (ne_feed_of_notMem h),
    List.dropWhile_cons_of_neg (by simp)]
  rfl

/-- The first line of a text is all that stands in front of an ending. -/
theorem exists_ends_first (cs : List Char) :
    ∃ rest, cs = first cs ++ rest ∧ '\n' ∉ first cs ∧ Ends (first cs) rest := by
  by_cases hm : '\n' ∈ cs
  · obtain ⟨line, below, rfl, hline⟩ := List.eq_append_cons_of_mem hm
    rw [first_append_feed hline, dropReturn]
    split
    · next hreturn =>
      obtain ⟨line, rfl⟩ := List.getLast?_eq_some_iff.mp hreturn
      rw [List.dropLast_concat]
      exact ⟨'\r' :: '\n' :: below, by simp, fun h => hline (List.mem_append_left _ h), .returnFeed⟩
    · next hreturn => exact ⟨_, rfl, hline, .feed hreturn⟩
  · rw [first_of_notMem hm]
    exact ⟨[], by simp, hm, .last⟩

/-- **Counting line feeds leads to the line** on which a place is, whatever stands behind it. -/
theorem nth_append (front cs : List Char) :
    nth (front.count '\n') (front ++ cs) = first (openLine front ++ cs) := by
  generalize hn : front.count '\n' = n
  induction n generalizing front with
  | zero => rw [openLine_of_notMem (List.count_eq_zero.mp hn), nth]
  | succ n ih =>
    have hm : '\n' ∈ front := List.count_pos_iff.mp (by omega)
    obtain ⟨line, front, rfl, hline⟩ := List.eq_append_cons_of_mem hm
    have hcount : front.count '\n' = n := by
      simpa [List.count_eq_zero_of_not_mem hline] using hn
    rw [nth, List.append_assoc, List.cons_append, rest_append_feed hline, ih front hcount,
      openLine_append_feed]

/-- Up to its line feed an ending has a carriage return at most. -/
theorem Ends.eq_of_append {line tail back : List Char} (h : Ends line (tail ++ back))
    (htail : '\n' ∉ tail) : tail = [] ∨ tail = ['\r'] ∧ back ≠ [] := by
  generalize hrest : tail ++ back = rest at h
  match tail with
  | [] => exact .inl rfl
  | [c] =>
    cases h <;> cases hrest
    case feed => exact absurd List.mem_cons_self htail
    case returnFeed => exact .inr ⟨rfl, List.cons_ne_nil _ _⟩
  | c :: d :: tail =>
    cases h <;> cases hrest
    case feed => exact absurd List.mem_cons_self htail
    case returnFeed => exact absurd (List.mem_cons_of_mem _ List.mem_cons_self) htail

/-- The line on which a piece without blanks starts has all of the piece: no ending starts within
it, and an ending right behind it takes no character of it. -/
theorem isPrefix_first {lead x back : List Char} (hlead : '\n' ∉ lead)
    (hx : ∀ c ∈ x, isBlank c = false) (hback : x = [] → back = []) :
    lead ++ x <+: first (lead ++ (x ++ back)) := by
  obtain ⟨rest, hcs, -, hends⟩ := exists_ends_first (lead ++ (x ++ back))
  generalize first (lead ++ (x ++ back)) = line at hcs hends ⊢
  have hfeed : '\n' ∉ lead ++ x :=
    fun hm => (List.mem_append.mp hm).elim hlead (feed_notMem_of_not_blank hx)
  rw [← List.append_assoc] at hcs
  rcases List.append_eq_append_iff.mp hcs with ⟨trail, rfl, -⟩ | ⟨tail, hline, rfl⟩
  · exact List.prefix_append _ _
  · -- What is left of the piece behind the line would be the start of the ending.
    have htail : '\n' ∉ tail := fun hm => hfeed (hline ▸ List.mem_append_right _ hm)
    rcases hends.eq_of_append htail with rfl | ⟨rfl, hne⟩
    · rw [hline, List.append_nil]
    · have hnil : x ≠ [] := fun h => hne (hback h)
      have hlast : x.getLast hnil = '\r' := by
        rw [← List.getLast_append_of_right_ne_nil lead x hnil]
        simp [hline]
      have hblank := hx _ (List.getLast_mem hnil)
      rw [hlast] at hblank
      exact absurd hblank (by decide)

end Line

/-- Columns are characters where only ASCII is in front. -/
theorem Stands.column_eq {text : String} {front x back : List Char} (h : Stands text front x back) :
    (behind front).column = (openLine front).length := by
  rw [Position.column_behind]
  refine byteLength_eq_length fun c hc => h.toNat_lt c ?_
  rw [← completeLines_append_openLine front]
  exact List.mem_append_right _ hc

namespace Excerpt

/-- An excerpt of a text that points at the piece which stands behind `front`. -/
structure PointsAt (x : Excerpt) (text front piece : List Char) : Prop where
  /-- Lines are counted from one. -/
  number : x.number = front.count '\n' + 1
  /-- The line is whole, and only its ending is left out. -/
  line : ∃ rest, text = completeLines front ++ (x.line ++ rest) ∧ '\n' ∉ x.line ∧
    Line.Ends x.line rest
  /-- The piece is on the line, behind what is on it of `front`. -/
  exists_trail : ∃ trail, x.line = openLine front ++ (piece ++ trail)
  /-- As many characters are in front of the mark, which has one for each byte of the piece, and
  one if there is nothing. -/
  underline : x.underline = List.replicate (openLine front).length ' ' ++
    '^' :: List.replicate (byteLength piece - 1) '_'

/-- What is printed are the number of the line, the line and the mark, each on a line. -/
theorem PointsAt.text_eq {x : Excerpt} {text front piece : List Char}
    (h : x.PointsAt text front piece) :
    x.text = "  --> line " ++ (front.count '\n' + 1).repr ++ ":\n" ++
      String.ofList x.line ++ "\n" ++
      String.ofList (List.replicate (openLine front).length ' ' ++
        '^' :: List.replicate (byteLength piece - 1) '_') ++ "\n" := by
  rw [← h.number, ← h.underline]
  rfl

theorem width_of_notMem (front : List Char) {x : List Char} (h : '\n' ∉ x) :
    width ⟨behind front, behind (front ++ x)⟩ = max 1 (byteLength x) := by
  have hcolumn : (behind (front ++ x)).column = (behind front).column + byteLength x := by
    simp [Position.column_behind, openLine_append_of_notMem front h]
  have hline : (behind (front ++ x)).line = (behind front).line := by
    simp [List.count_eq_zero_of_not_mem h]
  simp only [width, hcolumn, hline, true_and]
  split <;> omega

theorem ofSpan_pointsAt {text : String} {front x back : List Char} (h : Stands text front x back) :
    (ofSpan text.toList ⟨behind front, behind (front ++ x)⟩).PointsAt text.toList front x := by
  have hfeed := feed_notMem_of_not_blank h.not_blank
  have hopen := feed_notMem_openLine front
  have hline : (ofSpan text.toList ⟨behind front, behind (front ++ x)⟩).line =
      Line.first (openLine front ++ (x ++ back)) := by
    rw [ofSpan, Position.line_behind, h.append_eq, Line.nth_append]
  constructor
  case number => rfl
  case line =>
    obtain ⟨rest, hcs, hfirst⟩ := Line.exists_ends_first (openLine front ++ (x ++ back))
    refine ⟨rest, ?_, hline ▸ hfirst⟩
    rw [hline, ← hcs, ← List.append_assoc, completeLines_append_openLine, h.append_eq]
  case exists_trail =>
    obtain ⟨trail, htrail⟩ := Line.isPrefix_first hopen h.not_blank h.back_eq
    exact ⟨trail, by rw [hline, ← htrail, List.append_assoc]⟩
  case underline =>
    have hwidth : max 1 (byteLength x) - 1 = byteLength x - 1 := by omega
    rw [ofSpan, width_of_notMem front hfeed, hwidth, h.column_eq]

/-- Behind a line feed at the end of a text there is a line, with nothing on it. -/
example : Excerpt.ofSpan "x is\n".toList ⟨⟨1, 0, 5⟩, ⟨1, 0, 5⟩⟩ = ⟨2, [], ['^']⟩ := by decide

/-- The bytes of a piece are the bytes of the line from its column on. -/
theorem extract_toUTF8 (lead piece trail : List Char) :
    (String.ofList (lead ++ (piece ++ trail))).toUTF8.extract (byteLength lead)
      (byteLength lead + byteLength piece) = (String.ofList piece).toUTF8 := by
  have hsize (cs : List Char) : (String.ofList cs).toByteArray.size = byteLength cs := by
    rw [String.size_toByteArray, byteLength_eq_utf8ByteSize]
  simp only [String.toUTF8_eq_toByteArray, String.ofList_append, String.toByteArray_append]
  rw [← ByteArray.append_assoc, ByteArray.extract_append, ← hsize, ← hsize,
    ByteArray.extract_append_eq_right rfl rfl, ByteArray.size_append, Nat.sub_self,
    Nat.sub_self_add, ByteArray.extract_same, ByteArray.append_empty]

end Excerpt

/-- **A report on an error with a place points at it**, and it is what the command prints. The text
in front of the place is ASCII, so that the column, which counts bytes, is the number of characters
in front of the piece on its line and of blanks in front of the mark. From the column on, the line
has the bytes of the piece. And the columns marked are those of the piece and at least one: no
difference that is taken of them, or of their number and one, is negative. -/
theorem report_pointsAt {options : Options} {text : String} {e : Error} {span : Span}
    (h : compile options text = .error e) (hspan : e.span? = some span) :
    ∃ front back excerpt,
      text.toList = front ++ (e.subject.toList ++ back) ∧ (e.subject = "" → back = []) ∧
      (∀ c ∈ front, c.toNat < 128) ∧
      (Excerpt.ofSpan text.toList span).PointsAt text.toList front e.subject.toList ∧
      excerpt = "  --> line " ++ (front.count '\n' + 1).repr ++ ":\n" ++
        String.ofList (Excerpt.ofSpan text.toList span).line ++ "\n" ++
        String.ofList (List.replicate (openLine front).length ' ' ++
          '^' :: List.replicate (e.subject.utf8ByteSize - 1) '_') ++ "\n" ∧
      ((∃ fault, e = .malformed fault) →
        e.report text = "Syntax error:\n" ++ excerpt ++ e.message ++ "\n") ∧
      ((∀ fault, e ≠ .malformed fault) →
        e.report text = "Semantic error: " ++ e.message ++ "\n" ++ excerpt) ∧
      (∀ {σ : Type} (files : FileSystem σ) (s : σ) arguments job bytes,
        Request.ofArguments arguments = .ok (.compile job) → job.strict = options.strict →
        files.read s job.input = .ok bytes → String.fromUTF8? bytes = some text →
        (Command.perform files.access arguments).run s =
          ({ exitCode := 1, stdout := "", stderr := e.report text }, s)) ∧
      span.start.offset = byteLength front ∧ span.start.column = (openLine front).length ∧
      (String.ofList (Excerpt.ofSpan text.toList span).line).toUTF8.extract span.start.column
        (span.start.column + e.subject.utf8ByteSize) = e.subject.toUTF8 ∧
      span.start.line = span.stop.line ∧
      span.start.column + e.subject.utf8ByteSize = span.stop.column ∧
      Excerpt.width span = max 1 e.subject.utf8ByteSize := by
  obtain ⟨front, x, back, hstands, hsubject, rfl⟩ := (met_of_compile_error h hspan).exists_stands
  have hfeed := feed_notMem_of_not_blank hstands.not_blank
  have hpoints := Excerpt.ofSpan_pointsAt hstands
  obtain ⟨trail, hline⟩ := hpoints.exists_trail
  have htext := hpoints.text_eq
  rw [hsubject, String.toList_ofList, ← byteLength_eq_utf8ByteSize]
  refine ⟨front, back, _, hstands.append_eq, ?back, hstands.toNat_lt, hpoints, rfl, ?malformed,
    ?later, ?run, rfl, hstands.column_eq, ?bytes, ?lines, ?columns, ?width⟩
  case back => exact fun hx => hstands.back_eq (by simpa using congrArg String.toList hx)
  case malformed =>
    rintro ⟨fault, rfl⟩
    unfold Error.report
    simp only [hspan, htext]
  case later =>
    intro hne
    unfold Error.report
    simp only [hspan, htext]
  case run =>
    intro σ files s arguments job bytes hjob hstrict hread ht
    obtain rfl : { strict := job.strict } = options := by rw [hstrict]
    rw [Command.perform_of_job hjob]
    exact Job.perform_run_of_compile_error hread ht h
  case bytes =>
    rw [hline, Position.column_behind]
    exact Excerpt.extract_toUTF8 _ _ _
  case lines => simp [List.count_eq_zero_of_not_mem hfeed]
  case columns => simp [Position.column_behind, openLine_append_of_notMem front hfeed]
  case width => exact Excerpt.width_of_notMem front hfeed

/-- A line that ends in CR LF, and a character of two bytes. -/
theorem report_pointsAt_umlaut : ∃ front back,
    "x is [ 1.5 ]\r\n\t!( x ü )\r\n".toList = front ++ ("ü".toList ++ back) ∧
    (∀ c ∈ front, c.toNat < 128) ∧
    (⟨2, "\t!( x ü )".toList, "      ^_".toList⟩ : Excerpt).PointsAt
      "x is [ 1.5 ]\r\n\t!( x ü )\r\n".toList front "ü".toList ∧
    (Command.perform Disk.fileSystem.access ["-i", "f", "-o", "g"]).run
        (.ofFiles [("f", "x is [ 1.5 ]\r\n\t!( x ü )\r\n".toUTF8)]) =
      ({ exitCode := 1, stdout := "",
         stderr := "Syntax error:\n" ++ "  --> line 2:\n" ++ "\t!( x ü )\n" ++ "      ^_\n" ++
          "1:6-1:8: Unexpected character 'ü' (syntax-error)\n" },
        .ofFiles [("f", "x is [ 1.5 ]\r\n\t!( x ü )\r\n".toUTF8)]) := by
  have h : compile {} "x is [ 1.5 ]\r\n\t!( x ü )\r\n" =
      .error (.malformed ⟨.strayCharacter, "ü", ⟨⟨1, 6, 20⟩, ⟨1, 8, 22⟩⟩⟩) := by cbv
  have hexcerpt : Excerpt.ofSpan "x is [ 1.5 ]\r\n\t!( x ü )\r\n".toList ⟨⟨1, 6, 20⟩, ⟨1, 8, 22⟩⟩ =
      ⟨2, "\t!( x ü )".toList, "      ^_".toList⟩ := by cbv
  have hjob : Request.ofArguments ["-i", "f", "-o", "g"] =
      .ok (.compile { input := "f", output := "g" }) := by decide +kernel
  obtain ⟨front, back, excerpt, hsplit, -, hascii, hpoints, hx, hreport, -, hrun, -⟩ :=
    report_pointsAt h rfl
  rw [← byteLength_toList, ← hpoints.text_eq, hexcerpt] at hx
  refine ⟨front, back, hsplit, hascii, hexcerpt ▸ hpoints, ?_⟩
  rw [hrun Disk.fileSystem _ _ _ _ hjob rfl rfl (by decide +kernel), hreport ⟨_, rfl⟩, hx]
  rfl

end ConstLang
