/-
Every place that is reported is exact. The lexer keeps its place while it walks through a text;
tokens, names and errors only carry it on. `Span.Met` lists what it comes to, `Span.Marks` says
that a piece of the text stands at a span, and that it is empty only at the end of the text, and
all that is met is marked, `Span.Met.marks`. The names of a program are tokens, and an error of
any phase is about something met, `met_of_compile_error`: `places_exact`.
-/
import ConstLang.Proofs.Compilation
import ConstLang.Proofs.Token.Refusal
import ConstLang.Proofs.FirstError

namespace ConstLang

open Position (behind)

/-! ## Pieces and the end of a text -/

/-- The span is where the piece stands in the text, and an empty piece stands at its end. -/
structure Span.Marks (text : String) (span : Span) (piece : String) : Prop
    extends Span.Shows text span piece where
  atEnd : piece = "" → span.start.offset = text.utf8ByteSize

variable {text : String}

/-- Where a piece of a text stands that the lexer gets to: behind blanks and lexemes, which are
ASCII. There is no blank in it, and it is empty only at the end. -/
structure Stands (text : String) (front x back : List Char) : Prop where
  append_eq : text.toList = front ++ (x ++ back)
  not_blank : ∀ c ∈ x, isBlank c = false
  back_eq : x = [] → back = []
  toNat_lt : ∀ c ∈ front, c.toNat < 128

/-- The lexer's place is exact. -/
theorem Stands.marks {front x back : List Char} (h : Stands text front x back) :
    Span.Marks text ⟨behind front, behind (front ++ x)⟩ (String.ofList x) where
  toShows := by
    have hsplit := h.append_eq
    have hfeed := feed_notMem_of_not_blank h.not_blank
    rw [← String.toList_ofList (l := x)] at hsplit hfeed
    simpa using Span.Shows.of_split hsplit hfeed
  atEnd he := by
    have hx : x = [] := by simpa using congrArg String.toList he
    have hfront : text.toList = front := by simpa [hx, h.back_eq hx] using h.append_eq
    rw [← byteLength_toList, hfront]
    rfl

/-- What the lexer comes to: a token of the text, or behind the tokens the end or a piece that is
none. -/
inductive Span.Met (text : String) : Span → String → Prop
  | token {t : Token} (h : t ∈ (TokenStream.ofText text).tokens) : Met text t.span t.text
  | ending {last : Token} (h : (TokenStream.ofText text).ending = .ok last) :
      Met text last.span last.text
  | refused {e : SyntaxError} (h : (TokenStream.ofText text).ending = .error e) :
      Met text e.span e.token

theorem Span.Met.exists_stands {span : Span} {piece : String} (h : Met text span piece) :
    ∃ front x back, Stands text front x back ∧ piece = String.ofList x ∧
      span = ⟨behind front, behind (front ++ x)⟩ := by
  obtain ⟨before, rest, hsplits, hstream⟩ := exists_splits_ofText text
  have happend : text.toList = before ++ rest := by simpa using hsplits.append_eq
  have hbefore : ∀ c ∈ before, c.toNat < 128 := hsplits.toNat_lt (by simp)
  cases h with
  | token hm =>
    obtain ⟨front, x, back, hspells, ht, rfl⟩ := hsplits.exists_split _ hm
    refine ⟨front, x, back ++ rest, ⟨by simpa using happend, hspells.not_blank, ?_, ?_⟩, ?_⟩
    · exact fun hx => absurd hx hspells.ne_nil
    · exact fun c hc => hbefore c (List.mem_append_left _ hc)
    · rw [ht]
      exact ⟨rfl, rfl⟩
  | ending he =>
    rw [he] at hstream
    cases Cursor.Streams.of_eq hstream with
    | ended hn ht =>
      obtain ⟨hblanks, rfl⟩ := Cursor.blanks_of_next hn ht
      refine ⟨before ++ rest, [], [], ⟨by simpa using happend, by simp, fun _ => rfl, ?_⟩,
        rfl, by simp [Token.endAt]⟩
      exact List.forall_mem_append.mpr ⟨hbefore, fun c hc => toNat_lt_of_isBlank (hblanks c hc)⟩
  | refused he =>
    rw [he] at hstream
    cases Cursor.Streams.of_eq hstream with
    | refused hn =>
      obtain ⟨blanks, c, r, rfl, hblanks, hc, -, hrefuses⟩ := Cursor.next_eq_error_iff.mp hn
      have hx := hrefuses.refused
      obtain ⟨back, hback⟩ := hx.isPrefix
      refine ⟨before ++ blanks, _, back, ⟨?_, hx.not_blank hc, fun h => absurd h hx.ne_nil, ?_⟩,
        String.ofList_toList.symm, hrefuses.span_eq hc⟩
      · rw [hback, List.append_assoc, happend]
      · exact List.forall_mem_append.mpr ⟨hbefore, fun c hc => toNat_lt_of_isBlank (hblanks c hc)⟩

theorem Span.Met.marks {span : Span} {piece : String} (h : Met text span piece) :
    Span.Marks text span piece := by
  obtain ⟨front, x, back, hstands, rfl, rfl⟩ := h.exists_stands
  exact hstands.marks

theorem marks_of_mem_tokens : ∀ t ∈ (TokenStream.ofText text).tokens, t.span.Marks text t.text :=
  fun _ hm => (Span.Met.token hm).marks

theorem marks_of_ending {last : Token} (h : (TokenStream.ofText text).ending = .ok last) :
    last.span.Marks text last.text :=
  (Span.Met.ending h).marks

/-- **An error of the parser** is about a token, the end of the text or what is no token. -/
theorem met_of_parse_error {e : SyntaxError} (h : Tree.parse text = .error e) :
    e.span.Met text e.token := by
  obtain ⟨before, r, -, hcases⟩ := Tree.exists_of_ofStream_error h
  rcases hcases with ⟨t, rest, hts, hs⟩ | ⟨-, he⟩ | ⟨last, -, he, hf⟩
  · obtain ⟨htoken, hspan⟩ := Reader.token_of_refuses (Reader.refuses_of_step hs)
    have hm : t ∈ (TokenStream.ofText text).tokens := by
      rw [hts]
      exact List.mem_append_right _ List.mem_cons_self
    rw [htoken, hspan]
    exact .token hm
  · exact .refused he
  · obtain ⟨-, rfl⟩ := Reader.finish_eq_error hf
    exact .ending he

theorem marks_of_parse_error {e : SyntaxError} (h : Tree.parse text = .error e) :
    e.span.Marks text e.token :=
  (met_of_parse_error h).marks

/-- The span of an empty piece has no length, and it is the only one at the end of the text. -/
theorem Span.Marks.empty_iff {span : Span} {piece : String} (h : Span.Marks text span piece) :
    (span.start = span.stop ↔ piece = "") ∧
      (piece = "" ↔ span.start.offset = text.utf8ByteSize) := by
  obtain ⟨before, rest, -, hstart, hstop⟩ := h.exists_split
  have hstop_le := h.stop_le
  -- A piece that is not empty takes up bytes, so that its start is in front of the end.
  have hlength : piece ≠ "" → span.start.offset < span.stop.offset := by
    intro hne
    have hpos : 0 < byteLength piece.toList := byteLength_pos (by simpa using hne)
    rw [hstart, hstop, Position.offset_behind, Position.offset_behind, byteLength_append]
    omega
  refine ⟨⟨fun heq => ?_, ?_⟩, ⟨h.atEnd, fun heq => ?_⟩⟩
  · by_contra hne
    have := hlength hne
    rw [heq] at this
    omega
  · rintro rfl
    rw [hstart, hstop]
    simp
  · by_contra hne
    have := hlength hne
    omega

/-! ## Names and later errors -/

/-- The names of a program are tokens of its text. -/
theorem met_of_mem_labels {items : List Tree.Item} {p : Program}
    (hp : Tree.parse text = .ok items) (ho : Program.ofTrees items = .ok p) :
    ∀ l ∈ p.labels, l.span.Met text l.name := by
  intro l hm
  rcases ofTrees_of_parse hp with ⟨-, he⟩ | ⟨-, p', ho', hlabels⟩
  · rw [ho] at he
    cases he
  · obtain rfl : p = p' := by rw [ho] at ho'; cases ho'; rfl
    obtain ⟨t, ht, -, rfl⟩ := Token.mem_of_mem_labels (hlabels ▸ hm)
    exact .token ht

theorem shows_of_mem_labels {items : List Tree.Item} {p : Program}
    (hp : Tree.parse text = .ok items) (ho : Program.ofTrees items = .ok p) :
    ∀ l ∈ p.labels, l.span.Shows text l.name :=
  fun l hm => (met_of_mem_labels hp ho l hm).marks.toShows

/-- The piece of a text that an error is about, empty if it has no place. -/
def Error.subject : Error → String
  | malformed e => e.token
  | structural _ | emptyProgram => ""
  | undefinedConstant name _ | duplicateKey name _ | redeclaredConstant name _ => name

theorem Error.PointsAt.subject_eq {e : Error} {l : Label} (h : e.PointsAt l) :
    e.subject = l.name ∧ e.span? = some l.span := by
  rcases h with rfl | rfl | rfl <;> exact ⟨rfl, rfl⟩

/-- An error of any phase is about something that the lexer comes to. -/
theorem met_of_compile_error {options : Options} {e : Error} {span : Span}
    (h : compile options text = .error e) (hspan : e.span? = some span) :
    span.Met text e.subject := by
  rcases compile_error_cases h with ⟨fault, hp, rfl⟩ | ⟨_, -, -, rfl⟩ | ⟨items, p, hp, -, ho, hl⟩
  · cases hspan
    exact met_of_parse_error hp
  · cases hspan
  · obtain ⟨l, hm, hl⟩ := hl
    obtain ⟨hsubject, hl⟩ := hl.subject_eq
    obtain rfl : l.span = span := by rw [hl] at hspan; exact Option.some.inj hspan
    rw [hsubject]
    exact met_of_mem_labels hp ho l hm

theorem shows_of_compile_error {options : Options} {e : Error} {span : Span}
    (h : compile options text = .error e) (hspan : e.span? = some span) :
    span.Shows text e.subject :=
  (met_of_compile_error h hspan).marks.toShows

/-- Every error but that of a text without a main value has a place, its own one. -/
theorem span?_of_compile_error {options : Options} {e : Error}
    (h : compile options text = .error e) :
    (∃ fault, e = .malformed fault ∧ e.span? = some fault.span) ∨
      (e = .emptyProgram ∧ e.span? = none) ∨ ∃ l, e.PointsAt l ∧ e.span? = some l.span := by
  rcases compile_error_cases h with ⟨fault, -, rfl⟩ | ⟨_, -, -, rfl⟩ | ⟨_, _, -, -, -, l, -, hl⟩
  · exact .inl ⟨fault, rfl, rfl⟩
  · exact .inr (.inl ⟨rfl, rfl⟩)
  · exact .inr (.inr ⟨l, hl, hl.subject_eq.2⟩)

/-- **Every place is exact**: those of the tokens of a text, the end included, those of the names
in its program, and those of all errors. A place that is given for what is wrong with the text
itself is a single one exactly if nothing stands there, at the end. Every error has a place, unless
all that is wrong is that there is no main value. -/
theorem places_exact (text : String) :
    (∀ tokens, tokenize text = .ok tokens → ∀ t ∈ tokens, t.span.Shows text t.text) ∧
    (∀ p, Program.ofText text = .ok p → ∀ l ∈ p.labels, l.span.Shows text l.name) ∧
    (∀ options e span, compile options text = .error e → e.span? = some span →
      span.Shows text e.subject) ∧
    (∀ options e, compile options text = .error (.malformed e) →
      (e.span.start = e.span.stop ↔ e.token = "") ∧
      (e.token = "" ↔ e.span.start.offset = text.utf8ByteSize)) ∧
    ∀ options e, compile options text = .error e →
      (∃ fault, e = .malformed fault ∧ e.span? = some fault.span) ∨
        (e = .emptyProgram ∧ e.span? = none) ∨ ∃ l, e.PointsAt l ∧ e.span? = some l.span := by
  refine ⟨fun tokens h => ?_, fun p h => ?_, fun options e span => shows_of_compile_error,
    fun options e h => ?_, fun options e => span?_of_compile_error⟩
  · obtain ⟨lexemes, before, blanks, -, -, rfl⟩ := tokenize_eq_ok_iff_exists_splits.mp h
    obtain ⟨htokens, hending⟩ := (tokenize_eq_ok_iff text _ _).mp h
    subst htokens
    refine List.forall_mem_append.mpr ⟨fun t ht => (marks_of_mem_tokens t ht).toShows, ?_⟩
    exact List.forall_mem_singleton.mpr (marks_of_ending hending).toShows
  · obtain ⟨items, hp, ho⟩ := Program.ofText_eq_ok_iff.mp h
    exact shows_of_mem_labels hp ho
  · rcases compile_error_cases h with ⟨fault, hp, he⟩ | ⟨_, -, -, he⟩ | ⟨_, _, -, -, -, he⟩
    · cases he
      exact (marks_of_parse_error hp).empty_iff
    · cases he
    · obtain ⟨l, -, hl⟩ := he
      exact absurd rfl (hl.ne.1 e)

/-- Columns are bytes, and the carriage return is part of the first line. -/
example : compile {} "\r\n ü" =
    .error (.malformed ⟨.strayCharacter, "ü", ⟨⟨1, 1, 3⟩, ⟨1, 3, 5⟩⟩⟩) := by cbv

end ConstLang
