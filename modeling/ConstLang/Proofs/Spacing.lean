/-
Blanks between tokens carry no meaning. A lexeme is read up to its end if what follows it cannot
go on with it (`Lexeme.isLongest_of_stops`), and only words and numbers can be gone on with, by
another word or by digits: `Token.RunsInto`. So the tokens of a text may be spelled out anew with
any blanks around them, at least one where they would run into each other, and the text has the
same value or the same error: `compile_respaced`.
-/
import ConstLang.Proofs.Places
import ConstLang.Proofs.Relocation

namespace ConstLang

/-! ## Where a lexeme ends -/

/-- Words are the names and the keywords. -/
def Token.Kind.IsWord (kind : Token.Kind) : Prop :=
  kind = .name ∨ kind = .isWord ∨ kind = .structWord

namespace Lexeme

variable {kind : Token.Kind} {x rest : List Char}

/-- Only a word starts with a letter or an underscore. -/
theorem Spells.isWord_of_head? (hx : Spells kind x) {c : Char} (hc : c ∈ x.head?)
    (hw : isWordChar c) : kind.IsWord := by
  cases hx with
  | name => exact .inl rfl
  | isWord => exact .inr (.inl rfl)
  | structWord => exact .inr (.inr rfl)
  | @number whole fraction hwhole hne hf =>
    cases whole with
    | nil => cases hc; exact absurd hw (by decide)
    | cons d ds =>
      cases hc
      have hdigit := hwhole c List.mem_cons_self
      exact absurd hw (by simp [isWordChar_eq_false_of_isDigit hdigit])
  | openReference | openBracket | closeBracket | openBrace | closeBrace | comma | equals
  | closeReference => cases hc; exact absurd hw (by decide)

/-- Only a number starts with a digit. -/
theorem Spells.number_of_head? (hx : Spells kind x) {c : Char} (hc : c ∈ x.head?)
    (hd : c.isDigit) : kind = .number := by
  cases hx with
  | number => rfl
  | @name x hne hx his hstruct =>
    have hword := hx c (List.mem_of_head? hc)
    rw [isWordChar_eq_false_of_isDigit hd] at hword
    cases hword
  | isWord | structWord | openReference | openBracket | closeBracket | openBrace | closeBrace
  | comma | equals | closeReference => cases hc; exact absurd hd (by decide)

/-- What follows cannot go on with a lexeme of the kind. -/
structure Stops (kind : Token.Kind) (rest : List Char) : Prop where
  word : kind.IsWord → ∀ c ∈ rest.head?, isWordChar c = false
  number : kind = .number → ∀ c ∈ rest.head?, c.isDigit = false

theorem takeWhile_eq_nil_of_head? {p : Char → Bool} {cs : List Char}
    (h : ∀ c ∈ cs.head?, p c = false) : cs.takeWhile p = [] := by
  cases cs with
  | nil => rfl
  | cons c cs => simp [h c rfl]

/-- A word is read up to what is no letter. -/
theorem isLongest_of_word (hne : x ≠ []) (hx : ∀ c ∈ x, isWordChar c)
    (hr : ∀ c ∈ rest.head?, isWordChar c = false) : IsLongest (wordKind x) x (x ++ rest) := by
  have hword : word (x ++ rest) = x := by
    rw [word, List.takeWhile_append_of_pos hx, takeWhile_eq_nil_of_head? hr, List.append_nil]
  obtain ⟨c, r, rfl⟩ := List.exists_cons_of_ne_nil hne
  have hread := read_of_isWordChar (r := r ++ rest) (hx c List.mem_cons_self)
  rw [← List.cons_append, hword] at hread
  exact read_eq_accepted_iff.mp hread

/-- A number is read up to what is no digit. -/
theorem isLongest_of_number (hx : Spells .number x) (hr : ∀ c ∈ rest.head?, c.isDigit = false) :
    IsLongest .number x (x ++ rest) := by
  have hnumber : number (x ++ rest) = x := by
    cases hx with
    | number hw hne hf =>
      rw [List.append_assoc, List.cons_append, number_append hw hne hf,
        takeWhile_eq_nil_of_head? hr, List.append_nil]
  obtain ⟨c, r, rfl⟩ := List.exists_cons_of_ne_nil hx.ne_nil
  have hc : isWordChar c = false := by
    refine Bool.eq_false_iff.mpr fun hw => ?_
    rcases hx.isWord_of_head? rfl hw with h | h | h <;> cases h
  rw [List.cons_append] at hnumber ⊢
  have hread := read_of_number hc (hnumber ▸ hx.ne_nil)
  rw [hnumber] at hread
  exact read_eq_accepted_iff.mp hread

/-- **A lexeme is read up to its end** if what follows cannot go on with it. -/
theorem isLongest_of_stops (hx : Spells kind x) (hs : Stops kind rest) :
    IsLongest kind x (x ++ rest) := by
  cases hx with
  | name hne hx his hstruct =>
    have hlongest := isLongest_of_word hne hx (hs.word (.inl rfl))
    rwa [wordKind, if_neg his, if_neg hstruct] at hlongest
  | isWord =>
    have hx : ∀ c ∈ ['i', 's'], isWordChar c := List.all_eq_true.mp rfl
    exact isLongest_of_word (List.cons_ne_nil _ _) hx (hs.word (.inr (.inl rfl)))
  | structWord =>
    have hx : ∀ c ∈ ['s', 't', 'r', 'u', 'c', 't'], isWordChar c := List.all_eq_true.mp rfl
    exact isLongest_of_word (List.cons_ne_nil _ _) hx (hs.word (.inr (.inr rfl)))
  | number hw hne hf => exact isLongest_of_number (.number hw hne hf) (hs.number rfl)
  | openReference | openBracket | closeBracket | openBrace | closeBrace | comma | equals
  | closeReference => exact read_eq_accepted_iff.mp rfl

/-- Nothing goes on behind a blank. -/
theorem Stops.of_blank {c : Char} (hc : isBlank c) : Stops kind (c :: rest) where
  word _ := by
    rintro d ⟨⟩
    refine Bool.eq_false_iff.mpr fun hw => ?_
    rw [isBlank_eq_false_of_isWordChar hw] at hc
    cases hc
  number _ := by
    rintro d ⟨⟩
    refine Bool.eq_false_iff.mpr fun hd => ?_
    rw [isBlank_eq_false_of_isDigit hd] at hc
    cases hc

theorem Stops.nil : Stops kind [] := ⟨by simp, by simp⟩

end Lexeme

/-! ## Spelling tokens out -/

/-- What makes one token of the two texts if nothing stands between them: a word goes on with a
word, and a number with the digits of a number. -/
def Token.RunsInto (t u : Token) : Prop :=
  t.kind.IsWord ∧ u.kind.IsWord ∨
    t.kind = .number ∧ u.kind = .number ∧ ∃ c ∈ u.text.toList.head?, c.isDigit

/-- The texts of tokens, each with the characters behind it. -/
def spellOut : List (Token × List Char) → List Char
  | [] => []
  | (t, blanks) :: rest => t.text.toList ++ (blanks ++ spellOut rest)

/-- Blanks stand behind each token, at least one where it would run into the next one. -/
structure WellSpaced (spaced : List (Token × List Char)) : Prop where
  blank : ∀ p ∈ spaced, ∀ c ∈ p.2, isBlank c
  apart : spaced.IsChain fun p q => p.1.RunsInto q.1 → p.2 ≠ []

/-- What a token is, apart from its place. -/
def Token.content (t : Token) : Token.Kind × String := (t.kind, t.text)

/-- Every token is spelled as its kind asks. -/
def AllSpelled (tokens : List Token) : Prop :=
  ∀ t ∈ tokens, Lexeme.Spells t.kind t.text.toList

/-- A token that does not run into the next one stops in front of it. -/
theorem stops_spellOut {t : Token} {blanks : List Char} {rest : List (Token × List Char)}
    (hb : ∀ c ∈ blanks, isBlank c) (ha : ∀ q ∈ rest.head?, t.RunsInto q.1 → blanks ≠ [])
    (hs : AllSpelled (rest.map Prod.fst)) : Lexeme.Stops t.kind (blanks ++ spellOut rest) := by
  cases blanks with
  | cons c blanks => exact .of_blank (hb c List.mem_cons_self)
  | nil =>
    cases rest with
    | nil => exact .nil
    | cons q rest =>
      obtain ⟨u, blanks⟩ := q
      have hspells : Lexeme.Spells u.kind u.text.toList := hs u List.mem_cons_self
      have hapart : ¬ t.RunsInto u := fun h => ha (u, blanks) rfl h rfl
      have hhead : ([] ++ spellOut ((u, blanks) :: rest)).head? = u.text.toList.head? := by
        rw [List.nil_append, spellOut]
        exact List.head?_append_of_ne_nil _ hspells.ne_nil
      constructor
      · intro hword c hc
        rw [hhead] at hc
        refine Bool.eq_false_iff.mpr fun hw => hapart (.inl ⟨hword, ?_⟩)
        exact hspells.isWord_of_head? hc hw
      · intro hnumber c hc
        rw [hhead] at hc
        refine Bool.eq_false_iff.mpr fun hd => hapart (.inr ⟨hnumber, ?_, c, hc, hd⟩)
        exact hspells.number_of_head? hc hd

/-- **What is spelled out is taken apart** into the same tokens, at their new places. -/
theorem exists_splits_spellOut {spaced : List (Token × List Char)} (hw : WellSpaced spaced)
    (hs : AllSpelled (spaced.map Prod.fst)) (before : List Char) {blanks : List Char}
    (hb : ∀ c ∈ blanks, isBlank c) :
    ∃ tokens before' blanks', Splits before (blanks ++ spellOut spaced) tokens before' blanks' ∧
      (∀ c ∈ blanks', isBlank c) ∧
      tokens.map Token.content = spaced.map fun p => p.1.content := by
  induction spaced generalizing before blanks with
  | nil => exact ⟨[], before, blanks, by rw [spellOut, List.append_nil]; exact .nil, hb, rfl⟩
  | cons p spaced ih =>
    obtain ⟨t, behind⟩ := p
    obtain ⟨hbehind, hblank⟩ := List.forall_mem_cons.mp hw.blank
    obtain ⟨hnext, hchain⟩ := List.isChain_cons.mp hw.apart
    obtain ⟨ht, hrest⟩ := List.forall_mem_cons.mp hs
    have hlongest := Lexeme.isLongest_of_stops ht (stops_spellOut hbehind hnext hrest)
    obtain ⟨tokens, before', blanks', hsplits, hb', htokens⟩ :=
      ih ⟨hblank, hchain⟩ hrest (before ++ (blanks ++ t.text.toList)) hbehind
    refine ⟨_, before', blanks', .cons hb hlongest hsplits, hb', ?_⟩
    rw [List.map_cons, List.map_cons, htokens]
    simp [Token.content, Token.spelled]

/-! ## Texts of the same tokens -/

/-- Every place is put at the start. -/
def Span.forget : Span → Span := fun _ => {}

/-- The wording of an error, without its place. -/
def Error.detail : Error → String
  | malformed e => e.detail
  | e => e.message

/-- The errors differ in their places only: they are of one kind, about the same name or token, and
worded in the same way. -/
structure Error.SameButForPlace (e e' : Error) : Prop where
  relocate : e.relocate .forget = e'.relocate .forget
  code : e.code = e'.code
  subject : e.subject = e'.subject
  detail : e.detail = e'.detail

theorem Error.sameButForPlace_of_relocate {e e' : Error}
    (h : e.relocate .forget = e'.relocate .forget) : e.SameButForPlace e' := by
  have hcode : ∀ e : Error, (e.relocate .forget).code = e.code := fun e => by cases e <;> rfl
  have hsubject : ∀ e : Error, (e.relocate .forget).subject = e.subject :=
    fun e => by cases e <;> rfl
  have hdetail : ∀ e : Error, (e.relocate .forget).detail = e.detail :=
    fun e => by cases e <;> rfl
  exact ⟨h, by rw [← hcode, h, hcode], by rw [← hsubject, h, hsubject],
    by rw [← hdetail, h, hdetail]⟩

theorem map_relocate_of_content {ts us : List Token}
    (h : ts.map Token.content = us.map Token.content) :
    ts.map (Token.relocate .forget) = us.map (Token.relocate .forget) := by
  have hcontent : Token.relocate .forget =
      (fun c : Token.Kind × String => ⟨c.1, c.2, {}⟩) ∘ Token.content := rfl
  rw [hcontent, ← List.map_map, h, List.map_map]

/-- The outcomes are the same value, or errors that differ in their places only. -/
structure SameOutcome (x y : Except Error Evaluation) : Prop where
  value : ∀ e, x = .ok e ↔ y = .ok e
  error : ∀ e, x = .error e → ∃ e', y = .error e' ∧ e.SameButForPlace e'

theorem sameOutcome_of_mapOutcome {x y : Except Error Evaluation}
    (h : mapOutcome (Error.relocate .forget) id x = mapOutcome (Error.relocate .forget) id y) :
    SameOutcome x y := by
  cases x with
  | ok a =>
    cases y with
    | error e => cases h
    | ok b =>
      obtain rfl : a = b := Except.ok.inj h
      exact ⟨fun _ => .rfl, fun e he => by cases he⟩
  | error e =>
    cases y with
    | ok b => cases h
    | error e' =>
      refine ⟨fun a => ⟨fun ha => (by cases ha), fun ha => (by cases ha)⟩, ?_⟩
      rintro _ ⟨⟩
      exact ⟨e', rfl, Error.sameButForPlace_of_relocate (Except.error.inj h)⟩

/-- **Texts of the same tokens**, whatever stands between these, have the same outcome. -/
theorem compile_of_content {text text' : String} {tokens tokens' : List Token}
    (h : tokenize text = .ok tokens) (h' : tokenize text' = .ok tokens')
    (hc : tokens'.map Token.content = tokens.map Token.content) (options : Options) :
    SameOutcome (compile options text) (compile options text') := by
  obtain ⟨lexemes, -, -, -, -, rfl⟩ := tokenize_eq_ok_iff_exists_splits.mp h
  obtain ⟨lexemes', -, -, -, -, rfl⟩ := tokenize_eq_ok_iff_exists_splits.mp h'
  obtain ⟨ht, he⟩ := (tokenize_eq_ok_iff text _ _).mp h
  obtain ⟨ht', he'⟩ := (tokenize_eq_ok_iff text' _ _).mp h'
  rw [List.map_append, List.map_append] at hc
  have hlexemes := (List.append_inj' hc rfl).1
  have hstream : (TokenStream.ofText text).relocate .forget =
      (TokenStream.ofText text').relocate .forget := by
    rw [TokenStream.relocate, TokenStream.relocate, ht, ht', he, he',
      map_relocate_of_content hlexemes]
    rfl
  refine sameOutcome_of_mapOutcome ?_
  rw [compile_eq, compile_eq, ← TokenStream.compile_relocate, hstream,
    TokenStream.compile_relocate]

/-- **Blanks carry no meaning.** If the tokens of a text are spelled out with blanks around them,
at least one between words and in front of a digit behind a number, then the result has the same
kinds and texts of tokens, and the same value or, but for its place, the same error. -/
theorem compile_respaced {text : String} {lexemes : List Token} {last : Token}
    {front : List Char} {spaced : List (Token × List Char)}
    (ht : tokenize text = .ok (lexemes ++ [last])) (hl : spaced.map Prod.fst = lexemes)
    (hf : ∀ c ∈ front, isBlank c) (hw : WellSpaced spaced) :
    (∃ tokens, tokenize (.ofList (front ++ spellOut spaced)) = .ok tokens ∧
      tokens.map Token.content = (lexemes ++ [last]).map Token.content) ∧
    ∀ options, SameOutcome (compile options text)
      (compile options (.ofList (front ++ spellOut spaced))) := by
  subst hl
  have hspelled : AllSpelled (spaced.map Prod.fst) := by
    intro t hm
    rw [← ((tokenize_eq_ok_iff text _ last).mp ht).1] at hm
    obtain ⟨_, x, _, hx, htoken, -⟩ := exists_split_of_mem_tokens hm
    rw [htoken]
    simpa [Token.spelled] using hx
  obtain ⟨tokens, before, blanks, hsplits, hb, hc⟩ := exists_splits_spellOut hw hspelled [] hf
  have htext : (String.ofList (front ++ spellOut spaced)).toList = front ++ spellOut spaced :=
    String.toList_ofList
  have ht' := tokenize_eq_ok_iff_exists_splits.mpr
    ⟨tokens, before, blanks, htext.symm ▸ hsplits, hb, rfl⟩
  have hlast : last.content = (.endOfInput, "") := by
    obtain ⟨_, _, _, _, _, heq⟩ := tokenize_eq_ok_iff_exists_splits.mp ht
    obtain rfl := List.singleton_inj.mp (List.append_inj' heq rfl).2
    rfl
  have hcontent : (tokens ++ [Token.endAt (.behind
      (String.ofList (front ++ spellOut spaced)).toList)]).map Token.content =
        (spaced.map Prod.fst ++ [last]).map Token.content := by
    rw [List.map_append, List.map_append, hc, List.map_map, List.map_singleton,
      List.map_singleton, hlast]
    rfl
  exact ⟨⟨_, ht', hcontent⟩, compile_of_content ht ht' hcontent⟩

/-- Of the blanks in `a is 1.5 .5`, only the first one is needed. -/
theorem compile_respaced_glued :
    (∃ tokens, tokenize "\ta\nis1.5.5" = .ok tokens ∧ tokens.map Token.content =
      [(.name, "a"), (.isWord, "is"), (.number, "1.5"), (.number, ".5"), (.endOfInput, "")]) ∧
    ∀ options, SameOutcome (compile options "a is 1.5 .5") (compile options "\ta\nis1.5.5") := by
  obtain ⟨spaced, hspaced⟩ : ∃ spaced : List (Token × List Char), spaced =
    [(⟨.name, "a", ⟨⟨0, 0, 0⟩, ⟨0, 1, 1⟩⟩⟩, ['\n']),
      (⟨.isWord, "is", ⟨⟨0, 2, 2⟩, ⟨0, 4, 4⟩⟩⟩, []),
      (⟨.number, "1.5", ⟨⟨0, 5, 5⟩, ⟨0, 8, 8⟩⟩⟩, []),
      (⟨.number, ".5", ⟨⟨0, 9, 9⟩, ⟨0, 11, 11⟩⟩⟩, [])] := ⟨_, rfl⟩
  have ht : tokenize "a is 1.5 .5" =
      .ok (spaced.map Prod.fst ++ [⟨.endOfInput, "", ⟨⟨0, 11, 11⟩, ⟨0, 11, 11⟩⟩⟩]) := by
    subst hspaced
    cbv
  have hw : WellSpaced spaced := by
    subst hspaced
    constructor
    · simp [isBlank]
    · simp [Token.RunsInto, Token.Kind.IsWord]
  have hfront : ∀ c ∈ ['\t'], isBlank c := by simp [isBlank]
  have htext : String.ofList (['\t'] ++ spellOut spaced) = "\ta\nis1.5.5" := by
    subst hspaced
    cbv
  have h := compile_respaced ht rfl hfront hw
  rw [htext] at h
  subst hspaced
  exact h

end ConstLang
