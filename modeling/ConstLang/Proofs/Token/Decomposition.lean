/-
The tokens of a text as a decomposition of it. `Splits` takes a text apart into blanks and
longest lexemes, in turn; the readings of a cursor are exactly that, `reads_iff_splits`.
`tokenize_iff_splits`: a text has the tokens into which it can be taken apart up to its end, and
what lies outside of their spans is blank.
-/
import ConstLang.Proofs.Position
import ConstLang.Proofs.Token.Longest
import ConstLang.Proofs.Token.Reading

namespace ConstLang

open Position (behind after_behind)

/-- The token of a kind that is spelled `x` and stands behind `before`. -/
def Token.spelled (kind : Token.Kind) (before x : List Char) : Token :=
  ⟨kind, String.ofList x, ⟨behind before, behind (before ++ x)⟩⟩

/-- What stands behind `before` starts with the tokens, blanks in front of each one, and goes on
with `rest'`, which stands behind `before'`. Each token is the longest lexeme at its place. -/
inductive Splits : List Char → List Char → List Token → List Char → List Char → Prop
  | nil {before rest : List Char} : Splits before rest [] before rest
  | cons {before blanks x rest before' rest' : List Char} {kind : Token.Kind}
      {tokens : List Token} (hb : ∀ c ∈ blanks, isBlank c)
      (hx : Lexeme.IsLongest kind x (x ++ rest))
      (hs : Splits (before ++ (blanks ++ x)) rest tokens before' rest') :
      Splits before (blanks ++ (x ++ rest)) (.spelled kind (before ++ blanks) x :: tokens)
        before' rest'

theorem isBlank_eq_false_of_isWordChar {c : Char} (h : isWordChar c) : isBlank c = false := by
  refine Bool.eq_false_iff.mpr fun hb => ?_
  simp only [isBlank, Bool.or_eq_true, beq_iff_eq] at hb
  rcases hb with ((rfl | rfl) | rfl) | rfl <;> exact absurd h (by decide)

theorem isBlank_eq_false_of_isDigit {c : Char} (h : c.isDigit) : isBlank c = false := by
  refine Bool.eq_false_iff.mpr fun hb => ?_
  simp only [isBlank, Bool.or_eq_true, beq_iff_eq] at hb
  rcases hb with ((rfl | rfl) | rfl) | rfl <;> exact absurd h (by decide)

/-! ## Blanks and lexemes are ASCII -/

theorem toNat_lt_of_isBlank {c : Char} (h : isBlank c) : c.toNat < 128 := by
  simp only [isBlank, Bool.or_eq_true, beq_iff_eq] at h
  rcases h with ((rfl | rfl) | rfl) | rfl <;> decide

theorem toNat_lt_of_isDigit {c : Char} (h : c.isDigit) : c.toNat < 128 := by
  have hle : c.val ≤ '9'.val := of_decide_eq_true (Bool.and_eq_true_iff.mp h).2
  have hle : c.toNat ≤ 57 := UInt32.le_iff_toNat_le.mp hle
  omega

theorem toNat_lt_of_isWordChar {c : Char} (h : isWordChar c) : c.toNat < 128 := by
  simp only [isWordChar, Bool.or_eq_true, beq_iff_eq] at h
  rcases h with rfl | h
  · decide
  rcases Bool.or_eq_true_iff.mp h with hupper | hlower
  · have hle : c.toNat ≤ 90 := UInt32.le_iff_toNat_le.mp (of_decide_eq_true hupper).2
    omega
  · have hle : c.val ≤ 'z'.val := of_decide_eq_true (Bool.and_eq_true_iff.mp hlower).2
    have hle : c.toNat ≤ 122 := UInt32.le_iff_toNat_le.mp hle
    omega

namespace Lexeme.Spells

variable {kind : Token.Kind} {x : List Char}

theorem toNat_lt (h : Spells kind x) : ∀ c ∈ x, c.toNat < 128 := by
  cases h with
  | name hne hx his hstruct => exact fun c hc => toNat_lt_of_isWordChar (hx c hc)
  | number hw hne hf =>
    refine List.forall_mem_append.mpr ⟨?_, List.forall_mem_cons.mpr ⟨by decide, ?_⟩⟩
    · exact fun c hc => toNat_lt_of_isDigit (hw c hc)
    · exact fun c hc => toNat_lt_of_isDigit (hf c hc)
  | isWord | structWord | openReference | openBracket | closeBracket | openBrace | closeBrace
  | comma | equals | closeReference => simp

theorem ne_nil (h : Spells kind x) : x ≠ [] := by
  cases h with
  | name hne hx his hstruct => exact hne
  | number hw hne hf => simp
  | isWord | structWord | openReference | openBracket | closeBracket | openBrace | closeBrace
  | comma | equals | closeReference => simp

/-- No blank stands in a lexeme. -/
theorem not_blank (h : Spells kind x) : ∀ c ∈ x, isBlank c = false := by
  cases h with
  | name hne hx his hstruct => exact fun c hc => isBlank_eq_false_of_isWordChar (hx c hc)
  | number hw hne hf =>
    refine List.forall_mem_append.mpr ⟨?_, List.forall_mem_cons.mpr ⟨rfl, ?_⟩⟩
    · exact fun c hc => isBlank_eq_false_of_isDigit (hw c hc)
    · exact fun c hc => isBlank_eq_false_of_isDigit (hf c hc)
  | isWord | structWord | openReference | openBracket | closeBracket | openBrace | closeBrace
  | comma | equals | closeReference => simp [isBlank]

theorem ne_endOfInput (h : Spells kind x) : kind ≠ .endOfInput := by
  cases h <;> decide

end Lexeme.Spells

namespace Cursor

variable {before rest : List Char}

theorem skip_behind (before x rest : List Char) :
    (⟨x ++ rest, behind before⟩ : Cursor).skip x = ⟨rest, behind (before ++ x)⟩ := by
  simp only [skip, List.drop_left, after_behind]

theorem skipBlanks_behind (before : List Char) {blanks rest : List Char}
    (hb : ∀ c ∈ blanks, isBlank c) (hr : ∀ c ∈ rest.head?, isBlank c = false) :
    (⟨blanks ++ rest, behind before⟩ : Cursor).skipBlanks = ⟨rest, behind (before ++ blanks)⟩ := by
  have ht : (blanks ++ rest).takeWhile isBlank = blanks := by
    rw [List.takeWhile_append_of_pos hb]
    cases rest with
    | nil => simp
    | cons c rest => simp [hr c rfl]
  rw [skipBlanks, ht, skip_behind]

/-- Skipping blanks from any place takes some blanks off, and leaves none in front. -/
theorem exists_skipBlanks_behind (before rest : List Char) :
    ∃ blanks rest', rest = blanks ++ rest' ∧ (∀ c ∈ blanks, isBlank c) ∧
      (∀ c ∈ rest'.head?, isBlank c = false) ∧
      (⟨rest, behind before⟩ : Cursor).skipBlanks = ⟨rest', behind (before ++ blanks)⟩ := by
  have hsplit : rest.takeWhile isBlank ++ rest.dropWhile isBlank = rest :=
    List.takeWhile_append_dropWhile
  refine ⟨_, _, hsplit.symm, List.all_eq_true.mp List.all_takeWhile, ?_, ?_⟩
  · intro c hc
    have := List.head?_dropWhile_not isBlank rest
    rwa [hc] at this
  · have hskip := skip_behind before (rest.takeWhile isBlank) (rest.dropWhile isBlank)
    rwa [hsplit] at hskip

/-- Behind blanks, the longest lexeme is read. -/
theorem next_of_isLongest {blanks x : List Char} {kind : Token.Kind}
    (hb : ∀ c ∈ blanks, isBlank c) (hx : Lexeme.IsLongest kind x (x ++ rest)) :
    (⟨blanks ++ (x ++ rest), behind before⟩ : Cursor).next =
      .ok (.spelled kind (before ++ blanks) x, ⟨rest, behind (before ++ (blanks ++ x))⟩) := by
  obtain ⟨c, r, rfl⟩ := List.exists_cons_of_ne_nil hx.spells.ne_nil
  have hcs : (c :: r) ++ rest = c :: (r ++ rest) := List.cons_append
  have hread := Lexeme.read_eq_accepted_iff.mpr (hcs ▸ hx)
  have hhead : ∀ d ∈ (c :: (r ++ rest)).head?, isBlank d = false := by
    rintro d ⟨⟩
    exact hx.spells.not_blank c List.mem_cons_self
  have hskip := skip_behind (before ++ blanks) (c :: r) rest
  rw [hcs] at hskip ⊢
  rw [next, skipBlanks_behind _ hb hhead, nextHere]
  simp only [hread, hskip, span, after_behind, Token.spelled, List.append_assoc]

/-- A token that is read is the longest lexeme behind some blanks. -/
theorem exists_isLongest_of_next {t : Token} {c' : Cursor}
    (h : (⟨rest, behind before⟩ : Cursor).next = .ok (t, c')) (ht : t.kind ≠ .endOfInput) :
    ∃ blanks kind x rest', rest = blanks ++ (x ++ rest') ∧ (∀ c ∈ blanks, isBlank c) ∧
      Lexeme.IsLongest kind x (x ++ rest') ∧ t = .spelled kind (before ++ blanks) x ∧
      c' = ⟨rest', behind (before ++ (blanks ++ x))⟩ := by
  obtain ⟨blanks, rest₁, rfl, hb, -, hskip⟩ := exists_skipBlanks_behind before rest
  cases Next.of_eq h with
  | ended hr => exact absurd rfl ht
  | @accepted ch r x kind hr hx =>
    rw [hskip] at hr ⊢
    have hlongest := Lexeme.read_eq_accepted_iff.mp hx
    rw [← hr] at hlongest
    obtain ⟨rest', rfl⟩ := hlongest.isPrefix
    refine ⟨blanks, kind, x, rest', rfl, hb, hlongest, ?_, ?_⟩
    · simp only [span, after_behind, Token.spelled]
    · rw [skip_behind, List.append_assoc]

/-- **Reading is taking apart.** -/
theorem reads_iff_splits {before rest : List Char} {tokens : List Token} {c' : Cursor} :
    Reads ⟨rest, behind before⟩ tokens c' ↔
      ∃ before' rest', c' = ⟨rest', behind before'⟩ ∧ Splits before rest tokens before' rest' := by
  constructor
  · intro h
    generalize hc : (⟨rest, behind before⟩ : Cursor) = c at h
    induction h generalizing before rest with
    | nil => exact ⟨before, rest, hc.symm, .nil⟩
    | cons hn ht hs ih =>
      subst hc
      obtain ⟨blanks, kind, x, rest₁, rfl, hb, hx, rfl, rfl⟩ := exists_isLongest_of_next hn ht
      obtain ⟨before', rest', rfl, hsplit⟩ := ih rfl
      exact ⟨before', rest', rfl, .cons hb hx hsplit⟩
  · intro h
    obtain ⟨before', rest', rfl, hs⟩ := h
    induction hs with
    | nil => exact .nil
    | cons hb hx hs ih => exact .cons (next_of_isLongest hb hx) hx.spells.ne_endOfInput ih

/-- The end of the input is read where only blanks are left. -/
theorem next_of_blanks (before : List Char) {rest : List Char} (hb : ∀ c ∈ rest, isBlank c) :
    (⟨rest, behind before⟩ : Cursor).next =
      .ok (.endAt (behind (before ++ rest)), ⟨[], behind (before ++ rest)⟩) := by
  have hskip : (⟨rest, behind before⟩ : Cursor).skipBlanks = ⟨[], behind (before ++ rest)⟩ := by
    have hnil : ∀ c ∈ ([] : List Char).head?, isBlank c = false := by simp
    simpa using skipBlanks_behind before hb hnil
  rw [next, hskip, nextHere]

theorem blanks_of_next {t : Token} {c' : Cursor}
    (h : (⟨rest, behind before⟩ : Cursor).next = .ok (t, c')) (ht : t.kind = .endOfInput) :
    (∀ c ∈ rest, isBlank c) ∧ t = .endAt (behind (before ++ rest)) := by
  obtain ⟨blanks, rest', rfl, hb, -, hskip⟩ := exists_skipBlanks_behind before rest
  cases Next.of_eq h with
  | ended hr =>
    rw [hskip] at hr ⊢
    dsimp only at hr
    subst hr
    rw [List.append_nil]
    exact ⟨hb, rfl⟩
  | accepted hr hx => exact absurd ht (Lexeme.ne_endOfInput_of_read hx)

/-- The readings that lead to a cursor are the start of the stream. -/
theorem Reads.stream_eq {c c' : Cursor} {ts : List Token} (h : Reads c ts c') :
    c.stream = ⟨ts ++ c'.stream.tokens, c'.stream.ending⟩ := by
  induction h with
  | nil => rfl
  | cons hn ht hs ih => rw [stream_of_next_token hn ht, ih, List.cons_append]

end Cursor

namespace Splits

variable {before rest before' rest' : List Char} {tokens : List Token}

/-- Nothing of the text is lost. -/
theorem append_eq (h : Splits before rest tokens before' rest') :
    before ++ rest = before' ++ rest' := by
  induction h with
  | nil => rfl
  | cons hb hx hs ih => simpa using ih

/-- The tokens lie between the two places, and each takes up some of the text. -/
theorem bounds (h : Splits before rest tokens before' rest') :
    byteLength before ≤ byteLength before' ∧
      ∀ t ∈ tokens, byteLength before ≤ t.span.start.offset ∧
        t.span.start.offset < t.span.stop.offset ∧ t.span.stop.offset ≤ byteLength before' := by
  induction h with
  | nil => simp
  | @cons before blanks x rest before' rest' kind tokens hb hx hs ih =>
    obtain ⟨hle, hts⟩ := ih
    have hpos := byteLength_pos hx.spells.ne_nil
    simp only [byteLength_append] at hle hts
    refine ⟨by omega, List.forall_mem_cons.mpr ⟨?_, ?_⟩⟩
    · simp only [Token.spelled, Position.offset_behind, byteLength_append]
      omega
    · intro t ht
      have := hts t ht
      omega

theorem isPrefix (h : Splits before rest tokens before' rest') : before <+: before' := by
  induction h with
  | nil => exact List.prefix_rfl
  | cons hb hx hs ih => exact (List.prefix_append _ _).trans ih

/-- Every token stands in what is read where its span says, and is spelled as its kind asks. -/
theorem exists_split (h : Splits before rest tokens before' rest') :
    ∀ t ∈ tokens, ∃ front x back, Lexeme.Spells t.kind x ∧ t = .spelled t.kind front x ∧
      before' = front ++ (x ++ back) := by
  induction h with
  | nil => simp
  | @cons before blanks x rest before' rest' kind tokens hb hx hs ih =>
    obtain ⟨back, rfl⟩ := hs.isPrefix
    exact List.forall_mem_cons.mpr ⟨⟨before ++ blanks, x, back, hx.spells, rfl, by simp⟩, ih⟩

/-- What is read is ASCII, if it starts so. -/
theorem toNat_lt (h : Splits before rest tokens before' rest') (hb : ∀ c ∈ before, c.toNat < 128) :
    ∀ c ∈ before', c.toNat < 128 := by
  induction h with
  | nil => exact hb
  | cons hblanks hx hs ih =>
    refine ih (List.forall_mem_append.mpr ⟨hb, List.forall_mem_append.mpr ⟨?_, ?_⟩⟩)
    · exact fun c hc => toNat_lt_of_isBlank (hblanks c hc)
    · exact hx.spells.toNat_lt

theorem pairwise (h : Splits before rest tokens before' rest') :
    tokens.Pairwise fun s t => s.span.stop.offset ≤ t.span.start.offset := by
  induction h with
  | nil => exact .nil
  | cons hb hx hs ih =>
    refine .cons ?_ ih
    intro t ht
    have := (hs.bounds.2 t ht).1
    simpa [Token.spelled, Nat.add_assoc] using this

end Splits

/-- The character behind `front` lies within the token. -/
def Token.Covers (t : Token) (front : List Char) : Prop :=
  t.span.start.offset ≤ byteLength front ∧ byteLength front < t.span.stop.offset

/-- A character of two runs in a row is one of the first or of the second. -/
theorem exists_of_append_eq {as bs front back : List Char} {c : Char}
    (h : as ++ bs = front ++ c :: back) :
    (∃ back', as = front ++ c :: back') ∨
      ∃ front', front = as ++ front' ∧ bs = front' ++ c :: back := by
  rcases List.append_eq_append_iff.mp h with ⟨front', hf, hb⟩ | ⟨as', ha, hc⟩
  · exact .inr ⟨front', hf, hb⟩
  · cases as' with
    | nil => exact .inr ⟨[], by simpa using ha.symm, hc.symm⟩
    | cons d as' =>
      obtain ⟨rfl, -⟩ := List.cons.inj hc
      exact .inl ⟨as', ha⟩

/-- What no token covers is blank, if the rest is. -/
theorem Splits.isBlank_or_covers {before rest before' rest' : List Char} {tokens : List Token}
    (h : Splits before rest tokens before' rest') (hr : ∀ c ∈ rest', isBlank c)
    {front back : List Char} {c : Char} (hc : rest = front ++ c :: back) :
    isBlank c ∨ ∃ t ∈ tokens, t.Covers (before ++ front) := by
  induction h generalizing front with
  | nil =>
    subst hc
    exact .inl (hr c (by simp))
  | @cons before blanks x rest before' rest' kind tokens hb hx hs ih =>
    -- The character is one of the blanks, one of the token, or stands behind both.
    rcases exists_of_append_eq hc with ⟨back', rfl⟩ | ⟨front₁, rfl, hc₁⟩
    · exact .inl (hb c (by simp))
    rcases exists_of_append_eq hc₁ with ⟨back', rfl⟩ | ⟨front₂, rfl, hc₂⟩
    · refine .inr ⟨_, List.mem_cons_self, ?_⟩
      have := c.utf8Size_pos
      simp only [Token.Covers, Token.spelled, Position.offset_behind, byteLength_append, byteLength]
      omega
    · rcases ih hr hc₂ with h | ⟨t, ht, hcovers⟩
      · exact .inl h
      · refine .inr ⟨t, List.mem_cons_of_mem _ ht, ?_⟩
        simpa only [List.append_assoc] using hcovers

/-- A text is taken apart as far as its tokens go; where they end, its ending is read. -/
theorem exists_splits_ofText (text : String) :
    ∃ before rest, Splits [] text.toList (TokenStream.ofText text).tokens before rest ∧
      (⟨rest, behind before⟩ : Cursor).stream = ⟨[], (TokenStream.ofText text).ending⟩ := by
  have htokens := (List.append_nil (TokenStream.ofText text).tokens).symm
  obtain ⟨c, hreads, hstream⟩ := Cursor.reads_of_tokens_eq htokens
  have hstart : Cursor.ofText text = ⟨text.toList, behind []⟩ := rfl
  rw [hstart] at hreads
  obtain ⟨before, rest, rfl, hsplits⟩ := Cursor.reads_iff_splits.mp hreads
  exact ⟨before, rest, hsplits, hstream⟩

/-- A token of a text stands where its span says, and is spelled as its kind asks. -/
theorem exists_split_of_mem_tokens {text : String} {t : Token}
    (h : t ∈ (TokenStream.ofText text).tokens) :
    ∃ front x back, Lexeme.Spells t.kind x ∧ t = .spelled t.kind front x ∧
      text.toList = front ++ (x ++ back) := by
  obtain ⟨before, rest, hsplits, -⟩ := exists_splits_ofText text
  obtain ⟨front, x, back, hspells, ht, hbefore⟩ := hsplits.exists_split t h
  refine ⟨front, x, back ++ rest, hspells, ht, ?_⟩
  simpa [hbefore] using hsplits.append_eq

/-- The readings of a text up to its end take it apart, and what takes it apart is read. -/
theorem tokenize_eq_ok_iff_exists_splits {text : String} {tokens : List Token} :
    tokenize text = .ok tokens ↔
      ∃ lexemes before blanks, Splits [] text.toList lexemes before blanks ∧
        (∀ c ∈ blanks, isBlank c) ∧ tokens = lexemes ++ [.endAt (behind text.toList)] := by
  constructor
  · intro h
    obtain ⟨last, he, rfl⟩ : ∃ last, (TokenStream.ofText text).ending = .ok last ∧
        (TokenStream.ofText text).tokens ++ [last] = tokens := by
      unfold tokenize TokenStream.toList at h
      cases he : (TokenStream.ofText text).ending with
      | error e => rw [he] at h; cases h
      | ok last => rw [he] at h; cases h; exact ⟨last, rfl, rfl⟩
    obtain ⟨before, blanks, hsplits, hstream⟩ := exists_splits_ofText text
    refine ⟨_, before, blanks, hsplits, ?_⟩
    rw [he] at hstream
    cases Cursor.Streams.of_eq hstream with
    | ended hn ht =>
      obtain ⟨hb, rfl⟩ := Cursor.blanks_of_next hn ht
      rw [← hsplits.append_eq]
      exact ⟨hb, rfl⟩
  · intro h
    obtain ⟨lexemes, before, blanks, hsplits, hb, rfl⟩ := h
    have hreads := Cursor.reads_iff_splits.mpr ⟨before, blanks, rfl, hsplits⟩
    have hend := Cursor.stream_of_next_end (Cursor.next_of_blanks before hb) rfl
    have hstream := hreads.stream_eq
    rw [hend, ← hsplits.append_eq, List.append_nil] at hstream
    exact (tokenize_eq_ok_iff text _ _).mpr ⟨congrArg _ hstream, congrArg _ hstream⟩

/-- **Tokens are longest lexemes.** A text has some tokens if and only if it can be taken apart
into them, blanks and longest lexemes in turn up to the end, and the last one stands for the
end. So the spans of the tokens follow one another, and every character that lies in none of
them is blank. -/
theorem tokenize_iff_splits (text : String) (tokens : List Token) :
    (tokenize text = .ok tokens ↔
      ∃ lexemes before blanks, Splits [] text.toList lexemes before blanks ∧
        (∀ c ∈ blanks, isBlank c) ∧ tokens = lexemes ++ [.endAt (behind text.toList)]) ∧
    (tokenize text = .ok tokens →
      (tokens.Pairwise fun s t => s.span.start.offset < s.span.stop.offset ∧
        s.span.stop.offset ≤ t.span.start.offset) ∧
      ∀ front c back, text.toList = front ++ c :: back →
        isBlank c ∨ ∃ t ∈ tokens, t.Covers front) := by
  refine ⟨tokenize_eq_ok_iff_exists_splits, fun h => ?_⟩
  obtain ⟨lexemes, before, blanks, hs, hb, rfl⟩ := tokenize_eq_ok_iff_exists_splits.mp h
  constructor
  · have hends : byteLength before ≤ byteLength text.toList := by
      have happend := hs.append_eq
      rw [List.nil_append] at happend
      simp [happend]
    have hbounds := hs.bounds.2
    refine List.pairwise_append.mpr ⟨?_, List.pairwise_singleton _ _, ?_⟩
    · exact hs.pairwise.imp_of_mem fun hm _ hle => ⟨(hbounds _ hm).2.1, hle⟩
    · intro s hm t ht
      obtain rfl := List.mem_singleton.mp ht
      obtain ⟨-, hlt, hle⟩ := hbounds s hm
      exact ⟨hlt, Nat.le_trans hle hends⟩
  · intro front c back hc
    rcases hs.isBlank_or_covers hb hc with hblank | ⟨t, ht, hcovers⟩
    · exact .inl hblank
    · exact .inr ⟨t, List.mem_append_left _ ht, hcovers⟩

/-- No blank is needed where a word or a number cannot go on. -/
example : (tokenize "isx1.5.5").map (·.map Token.text) = .ok ["isx", "1.5", ".5", ""] := by cbv

end ConstLang
