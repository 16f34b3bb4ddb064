/-
What is no token. Where no lexeme starts, `Lexeme.NoneStarts`, the text is refused: digits together
with what looks like the rest of a number, as far as it goes, and otherwise one character.
`Lexeme.IsIntegral` lists what the digits may be taken with, without saying how it is found, and
`read_eq_refused_iff`: the start of a text is refused exactly if no lexeme stands there, and what is
refused is the longest run of that kind. `tokenize_eq_error_iff`: a text has no tokens exactly if
taking it apart comes to such a place, and what is reported is about the text there.
-/
import ConstLang.Proofs.Token.Decomposition

namespace ConstLang

open Position (behind after_behind)

namespace Lexeme

/-- An exponent, which may be missing: a letter, then a sign and digits, both optional. -/
inductive IsExponent : List Char → Prop
  | missing : IsExponent []
  | letter {c : Char} {sign digits : List Char} (hc : c = 'e' ∨ c = 'E')
      (hs : sign = [] ∨ sign = ['+'] ∨ sign = ['-']) (hd : ∀ d ∈ digits, d.isDigit) :
      IsExponent (c :: (sign ++ digits))

/-- Digits, at least one, then a point and an exponent, both of which may be missing. -/
inductive IsIntegral : List Char → Prop
  | mk {digits point exponent : List Char} (hne : digits ≠ []) (hd : ∀ d ∈ digits, d.isDigit)
      (hp : point = [] ∨ point = ['.']) (he : IsExponent exponent) :
      IsIntegral (digits ++ (point ++ exponent))

/-- Of the runs of that kind that a text starts with, `x` is the longest. -/
structure IsLongestIntegral (x cs : List Char) : Prop where
  isIntegral : IsIntegral x
  isPrefix : x <+: cs
  length_le : ∀ x', IsIntegral x' → x' <+: cs → x'.length ≤ x.length

/-- No lexeme stands at the start of the text. -/
def NoneStarts (cs : List Char) : Prop := ∀ kind x, Spells kind x → ¬ x <+: cs

/-- What is refused of a text at whose start no lexeme stands. -/
inductive Refused (c : Char) (r : List Char) : SyntaxFault → List Char → Prop
  | digits {x : List Char} (hc : c.isDigit) (hx : IsLongestIntegral x (c :: r)) :
      Refused c r .fractionMissing x
  | character (hc : c.isDigit = false) : Refused c r .strayCharacter [c]

variable {c : Char} {r x cs : List Char} {fault : SyntaxFault}

/-! ## The longest run behind digits -/

theorem sign_eq (cs : List Char) : sign cs = [] ∨ sign cs = ['+'] ∨ sign cs = ['-'] := by
  unfold sign
  split <;> simp

theorem sign_of_isDigit (hc : c.isDigit) : sign (c :: r) = [] := by
  unfold sign
  split
  · next h => cases h; exact absurd hc (by decide)
  · next h => cases h; exact absurd hc (by decide)
  · rfl

theorem isExponent_exponent (cs : List Char) : IsExponent (exponent cs) := by
  unfold exponent
  split
  · next c r =>
    split
    · next hc => exact .letter (by simpa using hc) (sign_eq r) mem_takeWhile_isDigit
    · exact .missing
  · exact .missing

theorem point_eq (cs : List Char) : point cs = [] ∨ point cs = ['.'] := by
  unfold point
  split <;> simp

theorem isIntegral_integral (h : integral cs ≠ []) : IsIntegral (integral cs) := by
  unfold integral at h ⊢
  split
  · next he => simp [he] at h
  · next he =>
    exact .mk (by simpa using he) mem_takeWhile_isDigit (point_eq _) (isExponent_exponent _)

/-- No exponent at the start of a text is longer than the one that is taken. -/
theorem IsExponent.isPrefix_exponent (hx : IsExponent x) (h : x <+: cs) : x <+: exponent cs := by
  cases hx with
  | missing => exact List.nil_prefix
  | @letter c sign digits hc hs hd =>
    obtain ⟨rest, rfl⟩ := h
    have hletter : (c == 'e' || c == 'E') = true := by simpa using hc
    rw [List.cons_append, exponent, if_pos hletter, List.cons_prefix_cons, List.append_assoc]
    refine ⟨rfl, ?_⟩
    have hdigits : digits <+: (digits ++ rest).takeWhile Char.isDigit :=
      isPrefix_takeWhile hd (List.prefix_append _ _)
    rcases hs with rfl | rfl | rfl
    · -- Without a sign, a digit stands behind the letter or nothing that is taken.
      cases digits with
      | nil => exact List.nil_prefix
      | cons d ds =>
        rw [List.nil_append, List.nil_append, List.cons_append,
          sign_of_isDigit (hd d List.mem_cons_self)]
        exact hdigits
    · exact List.cons_prefix_cons.mpr ⟨rfl, hdigits⟩
    · exact List.cons_prefix_cons.mpr ⟨rfl, hdigits⟩

/-- No point and exponent at the start of a text are longer than the ones that are taken. -/
theorem isPrefix_point_append_exponent {point' exponent' : List Char}
    (hp : point' = [] ∨ point' = ['.']) (he : IsExponent exponent')
    (h : point' ++ exponent' <+: cs) :
    point' ++ exponent' <+: point cs ++ exponent (cs.drop (point cs).length) := by
  rcases hp with rfl | rfl
  · cases he with
    | missing => exact List.nil_prefix
    | @letter c sign digits hc hs hd =>
      have hpoint : point cs = [] := by
        obtain ⟨rest, rfl⟩ := h
        rcases hc with rfl | rfl <;> rfl
      rw [hpoint]
      exact (IsExponent.letter hc hs hd).isPrefix_exponent h
  · obtain ⟨rest, rfl⟩ := h
    refine List.cons_prefix_cons.mpr ⟨rfl, ?_⟩
    exact he.isPrefix_exponent (List.prefix_append _ _)

theorem takeWhile_isPrefix_integral (cs : List Char) :
    cs.takeWhile Char.isDigit <+: integral cs := by
  unfold integral
  split
  · next he => simp [List.isEmpty_iff.mp he]
  · exact List.prefix_append _ _

/-- **Nothing longer can be taken together** with the digits at the start of a text. -/
theorem IsIntegral.isPrefix_integral (hx : IsIntegral x) (h : x <+: cs) : x <+: integral cs := by
  cases hx with
  | @mk digits point' exponent' hne hd hp he =>
    obtain ⟨rest, rfl⟩ := h
    by_cases hnil : point' ++ exponent' = []
    · have hdigits : digits <+: (digits ++ (point' ++ exponent') ++ rest).takeWhile Char.isDigit :=
        isPrefix_takeWhile hd (by rw [List.append_assoc]; exact List.prefix_append _ _)
      rw [hnil, List.append_nil] at hdigits ⊢
      exact hdigits.trans (takeWhile_isPrefix_integral _)
    · -- What follows the digits is none, so they are all that stand there.
      obtain ⟨d, ds, hds⟩ := List.exists_cons_of_ne_nil hnil
      have hdigit : ¬ d.isDigit := by
        rcases hp with rfl | rfl
        · cases he with
          | missing => cases hds
          | letter hc hs hd =>
            cases hds
            rcases hc with rfl | rfl <;> decide
        · cases hds
          decide
      have htake : (digits ++ (point' ++ exponent') ++ rest).takeWhile Char.isDigit = digits := by
        rw [List.append_assoc, List.takeWhile_append_of_pos hd, hds, List.cons_append,
          List.takeWhile_cons_of_neg hdigit, List.append_nil]
      have hdrop : (digits ++ (point' ++ exponent') ++ rest).dropWhile Char.isDigit =
          point' ++ exponent' ++ rest := by
        rw [List.append_assoc, List.dropWhile_append_of_pos hd, hds, List.cons_append,
          List.dropWhile_cons_of_neg hdigit]
      rw [integral, htake, hdrop, if_neg (by simpa using hne), List.prefix_append_right_inj]
      exact isPrefix_point_append_exponent hp he (List.prefix_append _ _)

theorem isLongestIntegral_integral (h : integral cs ≠ []) :
    IsLongestIntegral (integral cs) cs where
  isIntegral := isIntegral_integral h
  isPrefix := integral_isPrefix cs
  length_le _ hx' hp := (hx'.isPrefix_integral hp).length_le

theorem IsIntegral.ne_nil (hx : IsIntegral x) : x ≠ [] := by
  cases hx with
  | mk hne hd hp he => simp [hne]

/-- The longest run is the one that is taken. -/
theorem IsLongestIntegral.eq_integral (h : IsLongestIntegral x cs) : x = integral cs := by
  have hpre := h.isIntegral.isPrefix_integral h.isPrefix
  have hne : integral cs ≠ [] := by
    intro hnil
    rw [hnil] at hpre
    exact h.isIntegral.ne_nil (List.prefix_nil.mp hpre)
  exact hpre.eq_of_length_le (h.length_le _ (isIntegral_integral hne) (integral_isPrefix cs))

theorem integral_ne_nil_iff : integral (c :: r) ≠ [] ↔ c.isDigit := by
  unfold integral
  by_cases hc : c.isDigit
  · simp [hc]
  · simp [hc]

/-! ## What is refused -/

theorem Refused.eq_of_eq {fault' : SyntaxFault} {x' : List Char} (h : Refused c r fault x)
    (h' : Refused c r fault' x') : fault = fault' ∧ x = x' := by
  cases h with
  | digits hc hx =>
    cases h' with
    | digits _ hx' => exact ⟨rfl, hx.eq_integral.trans hx'.eq_integral.symm⟩
    | character hc' => rw [hc] at hc'; cases hc'
  | character hc =>
    cases h' with
    | digits hc' _ => rw [hc] at hc'; cases hc'
    | character _ => exact ⟨rfl, rfl⟩

theorem refused_of_read (h : read c r = .refused fault x) : Refused c r fault x := by
  unfold read at h
  dsimp only at h
  split at h
  · cases h
  split at h
  · cases h
  split at h
  · next hi =>
    cases h
    have hne : integral (c :: r) ≠ [] := by simpa using hi
    exact .digits (integral_ne_nil_iff.mp hne) (isLongestIntegral_integral hne)
  · next hi =>
    have hc : c.isDigit = false := by
      rw [← Bool.not_eq_true, ← integral_ne_nil_iff (r := r)]
      simpa using hi
    split at h
    · cases h
    · cases h
      exact .character hc

theorem exists_read_eq_refused (h : NoneStarts (c :: r)) : ∃ fault x, read c r = .refused fault x := by
  cases hread : read c r with
  | accepted kind y => exact absurd (isPrefix_of_read hread) (h kind y (spells_of_read hread))
  | refused fault y => exact ⟨fault, y, rfl⟩

/-- **What is refused** is what stands where no lexeme starts. -/
theorem read_eq_refused_iff :
    read c r = .refused fault x ↔ NoneStarts (c :: r) ∧ Refused c r fault x := by
  constructor
  · intro h
    refine ⟨fun kind y hy hp => ?_, refused_of_read h⟩
    obtain ⟨kind', y', hr, -⟩ := exists_read_of_spells hy hp
    rw [h] at hr
    cases hr
  · rintro ⟨hnone, hrefused⟩
    obtain ⟨fault', y, hread⟩ := exists_read_eq_refused hnone
    obtain ⟨rfl, rfl⟩ := (refused_of_read hread).eq_of_eq hrefused
    exact hread

theorem IsExponent.not_blank (hx : IsExponent x) : ∀ d ∈ x, isBlank d = false := by
  cases hx with
  | missing => simp
  | @letter c sign digits hc hs hd =>
    have hletter : isBlank c = false := by rcases hc with rfl | rfl <;> rfl
    refine List.forall_mem_cons.mpr ⟨hletter, List.forall_mem_append.mpr ⟨?_, ?_⟩⟩
    · rcases hs with rfl | rfl | rfl <;> simp [isBlank]
    · exact fun d hm => isBlank_eq_false_of_isDigit (hd d hm)

theorem IsIntegral.not_blank (hx : IsIntegral x) : ∀ d ∈ x, isBlank d = false := by
  cases hx with
  | mk hne hd hp he =>
    refine List.forall_mem_append.mpr ⟨fun d hm => isBlank_eq_false_of_isDigit (hd d hm), ?_⟩
    refine List.forall_mem_append.mpr ⟨?_, he.not_blank⟩
    rcases hp with rfl | rfl <;> simp [isBlank]

theorem Refused.isPrefix (h : Refused c r fault x) : x <+: c :: r := by
  cases h with
  | digits _ hx => exact hx.isPrefix
  | character _ => exact ⟨r, rfl⟩

theorem Refused.ne_nil (h : Refused c r fault x) : x ≠ [] := by
  cases h with
  | digits _ hx => exact hx.isIntegral.ne_nil
  | character _ => exact List.cons_ne_nil c []

/-- What is refused where no blank stands has no blank in it. -/
theorem Refused.not_blank (h : Refused c r fault x) (hc : isBlank c = false) :
    ∀ d ∈ x, isBlank d = false := by
  cases h with
  | digits _ hx => exact hx.isIntegral.not_blank
  | character _ => exact List.forall_mem_singleton.mpr hc

/-- Where no lexeme starts: no letter and no mark stands there, no `!` with a parenthesis behind it,
and no digits, nor none, with a point and a digit behind them. -/
theorem noneStarts_iff :
    NoneStarts (c :: r) ↔ isWordChar c = false ∧ c ∉ ['[', ']', '{', '}', ',', '=', ')'] ∧
      (c = '!' → r.head? ≠ some '(') ∧
      ∀ d rest, (c :: r).dropWhile Char.isDigit = '.' :: d :: rest → d.isDigit = false := by
  constructor
  · intro h
    have hfirst {kind : Token.Kind} : ¬ Spells kind [c] := fun hs => h kind [c] hs ⟨r, rfl⟩
    refine ⟨?_, ?_, ?_, ?_⟩
    · refine Bool.eq_false_iff.mpr fun hw => hfirst (spells_wordKind (by simp) ?_)
      exact List.forall_mem_singleton.mpr hw
    · simp only [List.mem_cons, List.not_mem_nil, or_false]
      rintro (rfl | rfl | rfl | rfl | rfl | rfl | rfl)
      · exact hfirst .openBracket
      · exact hfirst .closeBracket
      · exact hfirst .openBrace
      · exact hfirst .closeBrace
      · exact hfirst .comma
      · exact hfirst .equals
      · exact hfirst .closeReference
    · rintro rfl hr
      obtain ⟨rest, rfl⟩ := List.head?_eq_some_iff.mp hr
      exact h _ _ .openReference ⟨rest, rfl⟩
    · intro d rest hd
      refine Bool.eq_false_iff.mpr fun hdigit => ?_
      have hsplit := List.takeWhile_append_dropWhile (p := Char.isDigit) (l := c :: r)
      rw [hd] at hsplit
      refine h .number ((c :: r).takeWhile Char.isDigit ++ '.' :: [d]) (.number
        mem_takeWhile_isDigit (by simp) (List.forall_mem_singleton.mpr hdigit)) ⟨rest, ?_⟩
      simpa using hsplit
  · rintro ⟨hword, hmark, hopen, hnumber⟩ kind x hx hp
    cases hx with
    | name hne hx _ _ =>
      obtain ⟨d, ds, rfl⟩ := List.exists_cons_of_ne_nil hne
      obtain ⟨rfl, -⟩ := List.cons_prefix_cons.mp hp
      rw [hx d List.mem_cons_self] at hword
      cases hword
    | @number whole fraction hw hne hf =>
      obtain ⟨d, ds, rfl⟩ := List.exists_cons_of_ne_nil hne
      obtain ⟨rest, hcs⟩ := hp
      have hpoint : ¬ Char.isDigit '.' := by decide
      have hdrop : (c :: r).dropWhile Char.isDigit = '.' :: d :: (ds ++ rest) := by
        rw [← hcs, List.append_assoc, List.dropWhile_append_of_pos hw, List.cons_append,
          List.dropWhile_cons_of_neg hpoint, List.cons_append]
      have hd := hnumber d _ hdrop
      rw [hf d List.mem_cons_self] at hd
      cases hd
    | openReference =>
      obtain ⟨rest, hcs⟩ := hp
      cases hcs
      exact hopen rfl rfl
    | isWord | structWord =>
      obtain ⟨rfl, -⟩ := List.cons_prefix_cons.mp hp
      cases hword
    | openBracket | closeBracket | openBrace | closeBrace | comma | equals | closeReference =>
      obtain ⟨rfl, -⟩ := List.cons_prefix_cons.mp hp
      simp at hmark

/-- No lexeme starts with a character that is not ASCII. -/
theorem noneStarts_of_not_ascii (hc : 128 ≤ c.toNat) : NoneStarts (c :: r) := by
  intro kind x hx hp
  obtain ⟨d, ds, rfl⟩ := List.exists_cons_of_ne_nil hx.ne_nil
  obtain ⟨rfl, -⟩ := List.cons_prefix_cons.mp hp
  have := hx.toNat_lt d List.mem_cons_self
  omega

end Lexeme

/-! ## What is reported -/

theorem feed_notMem_of_not_blank {x : List Char} (h : ∀ c ∈ x, isBlank c = false) : '\n' ∉ x :=
  fun hm => absurd (h _ hm) (by decide)

/-- The error is about the text `c :: r`, which stands behind `before` and starts with no lexeme. If
a digit stands there, it is about a number without a fraction, as far as it goes, and otherwise about
the one character. The error points at the text that it is about, on one line. -/
structure SyntaxError.Refuses (e : SyntaxError) (before : List Char) (c : Char) (r : List Char) :
    Prop where
  start : e.span.start = behind before
  line : e.span.stop.line = e.span.start.line
  column : e.span.stop.column = e.span.start.column + e.token.utf8ByteSize
  offset : e.span.stop.offset = e.span.start.offset + e.token.utf8ByteSize
  ofDigit : c.isDigit = true → e.fault = .fractionMissing ∧
    e.detail = "Expected a number with a fractional part" ∧
    Lexeme.IsLongestIntegral e.token.toList (c :: r)
  ofOther : c.isDigit = false → e.fault = .strayCharacter ∧
    e.detail = "Unexpected character '" ++ String.singleton c ++ "'" ∧
    e.token = String.singleton c

namespace SyntaxError

variable {e : SyntaxError} {before r : List Char} {c : Char}

theorem Refuses.refused (h : e.Refuses before c r) :
    Lexeme.Refused c r e.fault e.token.toList := by
  cases hc : c.isDigit with
  | true =>
    obtain ⟨hfault, -, hx⟩ := h.ofDigit hc
    exact hfault ▸ .digits hc hx
  | false =>
    obtain ⟨hfault, -, htoken⟩ := h.ofOther hc
    rw [hfault, htoken, String.toList_singleton]
    exact .character hc

theorem Refuses.span_eq (h : e.Refuses before c r) (hc : isBlank c = false) :
    e.span = ⟨behind before, behind (before ++ e.token.toList)⟩ := by
  have hfeed := feed_notMem_of_not_blank (h.refused.not_blank hc)
  obtain ⟨fault, token, ⟨start, ⟨line, column, offset⟩⟩⟩ := e
  obtain ⟨rfl, hline, hcolumn, hoffset, -, -⟩ := h
  dsimp only at hline hcolumn hoffset hfeed ⊢
  rw [Position.behind_append_of_notMem before hfeed, byteLength_toList, hline, hcolumn, hoffset]

theorem refuses_of_refused {fault : SyntaxFault} {x : List Char} (hc : isBlank c = false)
    (h : Lexeme.Refused c r fault x) :
    Refuses ⟨fault, String.ofList x, ⟨behind before, behind (before ++ x)⟩⟩ before c r := by
  have hstop :=
    Position.behind_append_of_notMem before (feed_notMem_of_not_blank (h.not_blank hc))
  rw [byteLength_eq_utf8ByteSize] at hstop
  refine ⟨rfl, by rw [hstop], by rw [hstop], by rw [hstop], fun hdigit => ?_, fun hdigit => ?_⟩
  · cases h with
    | digits _ hx => exact ⟨rfl, rfl, by rwa [String.toList_ofList]⟩
    | character hc' => rw [hdigit] at hc'; cases hc'
  · cases h with
    | digits hc' _ => rw [hdigit] at hc'; cases hc'
    | character _ => exact ⟨rfl, rfl, rfl⟩

end SyntaxError

/-- **A reading fails** exactly if no lexeme stands behind the blanks. -/
theorem Cursor.next_eq_error_iff {before rest : List Char} {e : SyntaxError} :
    (⟨rest, behind before⟩ : Cursor).next = .error e ↔
      ∃ blanks c r, rest = blanks ++ c :: r ∧ (∀ b ∈ blanks, isBlank b) ∧ isBlank c = false ∧
        Lexeme.NoneStarts (c :: r) ∧ e.Refuses (before ++ blanks) c r := by
  constructor
  · intro h
    obtain ⟨blanks, rest', rfl, hb, hhead, hskip⟩ := exists_skipBlanks_behind before rest
    cases Next.of_eq h with
    | @refused c r x fault hr hx =>
      rw [hskip] at hr ⊢
      dsimp only at hr
      subst hr
      obtain ⟨hnone, hrefused⟩ := Lexeme.read_eq_refused_iff.mp hx
      refine ⟨blanks, c, r, rfl, hb, hhead c rfl, hnone, ?_⟩
      rw [span, after_behind]
      exact SyntaxError.refuses_of_refused (hhead c rfl) hrefused
  · rintro ⟨blanks, c, r, rfl, hb, hc, hnone, hrefuses⟩
    have hhead : ∀ d ∈ (c :: r).head?, isBlank d = false := by
      rintro d ⟨⟩
      exact hc
    have hread := Lexeme.read_eq_refused_iff.mpr ⟨hnone, hrefuses.refused⟩
    rw [next, skipBlanks_behind before hb hhead, nextHere]
    simp only [hread, span, after_behind, ← hrefuses.span_eq hc, String.ofList_toList]

theorem tokenize_eq_error_iff_ending {text : String} {e : SyntaxError} :
    tokenize text = .error e ↔ (TokenStream.ofText text).ending = .error e := by
  unfold tokenize TokenStream.toList
  cases (TokenStream.ofText text).ending <;> simp [Except.map]

/-- **A text has no tokens** if and only if, taken apart into blanks and longest lexemes, it comes to
a place where something stands that starts with no lexeme. What is reported is about the text there:
a number without a fraction, as far as it goes, if it starts with a digit, and otherwise its first
character. The second part says where no lexeme starts, and the third that a character which is not
ASCII is such a place. -/
theorem tokenize_eq_error_iff (text : String) (e : SyntaxError) :
    (tokenize text = .error e ↔
      ∃ tokens before blanks c r, Splits [] text.toList tokens before (blanks ++ c :: r) ∧
        (∀ b ∈ blanks, isBlank b) ∧ isBlank c = false ∧ Lexeme.NoneStarts (c :: r) ∧
        e.Refuses (before ++ blanks) c r) ∧
    (∀ c r, Lexeme.NoneStarts (c :: r) ↔
      isWordChar c = false ∧ c ∉ ['[', ']', '{', '}', ',', '=', ')'] ∧
        (c = '!' → r.head? ≠ some '(') ∧
        ∀ d rest, (c :: r).dropWhile Char.isDigit = '.' :: d :: rest → d.isDigit = false) ∧
    ∀ c r, 128 ≤ c.toNat → Lexeme.NoneStarts (c :: r) := by
  refine ⟨?_, fun c r => Lexeme.noneStarts_iff, fun c r => Lexeme.noneStarts_of_not_ascii⟩
  rw [tokenize_eq_error_iff_ending]
  constructor
  · intro h
    obtain ⟨before, rest, hsplits, hstream⟩ := exists_splits_ofText text
    rw [h] at hstream
    cases Cursor.Streams.of_eq hstream with
    | refused hn =>
      obtain ⟨blanks, c, r, rfl, hrest⟩ := Cursor.next_eq_error_iff.mp hn
      exact ⟨_, before, blanks, c, r, hsplits, hrest⟩
  · rintro ⟨tokens, before, blanks, c, r, hsplits, hrest⟩
    have hreads := Cursor.reads_iff_splits.mpr ⟨before, _, rfl, hsplits⟩
    have hn := Cursor.next_eq_error_iff.mpr ⟨blanks, c, r, rfl, hrest⟩
    have hstream := hreads.stream_eq
    rw [Cursor.stream_of_next_error hn] at hstream
    exact congrArg TokenStream.ending hstream

/-- A point, a letter and a sign are taken with the digits, but no second point. -/
example : tokenize "x 1.e+.5" = .error ⟨.fractionMissing, "1.e+", ⟨⟨0, 2, 2⟩, ⟨0, 6, 6⟩⟩⟩ := by cbv

end ConstLang
