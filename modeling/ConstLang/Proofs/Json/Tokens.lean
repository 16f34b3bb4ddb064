/-
The tokens of what is written. The layout has no part in them: `tokens?_write` says of each
value which marks, strings and words its text is made of, however it is laid out. A string that
is written is the string that is read, `string?_escaped`, and the text of a number is one word,
`word?_writeNumber`.
-/
import ConstLang.Json
import ConstLang.Proofs.Binary64.Numeral
import ConstLang.Proofs.Json.Document

namespace ConstLang

namespace Json

/-! ## Strings -/

/-- A string goes on behind an escape. -/
theorem string?_escape {cs rest : List Char} {c : Char} (h : unescape? cs = some (c, rest)) :
    string? ('\\' :: cs) = (string? rest).map fun (s, rest) => (c :: s, rest) := by
  rw [string?]
  simp only [Char.reduceEq, ↓reduceIte]
  split
  · next h' =>
    rw [h] at h'
    cases h'
    rfl
  · next h' =>
    rw [h] at h'
    cases h'

theorem string?_plain {c : Char} (hq : c ≠ '"') (hb : c ≠ '\\') (hc : ¬ c.toNat < 0x20)
    (cs : List Char) :
    string? (c :: cs) = (string? cs).map fun (s, rest) => (c :: s, rest) := by
  rw [string?, if_neg hq, if_neg hb, if_neg hc]

theorem hexValue?_hexDigit : ∀ n < 16, hexValue? (hexDigit n) = some n := by decide

/-- A control character is read from the two digits that are written for it. -/
theorem unescape?_control {c : Char} (hc : c.toNat < 0x20) (rest : List Char) :
    unescape? ('u' :: '0' :: '0' :: hexDigit (c.toNat / 16) :: hexDigit (c.toNat % 16) :: rest) =
      some (c, rest) := by
  have hhigh := hexValue?_hexDigit (c.toNat / 16) (by omega)
  have hlow := hexValue?_hexDigit (c.toNat % 16) (by omega)
  have hzero : hexValue? '0' = some 0 := rfl
  have hunit : codeUnit? ('0' :: '0' :: hexDigit (c.toNat / 16) :: hexDigit (c.toNat % 16) ::
      rest) = some (c.toNat, rest) := by
    simp [codeUnit?, hhigh, hlow, hzero]
    omega
  have hsmall : c.toNat < 0xd800 ∨ 0xdfff < c.toNat := .inl (by omega)
  rw [unescape?, unicode?, hunit, Option.bind_eq_bind, Option.bind_some]
  simp only [hsmall, ↓reduceIte, Char.ofNat_toNat]

theorem string?_escape_append (c : Char) (cs : List Char) :
    string? (escape c ++ cs) = (string? cs).map fun (s, rest) => (c :: s, rest) := by
  unfold escape
  split
  case h_8 hq hb _ _ _ _ _ =>
    split
    · next hc => exact string?_escape (unescape?_control hc cs)
    · next hc => exact string?_plain hq hb hc cs
  all_goals exact string?_escape rfl

/-- The quote, the backslash and the control characters are escaped, and nothing else is. -/
theorem escape_eq_self_iff {c : Char} :
    escape c = [c] ↔ c ≠ '"' ∧ c ≠ '\\' ∧ ¬ c.toNat < 0x20 := by
  unfold escape
  split
  case h_8 hq hb _ _ _ _ _ =>
    split
    · next hc => simp [hc]
    · next hc => exact iff_of_true rfl ⟨hq, hb, hc⟩
  all_goals decide

/-- **The string that is written is read**, with what follows it. -/
theorem string?_escaped (cs rest : List Char) :
    string? (cs.flatMap escape ++ '"' :: rest) = some (cs, rest) := by
  induction cs with
  | nil => simp [string?]
  | cons c cs ih => rw [List.flatMap_cons, List.append_assoc, string?_escape_append, ih]; rfl

/-! ## Words -/

theorem isWordChar_iff {c : Char} :
    isWordChar c ↔ isBlank c = false ∧ mark? c = none ∧ c ≠ '"' := by
  simp [isWordChar, and_assoc]

theorem isWordChar_of_isDigit {c : Char} (h : c.isDigit) : isWordChar c := by
  refine isWordChar_iff.mpr ⟨?_, ?_, ?_⟩
  · cases hb : isBlank c with
    | false => rfl
    | true =>
      simp only [isBlank, Bool.or_eq_true, beq_iff_eq] at hb
      rcases hb with ((rfl | rfl) | rfl) | rfl <;> exact absurd h (by decide)
  · unfold mark?
    split <;> first | rfl | exact absurd h (by decide)
  · intro h'
    subst h'
    exact absurd h (by decide)

/-- What stands behind a word ends it. -/
def EndsWord (cs : List Char) : Prop := ∀ c ∈ cs.head?, ¬ isWordChar c

theorem tokens?_word {word rest : List Char} (hne : word ≠ []) (hw : ∀ c ∈ word, isWordChar c)
    (hr : EndsWord rest) : tokens? (word ++ rest) = (tokens? rest).map (.word word :: ·) := by
  obtain ⟨c, cs, rfl⟩ := List.exists_cons_of_ne_nil hne
  obtain ⟨hblank, hmark, hquote⟩ := isWordChar_iff.mp (hw c List.mem_cons_self)
  have hcs : ∀ c ∈ cs, isWordChar c := fun c hc => hw c (List.mem_cons_of_mem _ hc)
  rw [List.cons_append, tokens?, hmark]
  simp only [hblank, hquote, ↓reduceIte, Bool.false_eq_true,
    Numeral.takeWhile_append_of_ends hcs hr, Numeral.dropWhile_append_of_ends hcs hr]

theorem isDigits_of_allDigits {ds : List Char} (hne : ds ≠ []) (hd : Numeral.AllDigits ds) :
    isDigits ds := by
  simp [isDigits, hne]
  exact hd

theorem isExponent_text (e : Option Int) : isExponent (Numeral.Parts.exponentText e) := by
  cases e with
  | none => rfl
  | some e =>
    have hd := isDigits_of_allDigits Nat.toDigits_ne_nil (Numeral.allDigits_toDigits e.natAbs)
    rw [Numeral.Parts.exponentText, isExponent, Numeral.splitSign_repr, hd]
    rfl

theorem isNumberEnd_text {ds : List Char} (hd : Numeral.AllDigits ds) (e : Option Int) :
    isNumberEnd (Numeral.Parts.fractionText ds ++ Numeral.Parts.exponentText e) := by
  have hexp := isExponent_text e
  cases ds with
  | nil => cases e <;> exact hexp
  | cons d ds =>
    have hends := Numeral.Parts.endsDigits_exponentText e
    have ht := Numeral.takeWhile_append_of_ends hd hends
    have hr := Numeral.dropWhile_append_of_ends hd hends
    show (!((d :: ds ++ _).takeWhile Char.isDigit).isEmpty &&
      isExponent ((d :: ds ++ _).dropWhile Char.isDigit)) = true
    rw [ht, hr, hexp]
    rfl

theorem isUnsignedNumber_text {p : Numeral.Parts} (h : p.WellFormed) : isUnsignedNumber p.text := by
  have hends := Numeral.Parts.endsDigits_fractionText p.fraction p.exponent
  have hwhole : isWhole p.whole := by
    rcases h.leading with hw | ⟨c, cs, hw, hc⟩
    · rw [hw]
      rfl
    · simp [isWhole, hw, hc]
  rw [Numeral.Parts.text, isUnsignedNumber, Numeral.takeWhile_append_of_ends h.whole hends,
    Numeral.dropWhile_append_of_ends h.whole hends, hwhole, isNumberEnd_text h.fraction]
  rfl

theorem isNumber_write {x : Binary64} (hx : x.isFinite) : isNumber (Numeral.write x) := by
  obtain ⟨p, hp, hw | hw⟩ := Numeral.exists_parts_write hx
  · obtain ⟨c, cs, hcons, hc⟩ := hp.exists_text_eq_cons
    have hminus : c ≠ '-' := by
      intro h
      subst h
      exact absurd hc (by decide)
    have hunsigned := isUnsignedNumber_text hp
    rw [hw]
    rw [hcons] at hunsigned ⊢
    simpa [isNumber, hminus] using hunsigned
  · rw [hw]
    exact isUnsignedNumber_text hp

theorem isWordChar_of_mem_write {x : Binary64} (hx : x.isFinite) :
    ∀ c ∈ Numeral.write x, isWordChar c := by
  intro c hc
  obtain hdigit | rfl | rfl | rfl := Numeral.isNumeralChar_of_mem_write hx c hc
  · exact isWordChar_of_isDigit hdigit
  all_goals rfl

/-- A number is never written as a whole number. -/
theorem mem_write {x : Binary64} (hx : x.isFinite) :
    '.' ∈ Numeral.write x ∨ 'e' ∈ Numeral.write x := by
  obtain ⟨p, hp, hw⟩ := Numeral.exists_parts_write hx
  have hmarked : '.' ∈ p.text ∨ 'e' ∈ p.text := by
    rcases hp.marked with hf | he
    · simp [Numeral.Parts.text, Numeral.Parts.fractionText_of_ne_nil hf]
    · obtain ⟨e, he⟩ := Option.isSome_iff_exists.mp he
      simp [Numeral.Parts.text, Numeral.Parts.exponentText, he]
  rcases hw with hw | hw
  · rw [hw]
    exact hmarked
  · rw [hw]
    exact hmarked.imp (List.mem_cons_of_mem _) (List.mem_cons_of_mem _)

theorem word?_of_isNumber {word : List Char} (h : isNumber word) :
    word? word = some (.number word) := by
  rw [word?, if_neg, if_neg, if_neg, if_pos h]
  all_goals
    intro h'
    subst h'
    exact absurd h (by decide)

/-- The document that the text of a number is. -/
def Document.ofNumber (x : Binary64) : Document :=
  if x.isFinite then .number (Numeral.write x) else .null

theorem word?_writeNumber (x : Binary64) : word? (writeNumber x) = some (.ofNumber x) := by
  unfold writeNumber Document.ofNumber
  split
  · next hx => exact word?_of_isNumber (isNumber_write hx)
  · rfl

theorem writeNumber_ne_nil (x : Binary64) : writeNumber x ≠ [] := by
  intro h
  have hword := word?_writeNumber x
  rw [h] at hword
  exact absurd hword (by simp [word?, isNumber, isUnsignedNumber, isWhole])

theorem isWordChar_of_mem_writeNumber (x : Binary64) : ∀ c ∈ writeNumber x, isWordChar c := by
  unfold writeNumber
  split
  · next hx => exact isWordChar_of_mem_write hx
  · exact List.all_eq_true.mp rfl

theorem tokens?_writeNumber (x : Binary64) {rest : List Char} (hr : EndsWord rest) :
    tokens? (writeNumber x ++ rest) = (tokens? rest).map (.word (writeNumber x) :: ·) :=
  tokens?_word (writeNumber_ne_nil x) (isWordChar_of_mem_writeNumber x) hr

/-! ## Texts of values -/

theorem tokens?_mark {c : Char} {m : Mark} (h : mark? c = some m) (cs : List Char) :
    tokens? (c :: cs) = (tokens? cs).map (.mark m :: ·) := by
  have hc : isBlank c = false ∧ c ≠ '"' := by
    unfold mark? at h
    split at h <;> cases h <;> decide
  rw [tokens?, h]
  simp only [hc.1, hc.2, ↓reduceIte, Bool.false_eq_true]

theorem tokens?_blanks {bs : List Char} (hb : ∀ c ∈ bs, isBlank c) (cs : List Char) :
    tokens? (bs ++ cs) = tokens? cs := by
  induction bs with
  | nil => rfl
  | cons b bs ih =>
    obtain ⟨hb, hbs⟩ := List.forall_mem_cons.mp hb
    rw [List.cons_append, tokens?, if_pos hb, ih hbs]

theorem isBlank_of_mem_newline (layout : Layout) (depth : Nat) :
    ∀ c ∈ layout.newline depth, isBlank c := by
  cases layout with
  | compact => simp [Layout.newline]
  | pretty =>
    refine List.forall_mem_cons.mpr ⟨rfl, ?_⟩
    intro c hc
    rw [List.eq_of_mem_replicate hc]
    rfl

theorem tokens?_newline (layout : Layout) (depth : Nat) (cs : List Char) :
    tokens? (layout.newline depth ++ cs) = tokens? cs :=
  tokens?_blanks (isBlank_of_mem_newline layout depth) cs

theorem tokens?_colon (layout : Layout) (cs : List Char) :
    tokens? (layout.colon ++ cs) = (tokens? cs).map (.mark .colon :: ·) := by
  cases layout with
  | compact => exact tokens?_mark rfl cs
  | pretty =>
    have hspace : tokens? ([' '] ++ cs) = tokens? cs := tokens?_blanks (List.all_eq_true.mp rfl) cs
    rw [← hspace]
    exact tokens?_mark rfl _

theorem tokens?_string (s : String) (cs : List Char) :
    tokens? (writeString s ++ cs) = (tokens? cs).map (.string s :: ·) := by
  have hs : string? (s.toList.flatMap escape ++ ['"'] ++ cs) = some (s.toList, cs) := by
    rw [List.append_assoc]
    exact string?_escaped _ _
  rw [writeString, List.cons_append, tokens?, if_neg (by decide), if_pos rfl]
  split
  · next hs' =>
    rw [hs] at hs'
    cases hs'
    rw [String.ofList_toList]
  · next hs' =>
    rw [hs] at hs'
    cases hs'

theorem endsWord_cons {c : Char} (hc : isWordChar c = false) (cs : List Char) :
    EndsWord (c :: cs) := by
  intro d hd
  cases hd
  simp [hc]

theorem endsWord_newline (layout : Layout) (depth : Nat) {c : Char}
    (hc : isWordChar c = false) (cs : List Char) :
    EndsWord (layout.newline depth ++ c :: cs) := by
  cases layout with
  | compact => exact endsWord_cons hc cs
  | pretty => exact endsWord_cons rfl _

theorem endsWord_writeElements (layout : Layout) (depth : Nat) (vs : List Value)
    {rest : List Char} (hr : EndsWord rest) :
    EndsWord (writeElements layout depth vs rest) := by
  cases vs with
  | nil => exact hr
  | cons v vs => exact endsWord_cons rfl _

theorem endsWord_writeFields (layout : Layout) (depth : Nat) (fs : List (String × Value))
    {rest : List Char} (hr : EndsWord rest) :
    EndsWord (writeFields layout depth fs rest) := by
  cases fs with
  | nil => exact hr
  | cons f fs => exact endsWord_cons rfl _

mutual

/-- The tokens of a value, and what follows them. -/
def valueTokens : Value → List Token → List Token
  | .number x, rest => .word (writeNumber x) :: rest
  | .array [], rest => .mark .openArray :: .mark .closeArray :: rest
  | .array (v :: vs), rest =>
    .mark .openArray :: valueTokens v (elementTokens vs (.mark .closeArray :: rest))
  | .struct ⟨[]⟩, rest => .mark .openObject :: .mark .closeObject :: rest
  | .struct ⟨(name, v) :: fs⟩, rest =>
    .mark .openObject :: .string name :: .mark .colon ::
      valueTokens v (fieldTokens fs (.mark .closeObject :: rest))

def elementTokens : List Value → List Token → List Token
  | [], rest => rest
  | v :: vs, rest => .mark .comma :: valueTokens v (elementTokens vs rest)

def fieldTokens : List (String × Value) → List Token → List Token
  | [], rest => rest
  | (name, v) :: fs, rest =>
    .mark .comma :: .string name :: .mark .colon :: valueTokens v (fieldTokens fs rest)

end

mutual

/-- **Both layouts have the tokens of the value.** -/
theorem tokens?_write (layout : Layout) (depth : Nat) :
    ∀ (v : Value) {rest : List Char}, EndsWord rest →
      tokens? (write layout depth v rest) = (tokens? rest).map (valueTokens v)
  | .number x, rest, hr => tokens?_writeNumber x hr
  | .array [], rest, hr => by
    rw [write, tokens?_mark rfl, tokens?_mark rfl, Option.map_map]
    rfl
  | .array (v :: vs), rest, hr => by
    have hclose : EndsWord (layout.newline depth ++ ']' :: rest) :=
      endsWord_newline layout depth rfl rest
    rw [write, tokens?_mark rfl, tokens?_newline,
      tokens?_write layout _ v (endsWord_writeElements layout _ vs hclose),
      tokens?_writeElements layout _ vs hclose, tokens?_newline, tokens?_mark rfl]
    simp only [Option.map_map]
    rfl
  | .struct ⟨[]⟩, rest, hr => by
    rw [write, tokens?_mark rfl, tokens?_mark rfl, Option.map_map]
    rfl
  | .struct ⟨(name, v) :: fs⟩, rest, hr => by
    have hclose : EndsWord (layout.newline depth ++ '}' :: rest) :=
      endsWord_newline layout depth rfl rest
    rw [write, tokens?_mark rfl, tokens?_newline, tokens?_string, tokens?_colon,
      tokens?_write layout _ v (endsWord_writeFields layout _ fs hclose),
      tokens?_writeFields layout _ fs hclose, tokens?_newline, tokens?_mark rfl]
    simp only [Option.map_map]
    rfl

theorem tokens?_writeElements (layout : Layout) (depth : Nat) :
    ∀ (vs : List Value) {rest : List Char}, EndsWord rest →
      tokens? (writeElements layout depth vs rest) = (tokens? rest).map (elementTokens vs)
  | [], rest, hr => by
    rw [writeElements]
    exact Option.map_id'.symm
  | v :: vs, rest, hr => by
    rw [writeElements, tokens?_mark rfl, tokens?_newline,
      tokens?_write layout depth v (endsWord_writeElements layout depth vs hr),
      tokens?_writeElements layout depth vs hr]
    simp only [Option.map_map]
    rfl

theorem tokens?_writeFields (layout : Layout) (depth : Nat) :
    ∀ (fs : List (String × Value)) {rest : List Char}, EndsWord rest →
      tokens? (writeFields layout depth fs rest) = (tokens? rest).map (fieldTokens fs)
  | [], rest, hr => by
    rw [writeFields]
    exact Option.map_id'.symm
  | (name, v) :: fs, rest, hr => by
    rw [writeFields, tokens?_mark rfl, tokens?_newline, tokens?_string, tokens?_colon,
      tokens?_write layout depth v (endsWord_writeFields layout depth fs hr),
      tokens?_writeFields layout depth fs hr]
    simp only [Option.map_map]
    rfl

end

end Json

end ConstLang
