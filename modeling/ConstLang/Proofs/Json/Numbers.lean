/-
Numbers that are written alike in JSON and in the language. The language has digits around a point
and nothing else: no sign (`noneStarts_minus`), and no exponent, which is either taken for a part of
a malformed number (`noneStarts_exponent`) or left over (`exists_parse_error_of_number`). So the JSON
text of a number compiles, to the number itself, if the number is not negative and is written
without an exponent, `compile_toJson_number`.
-/
import ConstLang.Json
import ConstLang.Proofs.Binary64.Rational
import ConstLang.Proofs.Program.Success
import ConstLang.Proofs.Spacing
import ConstLang.Proofs.Token.Refusal

namespace ConstLang

namespace Numeral

open Binary64 (units units_le_iff units_lt_iff)

/-! ## Digits around a point -/

theorem spells_positional {digits : List Char} (h : Leading digits) (point : Int) :
    Lexeme.Spells .number (positional digits point) := by
  obtain ⟨d, ds, rfl, -⟩ := h.leading
  unfold positional
  split
  · have hfraction := (allDigits_zeros (-point).toNat).append h.all
    exact .number (allDigits_zeros 1) (by simp) hfraction
  · split
    · have hwhole := h.all.append (allDigits_zeros (point.toNat - (d :: ds).length))
      exact .number hwhole (by simp) (allDigits_zeros 1)
    · next hlt =>
      have hne : (d :: ds).drop point.toNat ≠ [] := by
        rw [ne_eq, List.drop_eq_nil_iff]
        exact hlt
      exact .number (fun _ hc => h.all _ (List.mem_of_mem_take hc)) hne (h.all.drop _)

/-- Digits with an exponent are one digit with the letter behind it, or a number of the language
with the letter behind it. -/
theorem scientific_cases {digits : List Char} (h : Leading digits) (point : Int) :
    (∃ d rest, d.isDigit ∧ scientific digits point = d :: 'e' :: rest) ∨
      ∃ x rest, Lexeme.Spells .number x ∧ scientific digits point = x ++ 'e' :: rest := by
  obtain ⟨d, ds, rfl, -⟩ := h.leading
  have hd := h.all d List.mem_cons_self
  cases ds with
  | nil => exact .inl ⟨d, _, hd, rfl⟩
  | cons d' ds =>
    refine .inr ⟨[d] ++ '.' :: d' :: ds, (point - 1).repr.toList, ?_, by simp [scientific]⟩
    exact .number (by simpa using hd) (by simp) (h.all.drop 1)

/-- The number nearest to `1e-4` is above it, and the one before that is below. -/
theorem nearest_le_magnitude_iff {x : Binary64} :
    (Decimal.toBinary64 ⟨1, -4⟩ false).magnitude ≤ x.magnitude ↔ 2 ^ 1074 ≤ x.units * 10 ^ 4 := by
  have hnearest : (Decimal.toBinary64 ⟨1, -4⟩ false).magnitude = 0x3f1a36e2eb1c432c + 1 := by
    decide +kernel
  have habove : 2 ^ 1074 ≤ units (.ofBits 0x3f1a36e2eb1c432d) * 10 ^ 4 := by decide +kernel
  have hbelow : units (.ofBits 0x3f1a36e2eb1c432c) * 10 ^ 4 < 2 ^ 1074 := by decide +kernel
  rw [hnearest]
  constructor
  · intro h
    have hle : units (.ofBits 0x3f1a36e2eb1c432d) ≤ x.units := units_le_iff.mpr h
    exact habove.trans (Nat.mul_le_mul_right _ hle)
  · intro h
    refine Nat.lt_of_not_le fun hle => ?_
    have hle : x.units ≤ units (.ofBits 0x3f1a36e2eb1c432c) := units_le_iff.mpr hle
    exact Nat.not_lt.mpr h (Nat.lt_of_le_of_lt (Nat.mul_le_mul_right _ hle) hbelow)

/-- The number nearest to `1e16` is just that. -/
theorem magnitude_lt_nearest_iff {x : Binary64} :
    x.magnitude < (Decimal.toBinary64 ⟨1, 16⟩ false).magnitude ↔ x.units < 10 ^ 16 * 2 ^ 1074 := by
  have hexact : units (Decimal.toBinary64 ⟨1, 16⟩ false) = 10 ^ 16 * 2 ^ 1074 := by decide +kernel
  rw [← hexact, units_lt_iff]

/-- **Written without an exponent** are the numbers from `1e-4` up to `1e16`. -/
theorem isPositional_iff {x : Binary64} : isPositional x.magnitude ↔
    1 / 10 ^ 4 ≤ (x.units / 2 ^ 1074 : ℚ) ∧ (x.units / 2 ^ 1074 : ℚ) < 10 ^ 16 := by
  have hunit : (0 : ℚ) < 2 ^ 1074 := by positivity
  rw [isPositional, Bool.and_eq_true, decide_eq_true_iff, decide_eq_true_iff,
    nearest_le_magnitude_iff, magnitude_lt_nearest_iff, div_le_div_iff₀ (by positivity) hunit,
    div_lt_iff₀ hunit, one_mul]
  exact_mod_cast Iff.rfl

end Numeral

/-! ## Texts that start with a number -/

open Position (behind)

section

variable {x rest : List Char} {c : Char}

theorem Cursor.ofText_ofList (cs : List Char) : ofText (.ofList cs) = ⟨cs, behind []⟩ := by
  rw [ofText, String.toList_ofList]
  rfl

/-- A number at the start of a text, which no digit follows, is the first token. -/
theorem stream_of_number (hx : Lexeme.Spells .number x)
    (hr : ∀ c ∈ rest.head?, c.isDigit = false) :
    TokenStream.ofText (.ofList (x ++ rest)) =
      ⟨.spelled .number [] x :: (⟨rest, behind x⟩ : Cursor).stream.tokens,
        (⟨rest, behind x⟩ : Cursor).stream.ending⟩ := by
  have hnext : (⟨x ++ rest, behind []⟩ : Cursor).next =
      .ok (.spelled .number [] x, ⟨rest, behind x⟩) :=
    Cursor.next_of_isLongest (List.forall_mem_nil _) (Lexeme.isLongest_of_number hx hr)
  rw [TokenStream.ofText, Cursor.ofText_ofList]
  exact Cursor.stream_of_next_token hnext Token.Kind.noConfusion

/-- **A text that is one number has its value.** -/
theorem compile_of_number (hx : Lexeme.Spells .number x) {y : Binary64}
    (hy : Numeral.read (.ofList x) = .ok y) (options : Options) :
    compile options (.ofList x) = .ok ⟨.number y, {}⟩ := by
  have hnil : ∀ c ∈ ([] : List Char).head?, c.isDigit = false := by simp
  have hstream := stream_of_number hx hnil
  rw [List.append_nil, Cursor.stream_of_next_end (Cursor.next_of_rest_nil rfl) rfl] at hstream
  have hparse : Tree.parse (.ofList x) = .ok [.value (.number (.spelled .number [] x))] := by
    rw [Tree.parse, hstream]
    rfl
  have hnumber : (Token.spelled .number [] x).toNumber = .ok y :=
    Token.toNumber_eq_ok_iff.mpr ⟨rfl, hy⟩
  have hitem : Program.Item.ofTree (.value (.number (.spelled .number [] x))) =
      .ok (.value (.number y)) :=
    Program.Item.ofTree_value_eq_ok_iff.mpr
      ⟨_, Expr.ofTree_number_eq_ok_iff.mpr ⟨y, hnumber, rfl⟩, rfl⟩
  have hprogram : Program.ofTrees [.value (.number (.spelled .number [] x))] =
      .ok ⟨[], .number y⟩ := by
    rw [Program.ofTrees_eq_ok_iff, List.mapM_cons, hitem]
    rfl
  rw [compile_of_parse options hparse, hprogram]
  rfl

/-- **Nothing goes on behind a number** that is the main value. -/
theorem exists_parse_error_of_number (hx : Lexeme.Spells .number x) (hd : c.isDigit = false)
    (hb : isBlank c = false) : ∃ e, Tree.parse (.ofList (x ++ c :: rest)) = .error e := by
  have hr : ∀ d ∈ (c :: rest).head?, d.isDigit = false := by
    intro d h
    cases h
    exact hd
  rw [Tree.parse, stream_of_number hx hr]
  generalize hs : (⟨c :: rest, behind x⟩ : Cursor).stream = s
  cases Cursor.Streams.of_eq hs with
  | refused hn => exact ⟨_, rfl⟩
  | ended hn ht =>
    have hblank := (Cursor.blanks_of_next hn ht).1 c List.mem_cons_self
    rw [hb] at hblank
    cases hblank
  | token hn ht => exact ⟨_, rfl⟩

/-- A text is refused if no lexeme starts it. -/
theorem exists_parse_error_of_noneStarts (hb : isBlank c = false)
    (h : Lexeme.NoneStarts (c :: rest)) : ∃ e, Tree.parse (.ofList (c :: rest)) = .error e := by
  have hhead : ∀ d ∈ (c :: rest).head?, isBlank d = false := by
    intro d h
    cases h
    exact hb
  have hskip := Cursor.skipBlanks_behind [] (List.forall_mem_nil _) hhead
  obtain ⟨fault, x, hread⟩ := Lexeme.exists_read_eq_refused h
  have hnext : (⟨c :: rest, behind []⟩ : Cursor).next =
      .error ⟨fault, .ofList x, (⟨c :: rest, behind []⟩ : Cursor).span x⟩ := by
    rw [List.nil_append] at hskip
    rw [Cursor.next, hskip, Cursor.nextHere]
    simp only [hread]
    rfl
  rw [Tree.parse, TokenStream.ofText, Cursor.ofText_ofList, Cursor.stream_of_next_error hnext]
  exact ⟨_, rfl⟩

/-- No lexeme starts with a minus. -/
theorem noneStarts_minus : Lexeme.NoneStarts ('-' :: rest) :=
  Lexeme.noneStarts_iff.mpr ⟨rfl, by decide, fun h => absurd h (by decide), by simp⟩

/-- No lexeme starts with digits that no point follows. -/
theorem noneStarts_exponent (hd : c.isDigit) : Lexeme.NoneStarts (c :: 'e' :: rest) := by
  refine Lexeme.noneStarts_iff.mpr ⟨isWordChar_eq_false_of_isDigit hd, ?_, ?_, ?_⟩
  · intro hm
    simp only [List.mem_cons, List.not_mem_nil, or_false] at hm
    rcases hm with rfl | rfl | rfl | rfl | rfl | rfl | rfl <;> exact absurd hd (by decide)
  · intro h
    subst h
    exact absurd hd (by decide)
  · have he : ¬ Char.isDigit 'e' := by decide
    simp [hd, he]

end

/-! ## Numbers -/

namespace Numeral

variable {x : Binary64}

/-- The text of a number that is not zero has the digits of a decimal with nothing in front. -/
theorem exists_writeMagnitude_eq (hx : x.isFinite) (h0 : x.magnitude ≠ 0) :
    ∃ digits point, Leading digits ∧ writeMagnitude x =
      if isPositional x.magnitude then positional digits point else scientific digits point := by
  have hc := Binary64.coefficient_pos h0 (Binary64.magnitude_shortest hx false)
  exact ⟨_, _, leading_toDigits hc, by rw [writeMagnitude, if_neg h0]⟩

theorem spells_writeMagnitude (hx : x.isFinite) (h : x.magnitude = 0 ∨ isPositional x.magnitude) :
    Lexeme.Spells .number (writeMagnitude x) := by
  by_cases h0 : x.magnitude = 0
  · rw [writeMagnitude, if_pos h0]
    exact .number (allDigits_zeros 1) (by simp) (allDigits_zeros 1)
  · obtain ⟨digits, point, hd, hw⟩ := exists_writeMagnitude_eq hx h0
    rw [hw, if_pos (h.resolve_left h0)]
    exact spells_positional hd point

/-- A number that is written with an exponent is no program. -/
theorem exists_parse_error_of_scientific (hx : x.isFinite) (h0 : x.magnitude ≠ 0)
    (h : ¬ isPositional x.magnitude) : ∃ e, Tree.parse (.ofList (writeMagnitude x)) = .error e := by
  obtain ⟨digits, point, hd, hw⟩ := exists_writeMagnitude_eq hx h0
  rw [hw, if_neg h]
  rcases scientific_cases hd point with ⟨d, rest, hdigit, ht⟩ | ⟨y, rest, hy, ht⟩
  · rw [ht]
    exact exists_parse_error_of_noneStarts (isBlank_eq_false_of_isDigit hdigit)
      (noneStarts_exponent hdigit)
  · rw [ht]
    exact exists_parse_error_of_number hy rfl rfl

/-- Not negative, and zero or between `1e-4` and `1e16`. -/
def IsPlain (x : Binary64) : Prop :=
  x.negative = false ∧ (x.toRat = 0 ∨ 1 / 10 ^ 4 ≤ x.toRat ∧ x.toRat < 10 ^ 16)

/-- Plain is what is written with neither a sign nor an exponent. -/
theorem isPlain_iff :
    IsPlain x ↔ x.negative = false ∧ (x.magnitude = 0 ∨ isPositional x.magnitude) := by
  refine and_congr_right fun hn => ?_
  rw [Binary64.toRat_eq_zero_iff, isPositional_iff, Binary64.toRat_of_not_negative hn]

theorem spells_write (hx : x.isFinite) (h : IsPlain x) : Lexeme.Spells .number (write x) := by
  obtain ⟨hn, h⟩ := isPlain_iff.mp h
  rw [write, hn, if_neg Bool.false_ne_true]
  exact spells_writeMagnitude hx h

theorem exists_parse_error_of_not_isPlain (hx : x.isFinite) (h : ¬ IsPlain x) :
    ∃ e, Tree.parse (.ofList (write x)) = .error e := by
  rw [isPlain_iff, not_and] at h
  rw [write]
  cases hn : x.negative with
  | true =>
    rw [if_pos rfl]
    exact exists_parse_error_of_noneStarts rfl noneStarts_minus
  | false =>
    obtain ⟨h0, hp⟩ := not_or.mp (h hn)
    rw [if_neg Bool.false_ne_true]
    exact exists_parse_error_of_scientific hx h0 hp

end Numeral

/-- **A number is written as the language has it** if it is not negative, and is zero or lies
between `1e-4` and `1e16`. Its JSON text then compiles to the number itself, without constants;
the text of any other finite number does not parse. -/
theorem compile_toJson_number (x : Binary64) (hx : x.isFinite) (layout : Json.Layout)
    (options : Options) :
    (∀ e, compile options ((Value.number x).toJson layout) = .ok e ↔
      Numeral.IsPlain x ∧ e = ⟨.number x, {}⟩) ∧
    ((∃ fault, compile options ((Value.number x).toJson layout) = .error (.malformed fault)) ↔
      ¬ Numeral.IsPlain x) := by
  have htext : (Value.number x).toJson layout = .ofList (Numeral.write x) := by
    rw [Value.toJson, Json.write, List.append_nil, Json.writeNumber, if_pos hx]
  rw [htext]
  by_cases h : Numeral.IsPlain x
  · rw [compile_of_number (Numeral.spells_write hx h) (Numeral.read_write hx)]
    exact ⟨fun e => by simp [h, eq_comm], by simp [h]⟩
  · obtain ⟨fault, hparse⟩ := Numeral.exists_parse_error_of_not_isPlain hx h
    rw [compile_of_parse_error options hparse]
    exact ⟨fun e => by simp [h], by simp [h]⟩

/-- The bounds themselves: `1e-4` is plain, and `1e16` is not. -/
theorem compile_toJson_number_bounds :
    compile {} "0.0001" = .ok ⟨.number (.ofBits 0x3f1a36e2eb1c432d), {}⟩ ∧
    ∃ fault, compile {} "1e16" = .error (.malformed fault) := by
  have hlow : Binary64.isFinite (.ofBits 0x3f1a36e2eb1c432d) := by decide +kernel
  have hhigh : Binary64.isFinite (.ofBits 0x4341c37937e08000) := by decide +kernel
  have hlowText : Value.toJson (.number (.ofBits 0x3f1a36e2eb1c432d)) .compact = "0.0001" := by
    decide +kernel
  have hhighText : Value.toJson (.number (.ofBits 0x4341c37937e08000)) .compact = "1e16" := by
    decide +kernel
  have hplain : Numeral.IsPlain (.ofBits 0x3f1a36e2eb1c432d) :=
    Numeral.isPlain_iff.mpr (by decide +kernel)
  have hnot : ¬ Numeral.IsPlain (.ofBits 0x4341c37937e08000) :=
    mt Numeral.isPlain_iff.mp (by decide +kernel)
  constructor
  · rw [← hlowText]
    exact ((compile_toJson_number _ hlow .compact {}).1 _).mpr ⟨hplain, rfl⟩
  · rw [← hhighText]
    exact (compile_toJson_number _ hhigh .compact {}).2.mpr hnot

end ConstLang
