/-
The text of a number and what it says. `Numeral.Parts` are the digits around the point and the
exponent of an unsigned text; a text that is put together from them is read as the decimal they
stand for, `decimal?_text`. What is written has such parts, whether it has an exponent or not,
`exists_parts`. `read_write`: a finite number that is written is the number that is read.
`read_pointed`: digits around a point are read, whatever digits stand first.
-/
import ConstLang.Binary64.Numeral
import ConstLang.Proofs.Binary64.Exact

namespace ConstLang

namespace Numeral

/-! ## Digits -/

def AllDigits (cs : List Char) : Prop := ∀ c ∈ cs, c.isDigit

theorem allDigits_toDigits (n : Nat) : AllDigits (Nat.toDigits 10 n) :=
  fun _ hc => Nat.isDigit_of_mem_toDigits (by decide) (by decide) hc

theorem allDigits_zeros (n : Nat) : AllDigits (List.replicate n '0') := by
  intro c hc
  rw [List.eq_of_mem_replicate hc]
  rfl

theorem AllDigits.append {as bs : List Char} (ha : AllDigits as) (hb : AllDigits bs) :
    AllDigits (as ++ bs) := by
  intro c hc
  rcases List.mem_append.mp hc with h | h
  · exact ha c h
  · exact hb c h

/-- No digit stands first. -/
def EndsDigits (cs : List Char) : Prop := ∀ c ∈ cs.head?, ¬ c.isDigit

theorem takeWhile_append_of_ends {p : Char → Bool} {cs rest : List Char} (hc : ∀ c ∈ cs, p c)
    (hr : ∀ c ∈ rest.head?, ¬ p c) : (cs ++ rest).takeWhile p = cs := by
  rw [List.takeWhile_append_of_pos hc]
  cases rest with
  | nil => simp
  | cons c rest => rw [List.takeWhile_cons_of_neg (hr c rfl), List.append_nil]

theorem dropWhile_append_of_ends {p : Char → Bool} {cs rest : List Char} (hc : ∀ c ∈ cs, p c)
    (hr : ∀ c ∈ rest.head?, ¬ p c) : (cs ++ rest).dropWhile p = rest := by
  rw [List.dropWhile_append_of_pos hc]
  cases rest with
  | nil => rfl
  | cons c rest => rw [List.dropWhile_cons_of_neg (hr c rfl)]

theorem ofDigits_toDigits (n : Nat) : ofDigits (Nat.toDigits 10 n) = n :=
  Nat.ofDigitChars_toDigits (by decide) (by decide)

theorem ofDigits_zeros_append (k : Nat) (ds : List Char) :
    ofDigits (List.replicate k '0' ++ ds) = ofDigits ds := by
  rw [ofDigits, Nat.ofDigitChars_append, Nat.ofDigitChars_replicate_zero, Nat.mul_zero, ofDigits]

theorem ofDigits_append_zeros (k : Nat) (ds : List Char) :
    ofDigits (ds ++ List.replicate k '0') = ofDigits ds * 10 ^ k := by
  rw [ofDigits, Nat.ofDigitChars_append, Nat.ofDigitChars_replicate_zero, Nat.mul_comm, ofDigits]

/-- A written number has no zero in front of its other digits. -/
theorem exists_toDigits_eq_cons {n : Nat} (hn : 0 < n) :
    ∃ c cs, Nat.toDigits 10 n = c :: cs ∧ c ≠ '0' := by
  induction n using Nat.base_induction 10 (by decide) with
  | single m hm =>
    refine ⟨_, _, Nat.toDigits_of_lt_base hm, ?_⟩
    rw [ne_eq, Nat.digitChar_eq_zero]
    omega
  | digit m k hk hm ih =>
    obtain ⟨c, cs, h, hc⟩ := ih hm
    refine ⟨c, cs ++ Nat.toDigits 10 k, ?_, hc⟩
    rw [← Nat.toDigits_append_toDigits (by decide) hm hk, h]
    rfl

/-- Up to `65535`, nothing of the size of an exponent is left out. -/
theorem exponentOfDigits_toDigits {n : Nat} (hn : n < 65536) :
    exponentOfDigits (Nat.toDigits 10 n) = n := by
  induction n using Nat.base_induction 10 (by decide) with
  | single m hm =>
    rw [Nat.toDigits_of_lt_base hm]
    simp [exponentOfDigits, Nat.toNat_digitChar_of_lt_ten hm]
  | digit m k hk hm ih =>
    rw [← Nat.toDigits_append_toDigits (by decide) hm hk, Nat.toDigits_of_lt_base hk]
    have hm' : m < 65536 := by omega
    have := ih hm'
    rw [exponentOfDigits] at this ⊢
    rw [List.foldl_append, this]
    simp [hm', Nat.toNat_digitChar_of_lt_ten hk]

/-- What starts with a digit has no sign. -/
theorem splitSign_of_isDigit {c : Char} (hc : c.isDigit) (cs : List Char) :
    splitSign (c :: cs) = (false, c :: cs) := by
  unfold splitSign
  split
  · next h => cases h; exact absurd hc (by decide)
  · next h => cases h; exact absurd hc (by decide)
  · rfl

theorem splitSign_toDigits (n : Nat) :
    splitSign (Nat.toDigits 10 n) = (false, Nat.toDigits 10 n) := by
  have hd := allDigits_toDigits n
  cases h : Nat.toDigits 10 n with
  | nil => exact absurd h Nat.toDigits_ne_nil
  | cons c cs =>
    rw [h] at hd
    exact splitSign_of_isDigit (hd c List.mem_cons_self) cs

theorem splitSign_repr (e : Int) :
    splitSign e.repr.toList = (decide (e < 0), Nat.toDigits 10 e.natAbs) := by
  cases e with
  | ofNat n =>
    have hn : ¬ Int.ofNat n < 0 := by simp
    rw [Int.repr, Nat.toList_repr, splitSign_toDigits, decide_eq_false hn]
    rfl
  | negSucc n =>
    rw [Int.repr, String.toList_append, Nat.toList_repr, decide_eq_true (Int.negSucc_lt_zero n)]
    rfl

/-! ## Parts of a text -/

/-- The digits in front of the point and behind it, and the exponent if there is one. -/
structure Parts where
  whole : List Char
  fraction : List Char
  exponent : Option Int

namespace Parts

def exponentText : Option Int → List Char
  | none => []
  | some e => 'e' :: e.repr.toList

def fractionText : List Char → List Char
  | [] => []
  | c :: cs => '.' :: c :: cs

def text (p : Parts) : List Char :=
  p.whole ++ (fractionText p.fraction ++ exponentText p.exponent)

/-- The decimal that the parts stand for. -/
def decimal (p : Parts) : Decimal :=
  ⟨ofDigits (p.whole ++ p.fraction), p.exponent.getD 0 - p.fraction.length⟩

/-- The parts of a text that can be nothing but a number, and no whole number. -/
structure WellFormed (p : Parts) : Prop where
  whole : AllDigits p.whole
  fraction : AllDigits p.fraction
  /-- A zero stands first only by itself. -/
  leading : p.whole = ['0'] ∨ ∃ c cs, p.whole = c :: cs ∧ c ≠ '0'
  exponent_lt : ∀ e ∈ p.exponent, e.natAbs < 65536
  marked : p.fraction ≠ [] ∨ p.exponent.isSome

theorem WellFormed.whole_ne_nil {p : Parts} (h : p.WellFormed) : p.whole ≠ [] := by
  rcases h.leading with hw | ⟨c, cs, hw, -⟩ <;> simp [hw]

theorem endsDigits_exponentText (e : Option Int) : EndsDigits (exponentText e) := by
  intro c hc
  cases e with
  | none => cases hc
  | some e => cases hc; decide

theorem endsDigits_fractionText (ds : List Char) (e : Option Int) :
    EndsDigits (fractionText ds ++ exponentText e) := by
  cases ds with
  | nil => exact endsDigits_exponentText e
  | cons d ds =>
    intro c hc
    cases hc
    decide

theorem splitFraction_text {ds : List Char} (hd : AllDigits ds) (e : Option Int) :
    splitFraction (fractionText ds ++ exponentText e) = (ds, exponentText e) := by
  cases ds with
  | nil => cases e <;> rfl
  | cons d ds =>
    have ht := takeWhile_append_of_ends hd (endsDigits_exponentText e)
    have hr := dropWhile_append_of_ends hd (endsDigits_exponentText e)
    exact congrArg₂ Prod.mk ht hr

theorem exponent?_text {e : Option Int} (he : ∀ n ∈ e, n.natAbs < 65536) :
    exponent? (exponentText e) = some (e.getD 0) := by
  cases e with
  | none => rfl
  | some e =>
    have hsize := exponentOfDigits_toDigits (he e rfl)
    have hne : (Nat.toDigits 10 e.natAbs).isEmpty = false :=
      List.isEmpty_eq_false_iff.mpr Nat.toDigits_ne_nil
    have hall : (Nat.toDigits 10 e.natAbs).all Char.isDigit :=
      List.all_eq_true.mpr (allDigits_toDigits e.natAbs)
    rw [exponentText, exponent?, splitSign_repr]
    simp only [hsize, hne, hall, BEq.rfl, Bool.true_or, Bool.not_false, Bool.and_self, ↓reduceIte,
      decide_eq_true_eq, Option.getD_some, Option.some.injEq]
    split
    · next hneg => rw [Int.ofNat_natAbs_of_nonpos (Int.le_of_lt hneg), Int.neg_neg]
    · next hpos => exact Int.natAbs_of_nonneg (Int.not_lt.mp hpos)

/-- **A text is read as the decimal that its parts stand for.** -/
theorem decimal?_text {p : Parts} (h : p.WellFormed) : decimal? p.text = some p.decimal := by
  have hends := endsDigits_fractionText p.fraction p.exponent
  rw [text, decimal?, takeWhile_append_of_ends h.whole hends,
    dropWhile_append_of_ends h.whole hends, splitFraction_text h.fraction]
  simp [h.whole_ne_nil, exponent?_text h.exponent_lt, decimal]

theorem fractionText_of_ne_nil {ds : List Char} (h : ds ≠ []) : fractionText ds = '.' :: ds := by
  cases ds with
  | nil => exact absurd rfl h
  | cons d ds => rfl

end Parts

/-! ## What is written -/

/-- A text has parts, and the decimal they stand for reads as a given one does. -/
def Says (cs : List Char) (d : Decimal) : Prop :=
  ∃ p : Parts, p.WellFormed ∧ p.text = cs ∧ ∀ s, p.decimal.toBinary64 s = d.toBinary64 s

/-- Digits that no zero stands in front of. -/
structure Leading (digits : List Char) : Prop where
  all : AllDigits digits
  leading : ∃ d ds, digits = d :: ds ∧ d ≠ '0'

theorem leading_toDigits {n : Nat} (hn : 0 < n) : Leading (Nat.toDigits 10 n) :=
  ⟨allDigits_toDigits n, exists_toDigits_eq_cons hn⟩

theorem AllDigits.drop {ds : List Char} (h : AllDigits ds) (n : Nat) : AllDigits (ds.drop n) :=
  fun _ hc => h _ (List.mem_of_mem_drop hc)

theorem Leading.take {digits : List Char} (h : Leading digits) {n : Nat} (hn : 0 < n) :
    Leading (digits.take n) := by
  obtain ⟨d, ds, rfl, hd⟩ := h.leading
  obtain ⟨m, rfl⟩ := Nat.exists_eq_succ_of_ne_zero (Nat.ne_of_gt hn)
  exact ⟨fun _ hc => h.all _ (List.mem_of_mem_take hc), d, ds.take m, List.take_succ_cons, hd⟩

theorem Leading.append {digits more : List Char} (h : Leading digits) (hm : AllDigits more) :
    Leading (digits ++ more) := by
  obtain ⟨d, ds, rfl, hd⟩ := h.leading
  exact ⟨h.all.append hm, d, ds ++ more, rfl, hd⟩

theorem says_text {p : Parts} (hp : p.WellFormed) {c : Nat} {e : Int}
    (hc : ofDigits (p.whole ++ p.fraction) = c)
    (he : p.exponent.getD 0 - p.fraction.length = e) : Says p.text ⟨c, e⟩ := by
  refine ⟨p, hp, rfl, ?_⟩
  intro s
  rw [Parts.decimal, hc, he]

section

variable {digits : List Char}

theorem says_behind_zeros (h : Leading digits) (k : Nat) :
    Says ('0' :: '.' :: (List.replicate k '0' ++ digits))
      ⟨ofDigits digits, -(k + digits.length : Nat)⟩ := by
  have hne : List.replicate k '0' ++ digits ≠ [] := by
    obtain ⟨d, ds, rfl, -⟩ := h.leading
    simp
  have hp : Parts.WellFormed ⟨['0'], List.replicate k '0' ++ digits, none⟩ :=
    ⟨allDigits_zeros 1, (allDigits_zeros k).append h.all, .inl rfl, by simp, .inl hne⟩
  have hvalue : ofDigits (['0'] ++ (List.replicate k '0' ++ digits)) = ofDigits digits :=
    (ofDigits_zeros_append 1 _).trans (ofDigits_zeros_append k _)
  have hsays := says_text hp hvalue rfl
  rw [Parts.text, Parts.fractionText_of_ne_nil hne] at hsays
  simpa [Parts.exponentText] using hsays

theorem says_before_zeros (h : Leading digits) (k : Nat) :
    Says (digits ++ List.replicate k '0' ++ ['.', '0']) ⟨ofDigits digits, k⟩ := by
  have hw := h.append (allDigits_zeros k)
  have hp : Parts.WellFormed ⟨digits ++ List.replicate k '0', ['0'], none⟩ :=
    ⟨hw.all, allDigits_zeros 1, .inr hw.leading, by simp, .inl (by simp)⟩
  refine ⟨_, hp, rfl, ?_⟩
  -- The zero behind the point is one more factor of ten, which the exponent takes back.
  have hvalue : ofDigits (digits ++ List.replicate k '0' ++ ['0']) =
      ofDigits digits * 10 ^ (k + 1) := by
    rw [← ofDigits_append_zeros, List.replicate_succ', List.append_assoc]
  have hexp : (k : Int) - (k + 1 : Nat) = 0 - 1 := by omega
  intro s
  have heq := Binary64.toBinary64_mul_pow s (ofDigits digits) (k + 1) k
  rw [hexp, ← hvalue] at heq
  exact heq

theorem says_pointed (h : Leading digits) {n : Nat} (hn : 0 < n) (hlt : n < digits.length) :
    Says (digits.take n ++ '.' :: digits.drop n) ⟨ofDigits digits, n - digits.length⟩ := by
  have hw := h.take hn
  have hne : digits.drop n ≠ [] := by simpa using hlt
  have hp : Parts.WellFormed ⟨digits.take n, digits.drop n, none⟩ :=
    ⟨hw.all, h.all.drop n, .inr hw.leading, by simp, .inl hne⟩
  have hvalue : ofDigits (digits.take n ++ digits.drop n) = ofDigits digits := by
    rw [List.take_append_drop]
  have hexp : (0 : Int) - (digits.drop n).length = n - digits.length := by
    rw [List.length_drop]
    omega
  have hsays := says_text hp hvalue hexp
  rw [Parts.text, Parts.fractionText_of_ne_nil hne] at hsays
  simpa [Parts.exponentText] using hsays

theorem says_scientific (h : Leading digits) {point : Int} (hpoint : (point - 1).natAbs < 65536) :
    Says (scientific digits point) ⟨ofDigits digits, point - digits.length⟩ := by
  have hw := h.take Nat.zero_lt_one
  have hp : Parts.WellFormed ⟨digits.take 1, digits.drop 1, some (point - 1)⟩ :=
    ⟨hw.all, h.all.drop 1, .inr hw.leading, by simpa using hpoint, .inr rfl⟩
  have hvalue : ofDigits (digits.take 1 ++ digits.drop 1) = ofDigits digits := by
    rw [List.take_append_drop]
  have hexp : point - 1 - (digits.drop 1).length = point - digits.length := by
    obtain ⟨d, ds, rfl, -⟩ := h.leading
    simp
    omega
  have htext : Parts.text ⟨digits.take 1, digits.drop 1, some (point - 1)⟩ =
      scientific digits point := by
    cases hd : digits.drop 1 <;>
      simp [Parts.text, Parts.fractionText, Parts.exponentText, scientific, hd]
  rw [← htext]
  exact says_text hp hvalue hexp

theorem says_positional (h : Leading digits) (e : Int) :
    Says (positional digits (digits.length + e)) ⟨ofDigits digits, e⟩ := by
  unfold positional
  split
  · next hle =>
    have hexp : -((-(digits.length + e)).toNat + digits.length : Nat) = e := by omega
    have hsays := says_behind_zeros h (-(digits.length + e)).toNat
    rwa [hexp] at hsays
  · next hpos =>
    split
    · next hle =>
      have hexp : (((digits.length + e).toNat - digits.length : Nat) : Int) = e := by omega
      have hsays := says_before_zeros h ((digits.length + e).toNat - digits.length)
      rwa [hexp] at hsays
    · next hlt =>
      have hexp : ((digits.length + e).toNat : Int) - digits.length = e := by omega
      have hsays := says_pointed h (n := (digits.length + e).toNat) (by omega) (by omega)
      rwa [hexp] at hsays

end

theorem says_writeMagnitude {x : Binary64} (hx : x.isFinite) (h0 : x.magnitude ≠ 0) :
    Says (writeMagnitude x) x.shortest := by
  have hc := Binary64.coefficient_pos h0 (Binary64.magnitude_shortest hx false)
  obtain ⟨k, hk, hlt⟩ := Binary64.exists_coefficient_shortest_lt hx
  obtain ⟨hl, hu⟩ := Binary64.exponent_shortest_bounds hx
  rw [writeMagnitude, if_neg h0]
  dsimp only
  -- From here on it does not matter how the decimal was found.
  generalize x.shortest = d at *
  obtain ⟨c, e⟩ := d
  dsimp only at *
  have hlead := leading_toDigits hc
  have hvalue := ofDigits_toDigits c
  have hlen : (Nat.toDigits 10 c).length ≤ k + 1 := by
    rw [Nat.length_toDigits_le_iff (by decide) k.succ_pos]
    exact Nat.lt_of_lt_of_le hlt (Nat.pow_le_pow_right (by decide) k.le_succ)
  split
  · have hsays := says_positional hlead e
    rwa [hvalue] at hsays
  · have hpoint : ((Nat.toDigits 10 c).length + e - 1).natAbs < 65536 := by omega
    have hexp : (Nat.toDigits 10 c).length + e - (Nat.toDigits 10 c).length = e := by omega
    have hsays := says_scientific hlead hpoint
    rwa [hvalue, hexp] at hsays

/-- **What is written has parts** that stand for the number's absolute value. -/
theorem exists_parts {x : Binary64} (hx : x.isFinite) :
    ∃ p : Parts, p.WellFormed ∧ p.text = writeMagnitude x ∧
      ∀ s, (p.decimal.toBinary64 s).magnitude = x.magnitude := by
  by_cases h0 : x.magnitude = 0
  · refine ⟨⟨['0'], ['0'], none⟩, ?_, ?_, ?_⟩
    · exact ⟨allDigits_zeros 1, allDigits_zeros 1, .inl rfl, by simp, .inl (by simp)⟩
    · rw [writeMagnitude, if_pos h0]
      rfl
    · have hzero : Parts.decimal ⟨['0'], ['0'], none⟩ = ⟨0, -1⟩ := by decide
      intro s
      rw [hzero, h0, Binary64.magnitude_toBinary64_zero]
  · obtain ⟨p, hp, ht, hd⟩ := says_writeMagnitude hx h0
    refine ⟨p, hp, ht, ?_⟩
    intro s
    rw [hd, Binary64.magnitude_shortest hx]

theorem Parts.WellFormed.exists_text_eq_cons {p : Parts} (h : p.WellFormed) :
    ∃ c cs, p.text = c :: cs ∧ c.isDigit := by
  obtain ⟨c, cs, hw⟩ := List.exists_cons_of_ne_nil h.whole_ne_nil
  exact ⟨c, cs ++ _, by rw [Parts.text, hw]; rfl, h.whole c (by simp [hw])⟩

theorem exists_parts_write {x : Binary64} (hx : x.isFinite) :
    ∃ p : Parts, p.WellFormed ∧ (write x = p.text ∨ write x = '-' :: p.text) := by
  obtain ⟨p, hp, ht, -⟩ := exists_parts hx
  refine ⟨p, hp, ?_⟩
  rw [write, ← ht]
  cases x.negative
  · exact .inl rfl
  · exact .inr rfl

/-- **What is written is read back**, the sign included. -/
theorem read_write {x : Binary64} (hx : x.isFinite) : read (String.ofList (write x)) = .ok x := by
  obtain ⟨p, hp, ht, hm⟩ := exists_parts hx
  obtain ⟨c, cs, hcons, hc⟩ := hp.exists_text_eq_cons
  have hvalue : p.decimal.toBinary64 x.negative = x := Binary64.ext rfl (hm _)
  have hdecimal := Parts.decimal?_text hp
  rw [read, String.toList_ofList, write, ← ht]
  rw [hcons] at hdecimal ⊢
  cases hn : x.negative
  · rw [hn] at hvalue
    simp [splitSign_of_isDigit hc, hdecimal, hvalue]
  · rw [hn] at hvalue
    simp [splitSign, hdecimal, hvalue]

/-! ## Characters of a number -/

/-- A digit, the point, the letter in front of an exponent or the sign. -/
def IsNumeralChar (c : Char) : Prop := c.isDigit ∨ c = '.' ∨ c = 'e' ∨ c = '-'

theorem AllDigits.isNumeralChar {cs : List Char} (h : AllDigits cs) : ∀ c ∈ cs, IsNumeralChar c :=
  fun c hc => .inl (h c hc)

theorem isNumeralChar_of_mem_repr (e : Int) : ∀ c ∈ e.repr.toList, IsNumeralChar c := by
  cases e with
  | ofNat n =>
    rw [Int.repr, Nat.toList_repr]
    exact (allDigits_toDigits n).isNumeralChar
  | negSucc n =>
    rw [Int.repr, String.toList_append, Nat.toList_repr]
    exact List.forall_mem_cons.mpr
      ⟨.inr (.inr (.inr rfl)), (allDigits_toDigits n.succ).isNumeralChar⟩

theorem Parts.WellFormed.isNumeralChar_of_mem_text {p : Parts} (h : p.WellFormed) :
    ∀ c ∈ p.text, IsNumeralChar c := by
  have hfraction : ∀ c ∈ fractionText p.fraction, IsNumeralChar c := by
    cases hf : p.fraction with
    | nil => simp [fractionText]
    | cons d ds =>
      exact List.forall_mem_cons.mpr ⟨.inr (.inl rfl), (hf ▸ h.fraction).isNumeralChar⟩
  have hexponent : ∀ c ∈ exponentText p.exponent, IsNumeralChar c := by
    cases p.exponent with
    | none => simp [exponentText]
    | some e =>
      exact List.forall_mem_cons.mpr ⟨.inr (.inr (.inl rfl)), isNumeralChar_of_mem_repr e⟩
  exact List.forall_mem_append.mpr
    ⟨h.whole.isNumeralChar, List.forall_mem_append.mpr ⟨hfraction, hexponent⟩⟩

theorem isNumeralChar_of_mem_write {x : Binary64} (hx : x.isFinite) :
    ∀ c ∈ write x, IsNumeralChar c := by
  obtain ⟨p, hp, hw | hw⟩ := exists_parts_write hx
  · rw [hw]
    exact hp.isNumeralChar_of_mem_text
  · rw [hw]
    exact List.forall_mem_cons.mpr ⟨.inr (.inr (.inr rfl)), hp.isNumeralChar_of_mem_text⟩

/-! ## Digits around a point -/

theorem endsDigits_point (cs : List Char) : EndsDigits ('.' :: cs) := by
  intro c hc
  cases hc
  decide

/-- Digits around a point have no sign. -/
theorem splitSign_pointed {whole : List Char} (hw : AllDigits whole) (fraction : List Char) :
    splitSign (whole ++ '.' :: fraction) = (false, whole ++ '.' :: fraction) := by
  cases whole with
  | nil => rfl
  | cons c cs => exact splitSign_of_isDigit (hw c List.mem_cons_self) _

theorem decimal?_pointed {whole fraction : List Char} (hw : AllDigits whole)
    (hf : AllDigits fraction) (hne : fraction ≠ []) :
    decimal? (whole ++ '.' :: fraction) =
      some ⟨ofDigits (whole ++ fraction), -(fraction.length : Int)⟩ := by
  have hends := endsDigits_point fraction
  have hsplit := Parts.splitFraction_text hf none
  rw [Parts.fractionText_of_ne_nil hne, Parts.exponentText, List.append_nil] at hsplit
  rw [decimal?, takeWhile_append_of_ends hw hends, dropWhile_append_of_ends hw hends, hsplit]
  simp [hne, exponent?]

/-- **Digits around a point**, at least one behind it, are read as the decimal they write. -/
theorem read_pointed {whole fraction : List Char} (hw : AllDigits whole)
    (hf : AllDigits fraction) (hne : fraction ≠ []) :
    read (String.ofList (whole ++ '.' :: fraction)) =
      .ok (Decimal.toBinary64 ⟨ofDigits (whole ++ fraction), -(fraction.length : Int)⟩ false) := by
  have hcons : whole ++ '.' :: fraction ≠ [] := by simp
  obtain ⟨c, cs, hcs⟩ := List.exists_cons_of_ne_nil hcons
  have hsign := splitSign_pointed hw fraction
  have hdecimal := decimal?_pointed hw hf hne
  rw [hcs] at hsign hdecimal
  rw [read, String.toList_ofList, hcs]
  simp only [hsign, hdecimal]

end Numeral

end ConstLang
