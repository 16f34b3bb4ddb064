/-
The longest lexeme. `Lexeme.Spells` lists the lexemes of each kind, without saying how they are
found in a text, and `Lexeme.IsLongest` picks the longest one that a text starts with.
`read_eq_accepted_iff`: what is read at the start of a text is that one, so the order in which
the classes of lexemes are tried plays no part.
-/
import ConstLang.Token.Lexeme

namespace ConstLang

/-- A run of characters of a class at the start of a text goes no further than the longest one. -/
theorem isPrefix_takeWhile {p : Char → Bool} {x cs : List Char} (hx : ∀ c ∈ x, p c)
    (h : x <+: cs) : x <+: cs.takeWhile p := by
  obtain ⟨rest, rfl⟩ := h
  rw [List.takeWhile_append_of_pos hx]
  exact List.prefix_append _ _

/-- No digit is a letter or an underscore: all of these come behind the digits. -/
theorem isWordChar_eq_false_of_isDigit {c : Char} (h : c.isDigit) : isWordChar c = false := by
  have hle : c.val ≤ '9'.val := of_decide_eq_true (Bool.and_eq_true_iff.mp h).2
  have hbehind {a : UInt32} (ha : '9'.val < a) : ¬ a ≤ c.val :=
    fun hc => UInt32.not_le.mpr ha (UInt32.le_trans hc hle)
  refine Bool.eq_false_iff.mpr fun hw => ?_
  simp only [isWordChar, Bool.or_eq_true, beq_iff_eq] at hw
  rcases hw with rfl | hw
  · exact absurd h (by decide)
  rcases Bool.or_eq_true_iff.mp hw with hupper | hlower
  · exact hbehind (by decide) (of_decide_eq_true hupper).1
  · exact hbehind (by decide) (of_decide_eq_true (Bool.and_eq_true_iff.mp hlower).1)

namespace Lexeme

/-- The lexemes of each kind. -/
inductive Spells : Token.Kind → List Char → Prop
  | isWord : Spells .isWord ['i', 's']
  | structWord : Spells .structWord ['s', 't', 'r', 'u', 'c', 't']
  /-- Letters and underscores, at least one, that are no keyword. -/
  | name {x : List Char} (hne : x ≠ []) (hx : ∀ c ∈ x, isWordChar c) (his : x ≠ ['i', 's'])
      (hstruct : x ≠ ['s', 't', 'r', 'u', 'c', 't']) : Spells .name x
  /-- Digits around a point, at least one behind it. -/
  | number {whole fraction : List Char} (hw : ∀ c ∈ whole, c.isDigit) (hne : fraction ≠ [])
      (hf : ∀ c ∈ fraction, c.isDigit) : Spells .number (whole ++ '.' :: fraction)
  | openReference : Spells .openReference ['!', '(']
  | openBracket : Spells .openBracket ['[']
  | closeBracket : Spells .closeBracket [']']
  | openBrace : Spells .openBrace ['{']
  | closeBrace : Spells .closeBrace ['}']
  | comma : Spells .comma [',']
  | equals : Spells .equals ['=']
  | closeReference : Spells .closeReference [')']

/-- Of the lexemes that a text starts with, `x` is the longest, and it is of the kind. -/
structure IsLongest (kind : Token.Kind) (x cs : List Char) : Prop where
  spells : Spells kind x
  isPrefix : x <+: cs
  length_le : ∀ kind' x', Spells kind' x' → x' <+: cs → x'.length ≤ x.length

variable {c : Char} {r x : List Char} {kind : Token.Kind}

theorem isPrefix_of_read {l : Lexeme} (h : read c r = l) : l.text <+: c :: r :=
  h ▸ text_isPrefix c r

/-! ## What is read is a lexeme -/

theorem spells_wordKind (hne : x ≠ []) (hx : ∀ c ∈ x, isWordChar c) : Spells (wordKind x) x := by
  unfold wordKind
  split
  · next his => exact his ▸ .isWord
  · next his =>
    split
    · next hstruct => exact hstruct ▸ .structWord
    · next hstruct => exact .name hne hx his hstruct

theorem mem_takeWhile_isDigit {cs : List Char} : ∀ c ∈ cs.takeWhile Char.isDigit, c.isDigit :=
  List.all_eq_true.mp List.all_takeWhile

theorem spells_number {cs : List Char} (h : number cs ≠ []) : Spells .number (number cs) := by
  unfold number at h ⊢
  split at h
  · split
    · next he => simp [he] at h
    · next he =>
      refine .number mem_takeWhile_isDigit ?_ mem_takeWhile_isDigit
      simpa using he
  · exact absurd rfl h

theorem spells_of_markKind? (h : markKind? c = some kind) : Spells kind [c] := by
  unfold markKind? at h
  split at h <;> cases h
  · exact .openBracket
  · exact .closeBracket
  · exact .openBrace
  · exact .closeBrace
  · exact .comma
  · exact .equals
  · exact .closeReference

theorem spells_of_mark? {cs : List Char} (h : mark? cs = some (kind, x)) : Spells kind x := by
  unfold mark? at h
  split at h
  · cases h
    exact .openReference
  · obtain ⟨kind', hk, he⟩ := Option.map_eq_some_iff.mp h
    cases he
    exact spells_of_markKind? hk
  · cases h

theorem spells_of_read (h : read c r = .accepted kind x) : Spells kind x := by
  unfold read at h
  dsimp only at h
  split at h
  · next hw =>
    cases h
    refine spells_wordKind ?_ (List.all_eq_true.mp List.all_takeWhile)
    simpa using hw
  · split at h
    · next hn =>
      cases h
      exact spells_number (by simpa using hn)
    · split at h
      · cases h
      · split at h
        · next hm => cases h; exact spells_of_mark? hm
        · cases h

/-! ## Every lexeme is read, or a longer one -/

theorem read_of_isWordChar (hc : isWordChar c) :
    read c r = .accepted (wordKind (word (c :: r))) (word (c :: r)) := by
  have hne : (word (c :: r)).isEmpty = false := by
    rw [word, List.takeWhile_cons_of_pos hc]
    rfl
  simp [read, hne]

theorem read_of_number (hc : isWordChar c = false) (hn : number (c :: r) ≠ []) :
    read c r = .accepted .number (number (c :: r)) := by
  have hw : word (c :: r) = [] := by
    rw [word, List.takeWhile_cons_of_neg (by simp [hc])]
  simp [read, hw, hn]

theorem number_append {whole fraction : List Char} (hw : ∀ c ∈ whole, c.isDigit)
    (hne : fraction ≠ []) (hf : ∀ c ∈ fraction, c.isDigit) (rest : List Char) :
    number (whole ++ '.' :: (fraction ++ rest)) =
      whole ++ '.' :: (fraction ++ rest.takeWhile Char.isDigit) := by
  have hpoint : ¬ Char.isDigit '.' := by decide
  rw [number, List.dropWhile_append_of_pos hw, List.takeWhile_append_of_pos hw,
    List.dropWhile_cons_of_neg hpoint, List.takeWhile_cons_of_neg hpoint]
  simp [List.takeWhile_append_of_pos hf, hne]

/-- A word is read as far as it goes. -/
theorem exists_read_of_word (hne : x ≠ []) (hx : ∀ c ∈ x, isWordChar c) (hp : x <+: c :: r) :
    ∃ x', read c r = .accepted (wordKind x') x' ∧ x <+: x' := by
  have hc : isWordChar c := by
    obtain ⟨d, ds, rfl⟩ := List.exists_cons_of_ne_nil hne
    obtain ⟨rfl, -⟩ := List.cons_prefix_cons.mp hp
    exact hx d List.mem_cons_self
  exact ⟨_, read_of_isWordChar hc, isPrefix_takeWhile hx hp⟩

/-- A number is read as far as digits follow. -/
theorem exists_read_of_number {whole fraction : List Char} (hw : ∀ c ∈ whole, c.isDigit)
    (hne : fraction ≠ []) (hf : ∀ c ∈ fraction, c.isDigit)
    (hp : whole ++ '.' :: fraction <+: c :: r) :
    ∃ x', read c r = .accepted .number x' ∧ whole ++ '.' :: fraction <+: x' := by
  obtain ⟨rest, hcs⟩ := hp
  rw [List.append_assoc, List.cons_append] at hcs
  have hc : isWordChar c = false := by
    cases whole with
    | nil =>
      obtain ⟨rfl, -⟩ := List.cons.inj hcs
      rfl
    | cons d ds =>
      obtain ⟨rfl, -⟩ := List.cons.inj hcs
      exact isWordChar_eq_false_of_isDigit (hw d List.mem_cons_self)
  have hn := number_append hw hne hf rest
  rw [hcs] at hn
  refine ⟨_, read_of_number hc (by simp [hn]), ?_⟩
  rw [hn]
  exact ⟨rest.takeWhile Char.isDigit, by simp⟩

/-- **A text that starts with a lexeme is read**, the lexeme or a longer one. -/
theorem exists_read_of_spells (hx : Spells kind x) (hp : x <+: c :: r) :
    ∃ kind' x', read c r = .accepted kind' x' ∧ x <+: x' ∧ (x = x' → kind = kind') := by
  cases hx with
  | isWord =>
    obtain ⟨x', hr, hx'⟩ := exists_read_of_word (by simp) (List.all_eq_true.mp rfl) hp
    exact ⟨_, x', hr, hx', by rintro rfl; rfl⟩
  | structWord =>
    obtain ⟨x', hr, hx'⟩ := exists_read_of_word (by simp) (List.all_eq_true.mp rfl) hp
    exact ⟨_, x', hr, hx', by rintro rfl; rfl⟩
  | name hne hx his hstruct =>
    obtain ⟨x', hr, hx'⟩ := exists_read_of_word hne hx hp
    refine ⟨_, x', hr, hx', ?_⟩
    rintro rfl
    rw [wordKind, if_neg his, if_neg hstruct]
  | number hw hne hf =>
    obtain ⟨x', hr, hx'⟩ := exists_read_of_number hw hne hf hp
    exact ⟨_, x', hr, hx', fun _ => rfl⟩
  | openReference =>
    obtain ⟨rest, hcs⟩ := hp
    cases hcs
    exact ⟨_, _, rfl, List.prefix_rfl, fun _ => rfl⟩
  | openBracket | closeBracket | openBrace | closeBrace | comma | equals | closeReference =>
    -- A mark of one character is read whatever follows it.
    obtain ⟨rfl, -⟩ := List.cons_prefix_cons.mp hp
    exact ⟨_, _, rfl, List.prefix_rfl, fun _ => rfl⟩

/-- **What is read is the longest lexeme** at the start of the text. -/
theorem read_eq_accepted_iff : read c r = .accepted kind x ↔ IsLongest kind x (c :: r) := by
  constructor
  · intro h
    refine ⟨spells_of_read h, isPrefix_of_read h, ?_⟩
    intro kind' x' hx' hp'
    obtain ⟨kind'', x'', hr, hle, -⟩ := exists_read_of_spells hx' hp'
    rw [h] at hr
    cases hr
    exact hle.length_le
  · intro h
    obtain ⟨kind', x', hr, hle, hkind⟩ := exists_read_of_spells h.spells h.isPrefix
    have hlength := h.length_le kind' x' (spells_of_read hr) (isPrefix_of_read hr)
    have heq : x = x' := hle.eq_of_length_le hlength
    rw [hr, heq, hkind heq]

end Lexeme

end ConstLang
