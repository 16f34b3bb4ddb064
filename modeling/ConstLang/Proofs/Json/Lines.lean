/-
Line feeds in what is written. No text of a string or of a number has one, whatever the string
holds, so that a line feed in a JSON text is one of the layout; and the compact layout has none,
`feed_notMem_toJson`: a compact text is a single line.
-/
import ConstLang.Proofs.Json.Pieces
import ConstLang.Proofs.Json.Tokens

namespace ConstLang

namespace Json

theorem hexDigit_ne_feed : ∀ n < 16, hexDigit n ≠ '\n' := by decide

/-- What is written for a character has no line feed in it, not even for the line feed. -/
theorem feed_notMem_escape (c : Char) : '\n' ∉ escape c := by
  unfold escape
  split
  case h_8 hfeed _ _ _ _ =>
    split
    · next hc =>
      have hhigh := hexDigit_ne_feed (c.toNat / 16) (by omega)
      have hlow := hexDigit_ne_feed (c.toNat % 16) (by omega)
      simp [hhigh.symm, hlow.symm]
    · simpa using Ne.symm hfeed
  all_goals decide

theorem feed_notMem_writeString (s : String) : '\n' ∉ writeString s := by
  simp [writeString, feed_notMem_escape]

theorem feed_notMem_writeNumber (x : Binary64) : '\n' ∉ writeNumber x :=
  fun h => absurd (isWordChar_of_mem_writeNumber x _ h) (by decide)

theorem feed_notMem_core (k : Core) : '\n' ∉ k.text := by
  cases k with
  | mark m => cases m <;> decide
  | number x => exact feed_notMem_writeNumber x

theorem feed_notMem_front (front : Front) : '\n' ∉ front.text .compact := by
  cases front with
  | none | line => exact List.not_mem_nil
  | key depth name => simp [Front.text, Layout.newline, Layout.colon, feed_notMem_writeString]

/-- **Compact JSON stands on one line.** -/
theorem feed_notMem_toJson (v : Value) : '\n' ∉ (v.toJson .compact).toList := by
  rw [toList_toJson]
  intro h
  obtain ⟨p, -, hp⟩ := List.mem_flatMap.mp h
  rcases List.mem_append.mp hp with hfront | hcore
  · exact feed_notMem_front p.front hfront
  · exact feed_notMem_core p.core hcore

end Json

end ConstLang
