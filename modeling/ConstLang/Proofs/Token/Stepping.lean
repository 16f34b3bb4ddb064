/-
Reading one token at a time, for as long as one likes. `Cursor.pull` is a reading that moves the
cursor: it skips blanks first, so also where nothing can be read behind them. What it gives does
not depend on the blanks in front (`pull_skipBlanks`), and from this it follows that a reading
which gives the end of the input or an error is repeated by every later one, and leaves the cursor
where it is (`pull_eq_of_endsReading`). So any number of readings gives the tokens of the text and
then its ending, again and again: `pulls_eq_take`. `Cursor.collect` makes readings up to the ending,
if there are not too many, and `collect_eq` says how many there are.
-/
import Mathlib.Data.Stream.Init
import ConstLang.Proofs.Token.Refusal

namespace ConstLang

open Position (behind)

/-- No token of the text comes any more: the end of the input or an error was read. -/
def EndsReading : Except SyntaxError Token → Prop
  | .ok t => t.kind = .endOfInput
  | .error _ => True

/-- What readings give that go on forever: the tokens, then the ending again and again. -/
def TokenStream.forever (s : TokenStream) : Stream' (Except SyntaxError Token) :=
  s.tokens.map .ok ++ₛ .const s.ending

/-- The ending may be counted among the tokens. -/
theorem TokenStream.forever_eq (s : TokenStream) :
    s.forever = (s.tokens.map .ok ++ [s.ending]) ++ₛ .const s.ending := by
  rw [Stream'.append_append_stream, Stream'.cons_append_stream, Stream'.nil_append_stream,
    ← Stream'.const_eq, forever]

namespace Cursor

/-- One reading, and the cursor behind it. The blanks in front are skipped whatever comes. -/
def pull (c : Cursor) : Except SyntaxError Token × Cursor :=
  match c.skipBlanks.nextHere with
  | .ok (t, c') => (.ok t, c')
  | .error e => (.error e, c.skipBlanks)

/-- What some readings give, and the cursor behind them. -/
def pulls (c : Cursor) : Nat → List (Except SyntaxError Token) × Cursor
  | 0 => ([], c)
  | n + 1 =>
    let (x, c') := c.pull
    let (xs, c'') := c'.pulls n
    (x :: xs, c'')

/-- Readings up to the end of the input or an error, `calls` at most: all tokens with the end of
the input as the last one, or the error. -/
def collect (c : Cursor) : Nat → Option (Except SyntaxError (List Token))
  | 0 => none
  | calls + 1 =>
    match c.pull with
    | (.error e, _) => some (.error e)
    | (.ok t, c') =>
      if t.kind = .endOfInput then some (.ok [t])
      else (c'.collect calls).map (·.map (t :: ·))

variable {c c' : Cursor} {t : Token} {e : SyntaxError} {x : Except SyntaxError Token}

/-! ## One reading -/

theorem takeWhile_drop_takeWhile {α : Type} (p : α → Bool) (as : List α) :
    (as.drop (as.takeWhile p).length).takeWhile p = [] := by
  induction as with
  | nil => rfl
  | cons a as ih =>
    by_cases ha : p a
    · rwa [List.takeWhile_cons_of_pos ha]
    · simp [ha]

/-- Where the blanks end, no blank stands. -/
theorem skipBlanks_skipBlanks (c : Cursor) : c.skipBlanks.skipBlanks = c.skipBlanks := by
  have hnone : c.skipBlanks.rest.takeWhile isBlank = [] := takeWhile_drop_takeWhile _ _
  rw [skipBlanks, hnone, skip_nil]

/-- **The blanks in front** play no part in a reading. -/
theorem pull_skipBlanks (c : Cursor) : c.skipBlanks.pull = c.pull := by
  rw [pull, skipBlanks_skipBlanks, pull]

theorem pull_of_next (h : c.next = .ok (t, c')) : c.pull = (.ok t, c') := by
  rw [next] at h
  rw [pull, h]

theorem pull_of_next_error (h : c.next = .error e) : c.pull = (.error e, c.skipBlanks) := by
  rw [next] at h
  rw [pull, h]

theorem next_of_pull (h : c.pull = (.ok t, c')) : c.next = .ok (t, c') := by
  cases hn : c.next with
  | error e =>
    rw [pull_of_next_error hn] at h
    cases h
  | ok r =>
    rw [pull_of_next hn] at h
    cases h
    rfl

/-- **Nothing new comes** behind the end of the input or an error, and the cursor stays. -/
theorem pull_eq_of_endsReading (h : c.pull = (x, c')) (hx : EndsReading x) : c'.pull = (x, c') := by
  cases hn : c.next with
  | error e =>
    rw [pull_of_next_error hn] at h
    cases h
    rw [pull_skipBlanks, pull_of_next_error hn]
  | ok r =>
    obtain ⟨t, c₁⟩ := r
    rw [pull_of_next hn] at h
    cases h
    obtain ⟨rfl, hr⟩ := eq_endAt_of_next hn hx
    exact pull_of_next (next_of_rest_nil hr)

/-! ## Text that is taken up -/

/-- The bytes of the text up to its end. -/
def endOffset (c : Cursor) : Nat := c.position.offset + byteLength c.rest

theorem endOffset_skip {text : List Char} (h : text <+: c.rest) :
    (c.skip text).endOffset = c.endOffset := by
  obtain ⟨rest, hrest⟩ := h
  rw [endOffset, endOffset, offset_skip, skip, ← hrest, List.drop_left, byteLength_append,
    Nat.add_assoc]

theorem endOffset_skipBlanks (c : Cursor) : c.skipBlanks.endOffset = c.endOffset :=
  endOffset_skip (List.takeWhile_prefix _)

/-- No reading leaves the text. -/
theorem endOffset_pull (c : Cursor) : c.pull.2.endOffset = c.endOffset := by
  cases hn : c.next with
  | error e => rw [pull_of_next_error hn, endOffset_skipBlanks]
  | ok r =>
    obtain ⟨t, c'⟩ := r
    rw [pull_of_next hn, ← c.endOffset_skipBlanks]
    cases Next.of_eq hn with
    | ended hr => rfl
    | @accepted ch r text kind hr hx =>
      refine endOffset_skip ?_
      rw [hr]
      exact Lexeme.isPrefix_of_read hx

/-- **A token takes up text**, at least one byte of it. -/
theorem offset_lt_of_pull (h : c.pull = (.ok t, c')) (ht : t.kind ≠ .endOfInput) :
    c.position.offset < c'.position.offset := by
  have hn := next_of_pull h
  exact Nat.lt_of_le_of_lt (offset_le_of_next hn) (offset_of_next_token hn ht).1

/-- There are no more tokens than bytes. -/
theorem length_tokens_le (c : Cursor) : c.stream.tokens.length ≤ byteLength c.rest := by
  induction c using Cursor.induction with
  | refused c e hn =>
    rw [stream_of_next_error hn]
    exact Nat.zero_le _
  | ended c t c' hn ht =>
    rw [stream_of_next_end hn ht]
    exact Nat.zero_le _
  | token c t c' hn ht ih =>
    have hpull := pull_of_next hn
    have hlt := offset_lt_of_pull hpull ht
    have hend := c.endOffset_pull
    rw [hpull] at hend
    simp only [endOffset] at hend
    rw [stream_of_next_token hn ht, List.length_cons]
    omega

/-! ## Any number of readings -/

theorem stream_of_pull_endsReading (h : c.pull = (x, c')) (hx : EndsReading x) :
    c.stream = ⟨[], x⟩ := by
  cases hn : c.next with
  | error e =>
    rw [pull_of_next_error hn] at h
    cases h
    exact stream_of_next_error hn
  | ok r =>
    rw [pull_of_next hn] at h
    cases h
    exact stream_of_next_end hn hx

theorem stream_of_pull_token (h : c.pull = (.ok t, c')) (ht : t.kind ≠ .endOfInput) :
    c.stream = ⟨t :: c'.stream.tokens, c'.stream.ending⟩ :=
  stream_of_next_token (next_of_pull h) ht

/-- What is read ends the reading, or it is a token. -/
theorem endsReading_or (x : Except SyntaxError Token) :
    EndsReading x ∨ ∃ t, x = .ok t ∧ t.kind ≠ .endOfInput := by
  cases x with
  | error e => exact .inl trivial
  | ok t =>
    by_cases ht : t.kind = .endOfInput
    · exact .inl ht
    · exact .inr ⟨t, rfl, ht⟩

/-- **The readings of a cursor** give its tokens, then its ending again and again. -/
theorem pulls_eq_take_forever (c : Cursor) (n : Nat) :
    (c.pulls n).1 = c.stream.forever.take n := by
  induction n generalizing c with
  | zero => rfl
  | succ n ih =>
    have hpulls : (c.pulls (n + 1)).1 = c.pull.1 :: (c.pull.2.pulls n).1 := rfl
    obtain ⟨⟨x, c'⟩, hp⟩ : ∃ p, c.pull = p := ⟨_, rfl⟩
    rw [hpulls, ih, hp]
    rcases endsReading_or x with hx | ⟨t, rfl, ht⟩
    · rw [stream_of_pull_endsReading hp hx,
        stream_of_pull_endsReading (pull_eq_of_endsReading hp hx) hx]
      rfl
    · rw [stream_of_pull_token hp ht]
      rfl

theorem pulls_skipBlanks (c : Cursor) (n : Nat) : (c.skipBlanks.pulls n).1 = (c.pulls n).1 := by
  cases n with
  | zero => rfl
  | succ n => simp only [pulls, pull_skipBlanks]

/-- It makes no difference whether a reading that fails leaves the blanks where they are. -/
theorem run_eq_pulls (c : Cursor) (n : Nat) : c.run n = (c.pulls n).1 := by
  induction n generalizing c with
  | zero => rfl
  | succ n ih =>
    cases hn : c.next with
    | error e => simp only [run, pulls, hn, pull_of_next_error hn, ih, pulls_skipBlanks]
    | ok r => simp only [run, pulls, hn, pull_of_next hn, ih]

/-- **Where reading has ended**, it gives the same for ever, and the cursor does not move. -/
theorem pulls_of_endsReading (h : c.pull = (x, c')) (hx : EndsReading x) (n : Nat) :
    c'.pulls n = (List.replicate n x, c') := by
  have hfixed := pull_eq_of_endsReading h hx
  induction n with
  | zero => rfl
  | succ n ih => simp only [pulls, hfixed, ih, List.replicate_succ]

/-- **The readings up to the ending** are one for each token and one more. -/
theorem collect_eq (c : Cursor) (calls : Nat) :
    c.collect calls = if c.stream.tokens.length < calls then some c.stream.toList else none := by
  induction calls generalizing c with
  | zero => rw [collect, if_neg (Nat.not_lt_zero _)]
  | succ calls ih =>
    obtain ⟨⟨x, c'⟩, hp⟩ : ∃ p, c.pull = p := ⟨_, rfl⟩
    rcases endsReading_or x with hx | ⟨t, rfl, ht⟩
    · rw [stream_of_pull_endsReading hp hx, collect, hp]
      cases x with
      | error e => rfl
      | ok t => exact if_pos hx
    · simp only [stream_of_pull_token hp ht, collect, hp, if_neg ht, ih, List.length_cons,
        Nat.add_lt_add_iff_right]
      split
      · rw [Option.map_some, TokenStream.toList, TokenStream.toList]
        cases c'.stream.ending <;> rfl
      · rfl

end Cursor

/-- **Reading on.** Any number of readings gives the first ones of what the text has: its tokens up
to the end of the input, and that again and again; or the tokens in front of the first piece that is
refused, and then its error again and again. Once the reading has ended, it gives the same for ever
and the cursor does not move; until then every reading takes up some of the text. So the readings
that find all tokens of a text are one more than it has bytes, at most. -/
theorem pulls_eq_take (text : String) :
    (∀ tokens, tokenize text = .ok tokens → ∃ lexemes last, tokens = lexemes ++ [last] ∧
      last.kind = .endOfInput ∧
      ∀ n, ((Cursor.ofText text).pulls n).1 = (tokens.map .ok ++ₛ .const (.ok last)).take n) ∧
    (∀ e, tokenize text = .error e → ∃ tokens before rest,
      Splits [] text.toList tokens before rest ∧
      (⟨rest, behind before⟩ : Cursor).next = .error e ∧
      ∀ n, ((Cursor.ofText text).pulls n).1 = (tokens.map .ok ++ₛ .const (.error e)).take n) ∧
    (∀ n, (Cursor.ofText text).run n = ((Cursor.ofText text).pulls n).1) ∧
    (∀ (c c' : Cursor) x, c.pull = (x, c') → EndsReading x →
      ∀ n, c'.pulls n = (List.replicate n x, c')) ∧
    (∀ (c c' : Cursor) t, c.pull = (.ok t, c') → t.kind ≠ .endOfInput →
      c.position.offset < c'.position.offset) ∧
    (Cursor.ofText text).collect (text.utf8ByteSize + 1) = some (tokenize text) := by
  have hforever := (Cursor.ofText text).pulls_eq_take_forever
  refine ⟨fun tokens h => ?_, fun e h => ?_, (Cursor.ofText text).run_eq_pulls,
    fun c c' x => Cursor.pulls_of_endsReading, fun c c' t => Cursor.offset_lt_of_pull, ?_⟩
  · obtain ⟨lexemes, -, -, -, -, rfl⟩ := tokenize_eq_ok_iff_exists_splits.mp h
    obtain ⟨htokens, hending⟩ := (tokenize_eq_ok_iff text _ _).mp h
    refine ⟨lexemes, _, rfl, rfl, fun n => ?_⟩
    have htext : (Cursor.ofText text).stream.forever = _ := TokenStream.forever_eq (.ofText text)
    rw [hforever, htext, htokens, hending, List.map_append]
    rfl
  · obtain ⟨before, rest, hsplits, hstream⟩ := exists_splits_ofText text
    have hending := tokenize_eq_error_iff_ending.mp h
    refine ⟨_, before, rest, hsplits, ?_, fun n => by rw [hforever, ← hending]; rfl⟩
    rw [hending] at hstream
    cases Cursor.Streams.of_eq hstream with
    | refused hn => exact hn
  · rw [Cursor.collect_eq, if_pos]
    · rfl
    · have hle := (Cursor.ofText text).length_tokens_le
      rw [← byteLength_toList]
      exact Nat.lt_succ_of_le hle

/-- A reading that fails leaves the cursor behind the blanks, on the second line. -/
example : ((Cursor.ofText "x\n ;").pulls 3).2 = ⟨[';'], ⟨1, 1, 3⟩⟩ := by cbv

end ConstLang
