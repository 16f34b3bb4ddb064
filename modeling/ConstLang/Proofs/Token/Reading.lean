/-
Reading tokens one after the other. `Next` says once what a single reading can give; `Reads`
is a run of readings that gives tokens and leads to a further cursor. With them the stream is
taken apart at any token, `reads_of_tokens_eq`, and the tokens in front of a cursor are seen to
lie in front of it in the text, `Reads.offset_lt`.
-/
import ConstLang.Token.Stream

namespace ConstLang

theorem byteLength_pos {cs : List Char} (h : cs ≠ []) : 0 < byteLength cs := by
  obtain ⟨c, r, rfl⟩ := List.exists_cons_of_ne_nil h
  have := c.utf8Size_pos
  simp only [byteLength]
  omega

namespace Lexeme

theorem markKind?_ne_endOfInput {c : Char} {kind : Token.Kind} (h : markKind? c = some kind) :
    kind ≠ .endOfInput := by
  unfold markKind? at h
  split at h <;> cases h <;> decide

theorem mark?_ne_endOfInput {cs text : List Char} {kind : Token.Kind}
    (h : mark? cs = some (kind, text)) : kind ≠ .endOfInput := by
  unfold mark? at h
  split at h
  · cases h
    decide
  · obtain ⟨k, hk, he⟩ := Option.map_eq_some_iff.mp h
    cases he
    exact markKind?_ne_endOfInput hk
  · cases h

theorem wordKind_ne_endOfInput (w : List Char) : wordKind w ≠ .endOfInput := by
  unfold wordKind
  split
  · decide
  · split <;> decide

/-- No text is the end of the input. -/
theorem ne_endOfInput_of_read {c : Char} {r text : List Char} {kind : Token.Kind}
    (h : read c r = .accepted kind text) : kind ≠ .endOfInput := by
  unfold read at h
  dsimp only at h
  split at h
  · cases h
    exact wordKind_ne_endOfInput _
  · split at h
    · cases h
      decide
    · split at h
      · cases h
      · split at h
        · next hm => cases h; exact mark?_ne_endOfInput hm
        · cases h

/-- A piece of text is refused as digits or as a character. -/
theorem fault_of_read {c : Char} {r text : List Char} {fault : SyntaxFault}
    (h : read c r = .refused fault text) : fault = .fractionMissing ∨ fault = .strayCharacter := by
  unfold read at h
  dsimp only at h
  split at h
  · cases h
  · split at h
    · cases h
    · split at h
      · cases h; exact .inl rfl
      · split at h
        · cases h
        · cases h; exact .inr rfl

end Lexeme

namespace Cursor

theorem skip_nil (c : Cursor) : c.skip [] = c := rfl

theorem offset_skip (c : Cursor) (text : List Char) :
    (c.skip text).position.offset = c.position.offset + byteLength text :=
  Position.offset_after _ _

theorem offset_le_skipBlanks (c : Cursor) :
    c.position.offset ≤ c.skipBlanks.position.offset := by
  rw [skipBlanks, offset_skip]
  omega

/-- What a reading can give: the end of the input, a token or an error, each at the first place
where no blank stands. -/
inductive Next (c : Cursor) : Except SyntaxError (Token × Cursor) → Prop
  | ended (hr : c.skipBlanks.rest = []) :
      Next c (.ok (.endAt c.skipBlanks.position, c.skipBlanks))
  | accepted {ch : Char} {r text : List Char} {kind : Token.Kind}
      (hr : c.skipBlanks.rest = ch :: r) (hx : Lexeme.read ch r = .accepted kind text) :
      Next c (.ok (⟨kind, String.ofList text, c.skipBlanks.span text⟩, c.skipBlanks.skip text))
  | refused {ch : Char} {r text : List Char} {fault : SyntaxFault}
      (hr : c.skipBlanks.rest = ch :: r) (hx : Lexeme.read ch r = .refused fault text) :
      Next c (.error ⟨fault, String.ofList text, c.skipBlanks.span text⟩)

theorem next_spec (c : Cursor) : Next c c.next := by
  unfold next nextHere
  split
  · next hr => exact .ended hr
  · next ch r hr =>
    split
    · next hx => exact .accepted hr hx
    · next hx => exact .refused hr hx

variable {c c' : Cursor} {t : Token} {e : SyntaxError}

theorem Next.of_eq {x : Except SyntaxError (Token × Cursor)} (h : c.next = x) : Next c x :=
  h ▸ c.next_spec

/-- A token starts at the cursor or behind it. -/
theorem offset_le_of_next (h : c.next = .ok (t, c')) :
    c.position.offset ≤ t.span.start.offset := by
  cases Next.of_eq h with
  | ended hr => exact c.offset_le_skipBlanks
  | accepted hr hx => exact c.offset_le_skipBlanks

theorem offset_le_of_next_error (h : c.next = .error e) :
    c.position.offset ≤ e.span.start.offset := by
  cases Next.of_eq h with
  | refused hr hx => exact c.offset_le_skipBlanks

/-- A token that is not the end of the input has a text, and the reading goes on behind it. -/
theorem offset_of_next_token (h : c.next = .ok (t, c')) (ht : t.kind ≠ .endOfInput) :
    t.span.start.offset < c'.position.offset ∧ t.span.stop.offset = c'.position.offset := by
  cases Next.of_eq h with
  | ended hr => exact absurd rfl ht
  | @accepted ch r text kind hr hx =>
    refine ⟨?_, rfl⟩
    have hne : text ≠ [] := by
      have := Lexeme.text_ne_nil ch r
      rwa [hx] at this
    have := byteLength_pos hne
    rw [offset_skip]
    simp only [span]
    omega

theorem eq_endAt_of_next (h : c.next = .ok (t, c')) (ht : t.kind = .endOfInput) :
    t = .endAt c'.position ∧ c'.rest = [] := by
  cases Next.of_eq h with
  | ended hr => exact ⟨rfl, hr⟩
  | accepted hr hx => exact absurd ht (Lexeme.ne_endOfInput_of_read hx)

/-- At the end of the input the end of the input is read, again and again. -/
theorem next_of_rest_nil (h : c.rest = []) : c.next = .ok (.endAt c.position, c) := by
  have hs : c.skipBlanks = c := by
    rw [skipBlanks, h, List.takeWhile_nil, skip_nil]
  rw [next, hs, nextHere, h]

/-- A proof for all cursors goes by what is read next. -/
@[elab_as_elim]
theorem induction {P : Cursor → Prop} (refused : ∀ c e, c.next = .error e → P c)
    (ended : ∀ c t c', c.next = .ok (t, c') → t.kind = .endOfInput → P c)
    (token : ∀ c t c', c.next = .ok (t, c') → t.kind ≠ .endOfInput → P c' → P c)
    (c : Cursor) : P c := by
  match h : c.next with
  | .error e => exact refused c e h
  | .ok (t, c') =>
    by_cases ht : t.kind = .endOfInput
    · exact ended c t c' h ht
    · have := next_lt h ht
      exact token c t c' h ht (induction refused ended token c')
termination_by c.rest.length

theorem kind_ne_of_mem_stream (c : Cursor) : ∀ t ∈ c.stream.tokens, t.kind ≠ .endOfInput := by
  induction c using Cursor.induction with
  | refused c e h => simp [stream_of_next_error h]
  | ended c t c' h ht => simp [stream_of_next_end h ht]
  | token c t c' h ht ih =>
    rw [stream_of_next_token h ht]
    exact List.forall_mem_cons.mpr ⟨ht, ih⟩

theorem kind_of_ending (c : Cursor) {last : Token} (h : c.stream.ending = .ok last) :
    last.kind = .endOfInput := by
  induction c using Cursor.induction with
  | refused c e hn => rw [stream_of_next_error hn] at h; cases h
  | ended c t c' hn ht => rw [stream_of_next_end hn ht] at h; cases h; exact ht
  | token c t c' hn ht ih => rw [stream_of_next_token hn ht] at h; exact ih h

/-- What a stream is, by what is read first. -/
inductive Streams (c : Cursor) : TokenStream → Prop
  | refused {e : SyntaxError} (h : c.next = .error e) : Streams c ⟨[], .error e⟩
  | ended {t : Token} {c' : Cursor} (h : c.next = .ok (t, c')) (ht : t.kind = .endOfInput) :
      Streams c ⟨[], .ok t⟩
  | token {t : Token} {c' : Cursor} (h : c.next = .ok (t, c')) (ht : t.kind ≠ .endOfInput) :
      Streams c ⟨t :: c'.stream.tokens, c'.stream.ending⟩

theorem stream_spec (c : Cursor) : Streams c c.stream := by
  match h : c.next with
  | .error e =>
    rw [stream_of_next_error h]
    exact .refused h
  | .ok (t, c') =>
    by_cases ht : t.kind = .endOfInput
    · rw [stream_of_next_end h ht]
      exact .ended h ht
    · rw [stream_of_next_token h ht]
      exact .token h ht

theorem Streams.of_eq {s : TokenStream} (h : c.stream = s) : Streams c s := h ▸ c.stream_spec

/-! ## Runs of readings -/

/-- Readings one after the other that give the tokens and lead to the second cursor. -/
inductive Reads : Cursor → List Token → Cursor → Prop
  | nil {c : Cursor} : Reads c [] c
  | cons {c c₁ c₂ : Cursor} {t : Token} {ts : List Token} (h : c.next = .ok (t, c₁))
      (ht : t.kind ≠ .endOfInput) (hs : Reads c₁ ts c₂) : Reads c (t :: ts) c₂

/-- **The stream comes apart** at any of its tokens. -/
theorem reads_of_tokens_eq {ts rest : List Token} (h : c.stream.tokens = ts ++ rest) :
    ∃ c', Reads c ts c' ∧ c'.stream = ⟨rest, c.stream.ending⟩ := by
  induction ts generalizing c with
  | nil => exact ⟨c, .nil, by rw [← List.nil_append rest, ← h]⟩
  | cons t ts ih =>
    obtain ⟨s, hs⟩ : ∃ s, c.stream = s := ⟨_, rfl⟩
    rw [hs] at h ⊢
    cases Streams.of_eq hs with
    | refused hn => cases h
    | ended hn ht => cases h
    | token hn ht =>
      rw [List.cons_append, List.cons.injEq] at h
      obtain ⟨rfl, h⟩ := h
      obtain ⟨c', hr, hc⟩ := ih h
      exact ⟨c', .cons hn ht hr, hc⟩

theorem Reads.run_eq {ts : List Token} (h : Reads c ts c') (n : Nat) :
    c.run (ts.length + n) = ts.map .ok ++ c'.run n := by
  induction h with
  | nil => simp
  | cons hn ht hs ih =>
    rw [List.length_cons, Nat.add_right_comm, Cursor.run, hn]
    simp [ih]

theorem Reads.offset_le {ts : List Token} (h : Reads c ts c') :
    c.position.offset ≤ c'.position.offset := by
  induction h with
  | nil => exact Nat.le_refl _
  | cons hn ht hs ih =>
    have h1 := offset_le_of_next hn
    have h2 := offset_of_next_token hn ht
    omega

/-- The tokens that lead to a cursor lie in front of it. -/
theorem Reads.offset_lt {ts : List Token} (h : Reads c ts c') :
    ∀ t ∈ ts, t.span.start.offset < c'.position.offset ∧
      t.span.stop.offset ≤ c'.position.offset := by
  induction h with
  | nil => simp
  | cons hn ht hs ih =>
    have h1 := offset_of_next_token hn ht
    have h2 := hs.offset_le
    exact List.forall_mem_cons.mpr ⟨⟨by omega, by omega⟩, ih⟩

end Cursor

/-- The tokens of a text are those of its stream, and its ending must be the end of the input. -/
theorem tokenize_eq_ok_iff (text : String) (tokens : List Token) (last : Token) :
    tokenize text = .ok (tokens ++ [last]) ↔
      (TokenStream.ofText text).tokens = tokens ∧ (TokenStream.ofText text).ending = .ok last := by
  unfold tokenize TokenStream.toList
  cases (TokenStream.ofText text).ending with
  | error e => simp [Except.map]
  | ok last' =>
    simp only [Except.map, Except.ok.injEq]
    constructor
    · intro h
      obtain ⟨ht, hl⟩ := List.append_inj' h rfl
      exact ⟨ht, List.singleton_inj.mp hl⟩
    · intro h
      obtain ⟨rfl, rfl⟩ := h
      rfl

end ConstLang
