/-
Where a text that is refused goes wrong. `parse_error_firstFault`: the error is at the first
place from which the text cannot be continued to one that parses, whether what stands there is
no token, a token that does not belong there, or one container too many. What comes later in
the text has no part in it.
-/
import Mathlib
import ConstLang.Proofs.Reader.Viability

namespace ConstLang

namespace Cursor

variable {c : Cursor} {t last : Token} {e : SyntaxError} {rest : List Token}

/-- The first token of a stream is the next one. -/
theorem exists_next_of_stream_token {ending : Except SyntaxError Token}
    (h : c.stream = ⟨t :: rest, ending⟩) : ∃ c', c.next = .ok (t, c') := by
  cases Streams.of_eq h with
  | token hn ht => exact ⟨_, hn⟩

theorem next_of_stream_refused (h : c.stream = ⟨[], .error e⟩) : c.next = .error e := by
  cases Streams.of_eq h with
  | refused hn => exact hn

theorem exists_next_of_stream_ended (h : c.stream = ⟨[], .ok last⟩) :
    ∃ c', c.next = .ok (last, c') := by
  cases Streams.of_eq h with
  | ended hn ht => exact ⟨_, hn⟩

theorem run_one_of_next {c' : Cursor} (h : c.next = .ok (t, c')) : c.run 1 = [.ok t] := by
  rw [run, h]
  rfl

theorem run_one_of_next_error (h : c.next = .error e) : c.run 1 = [.error e] := by
  rw [run, h]
  rfl

theorem Reads.offset_lt_of_le {c' : Cursor} {ts : List Token} {offset : Nat} (h : Reads c ts c')
    (hle : c'.position.offset ≤ offset) :
    ∀ t ∈ ts, t.span.start.offset < offset ∧ t.span.stop.offset ≤ offset := by
  intro t hm
  have := h.offset_lt t hm
  omega

/-- What is refused is refused as a piece of text, not for the tokens around it. -/
theorem fault_of_next_error (h : c.next = .error e) :
    e.fault = .fractionMissing ∨ e.fault = .strayCharacter := by
  cases Next.of_eq h with
  | refused hr hx => exact Lexeme.fault_of_read hx

end Cursor

/-! ## Wordings -/

theorem Expectation.head?_text (wanted : Expectation) : wanted.text.toList.head? = some 'E' := by
  cases wanted <;> rfl

namespace SyntaxError

theorem detail_of_nestingTooDeep (token : String) (span : Span) :
    detail ⟨.nestingTooDeep 256, token, span⟩ = "Nesting too deep (limit 256)" := by
  rfl

/-- No other fault has the wording of too deep a nesting. -/
theorem detail_ne_of_fault {e : SyntaxError}
    (h : e.fault = .fractionMissing ∨ e.fault = .strayCharacter ∨
      ∃ wanted, e.fault = .unexpected wanted) :
    e.detail ≠ "Nesting too deep (limit 256)" := by
  intro he
  have hhead : e.detail.toList.head? = some 'N' := by rw [he]; rfl
  rcases h with h | h | ⟨wanted, h⟩
  · simp only [detail, h] at hhead
    exact absurd hhead (by decide)
  · have hu : "Unexpected character '".toList.head? = some 'U' := rfl
    simp only [detail, h, String.toList_append, List.head?_append, hu, Option.some_or] at hhead
    exact absurd hhead (by decide)
  · simp only [detail, h, String.toList_append, List.head?_append, wanted.head?_text,
      Option.some_or] at hhead
    exact absurd hhead (by decide)

end SyntaxError

/-! ## The three sources of errors -/

namespace Reader

variable {limit : Nat} {r r' : Reader} {t : Token} {e : SyntaxError}

/-- A run that fails takes some tokens and refuses the one behind them. -/
theorem exists_step_of_run_error {ts : List Token} (h : run limit r ts = .error e) :
    ∃ before t rest r', ts = before ++ t :: rest ∧ run limit r before = .ok r' ∧
      step limit r' t = .error e := by
  induction ts generalizing r with
  | nil => cases h
  | cons t ts ih =>
    rw [run_cons] at h
    cases hs : step limit r t with
    | error e' =>
      rw [hs] at h
      cases h
      exact ⟨[], t, ts, r, rfl, rfl, hs⟩
    | ok r₁ =>
      rw [hs] at h
      obtain ⟨before, t', rest, r', rfl, hr, he⟩ := ih h
      have hrun := (run_cons_of_takes (takes_of_step hs) before).trans hr
      exact ⟨t :: before, t', rest, r', rfl, hrun, he⟩

theorem finish_eq_error {last : Token} (h : r.finish last = .error e) :
    ¬ r.MayStop ∧ e = ⟨.unexpected r.stage.wanted, last.text, last.span⟩ := by
  obtain ⟨items, stage⟩ := r
  cases stage <;> simp_all [finish, MayStop]

/-- A refusal is about the token that is refused. -/
theorem token_of_refuses (h : Refuses limit r t e) : e.token = t.text ∧ e.span = t.span := by
  cases h <;> exact ⟨rfl, rfl⟩

/-- A token that is refused may not stand there within the limit. If it is refused for what it
is, it may not stand there within any limit, and else it may within a larger one. -/
theorem admits_of_refuses {before : List Token} (hr : run limit {} before = .ok r)
    (ht : t.kind ≠ .endOfInput) (h : step limit r t = .error e) :
    ¬ Tree.Admits limit (before.map Token.kind) t.kind ∧
      ((∃ wanted, e.fault = .unexpected wanted) ∧
          (∀ limit', ¬ Tree.Admits limit' (before.map Token.kind) t.kind) ∨
        e = ⟨.nestingTooDeep limit, t.text, t.span⟩ ∧
          ∃ limit', Tree.Admits limit' (before.map Token.kind) t.kind) := by
  constructor
  · intro ha
    obtain ⟨r', hs⟩ := (admits_iff hr ht).mp ha
    rw [h] at hs
    cases hs
  · cases refuses_of_step h with
    | unexpected hs =>
      refine .inl ⟨⟨_, rfl⟩, ?_⟩
      intro limit' ha
      -- A larger limit takes what both take, and there the token is refused still.
      have hmax := ha.mono (Nat.le_max_right limit limit')
      obtain ⟨r', hs'⟩ := (admits_iff (run_mono (Nat.le_max_left limit limit') hr) ht).mp hmax
      rw [hs, refuse] at hs'
      cases hs'
    | nestingTooDeep hle htakes =>
      exact .inr ⟨rfl, _, (admits_iff (run_mono hle hr) ht).mpr ⟨_, step_of_takes htakes⟩⟩

end Reader

namespace Tree

/-- A stream fails at a token that is refused, at its ending, or because it ends too early. -/
theorem exists_of_ofStream_error {limit : Nat} {s : TokenStream} {e : SyntaxError}
    (h : ofStream limit s = .error e) :
    ∃ before r, Reader.run limit {} before = .ok r ∧
      ((∃ t rest, s.tokens = before ++ t :: rest ∧ Reader.step limit r t = .error e) ∨
        (s.tokens = before ∧ s.ending = .error e) ∨
        (∃ last, s.tokens = before ∧ s.ending = .ok last ∧ r.finish last = .error e)) := by
  unfold ofStream at h
  cases hr : Reader.run limit {} s.tokens with
  | error e' =>
    rw [hr] at h
    cases h
    obtain ⟨before, t, rest, r, hts, hb, hs⟩ := Reader.exists_step_of_run_error hr
    exact ⟨before, r, hb, .inl ⟨t, rest, hts, hs⟩⟩
  | ok r =>
    rw [hr] at h
    refine ⟨s.tokens, r, hr, .inr ?_⟩
    cases he : s.ending with
    | error e' => rw [he] at h; cases h; exact .inl ⟨rfl, rfl⟩
    | ok last => rw [he] at h; exact .inr ⟨last, rfl, rfl, h⟩

/-- The first fault of a text: `before` are the tokens that are read in front of the place of
the error, and `next` is what is read behind them. -/
structure FirstFault (text : String) (e : SyntaxError) (before : List Token)
    (next : Except SyntaxError Token) : Prop where
  read : (Cursor.ofText text).run (before.length + 1) = before.map .ok ++ [next]
  inFront : ∀ t ∈ before, t.span.start.offset < e.span.start.offset ∧
    t.span.stop.offset ≤ e.span.start.offset
  /-- Up to the error, the text could become one that parses. -/
  viable : Viable 256 (before.map Token.kind)
  /-- The error is that nothing can be read, or it is about what is read, the end of the input
  perhaps: that may not stand there. It might if containers could be nested deeper, exactly
  when the error says that they are nested too deep. -/
  fault : next = .error e ∧ e.detail ≠ "Nesting too deep (limit 256)" ∨
    ∃ t, next = .ok t ∧ e.span = t.span ∧ e.token = t.text ∧
      ¬ Admits 256 (before.map Token.kind) t.kind ∧
      (e.detail = "Nesting too deep (limit 256)" ↔
        ∃ limit, Admits limit (before.map Token.kind) t.kind)

namespace FirstFault

variable {text : String} {before : List Token} {r : Reader} {e : SyntaxError}

/-- A token that the reader refuses is the first fault. -/
theorem of_step {t : Token} {rest : List Token} (hr : Reader.run 256 {} before = .ok r)
    (hts : (TokenStream.ofText text).tokens = before ++ t :: rest)
    (hs : Reader.step 256 r t = .error e) : FirstFault text e before (.ok t) := by
  obtain ⟨c, hreads, hstream⟩ := Cursor.reads_of_tokens_eq hts
  obtain ⟨c', hn⟩ := Cursor.exists_next_of_stream_token hstream
  have hmem : t ∈ (TokenStream.ofText text).tokens := by
    rw [hts]
    exact List.mem_append_right _ List.mem_cons_self
  have ht : t.kind ≠ .endOfInput := (Cursor.ofText text).kind_ne_of_mem_stream t hmem
  obtain ⟨htoken, hspan⟩ := Reader.token_of_refuses (Reader.refuses_of_step hs)
  obtain ⟨hnot, hwhy⟩ := Reader.admits_of_refuses hr ht hs
  refine ⟨?_, ?_, Reader.viable_iff.mpr ⟨r, hr⟩, .inr ⟨t, rfl, hspan, htoken, hnot, ?_⟩⟩
  · rw [hreads.run_eq, Cursor.run_one_of_next hn]
  · rw [hspan]
    exact hreads.offset_lt_of_le (Cursor.offset_le_of_next hn)
  · rcases hwhy with ⟨hf, hnever⟩ | ⟨rfl, hdeeper⟩
    · exact iff_of_false (SyntaxError.detail_ne_of_fault (.inr (.inr hf)))
        fun ⟨limit, ha⟩ => hnever limit ha
    · exact iff_of_true (SyntaxError.detail_of_nestingTooDeep _ _) hdeeper

/-- Text that is no token is the first fault if the reader takes all tokens in front of it. -/
theorem of_ending_error (hr : Reader.run 256 {} before = .ok r)
    (hts : (TokenStream.ofText text).tokens = before)
    (he : (TokenStream.ofText text).ending = .error e) : FirstFault text e before (.error e) := by
  rw [← List.append_nil before] at hts
  obtain ⟨c, hreads, hstream⟩ := Cursor.reads_of_tokens_eq hts
  have hn := Cursor.next_of_stream_refused (hstream.trans (congrArg _ he))
  refine ⟨?_, ?_, Reader.viable_iff.mpr ⟨r, hr⟩, .inl ⟨rfl, ?_⟩⟩
  · rw [hreads.run_eq, Cursor.run_one_of_next_error hn]
  · exact hreads.offset_lt_of_le (Cursor.offset_le_of_next_error hn)
  · have hf := Cursor.fault_of_next_error hn
    exact SyntaxError.detail_ne_of_fault (hf.imp_right .inl)

/-- The end of the input is the first fault if the reader cannot stop there. -/
theorem of_finish {last : Token} (hr : Reader.run 256 {} before = .ok r)
    (hts : (TokenStream.ofText text).tokens = before)
    (he : (TokenStream.ofText text).ending = .ok last) (hf : r.finish last = .error e) :
    FirstFault text e before (.ok last) := by
  rw [← List.append_nil before] at hts
  obtain ⟨c, hreads, hstream⟩ := Cursor.reads_of_tokens_eq hts
  obtain ⟨c', hn⟩ := Cursor.exists_next_of_stream_ended (hstream.trans (congrArg _ he))
  have ht := (Cursor.ofText text).kind_of_ending he
  obtain ⟨hstop, rfl⟩ := Reader.finish_eq_error hf
  -- What is wrong with a text that ends too early is wrong within any limit.
  have hnever : ∀ limit, ¬ Admits limit (before.map Token.kind) last.kind := by
    intro limit ha
    have hmax := ha.mono (Nat.le_max_right 256 limit)
    have hrun := Reader.run_mono (Nat.le_max_left 256 limit) hr
    exact hstop ((Reader.admits_end_iff hrun ht).mp hmax)
  refine ⟨?_, ?_, Reader.viable_iff.mpr ⟨r, hr⟩, .inr ⟨last, rfl, rfl, rfl, hnever 256, ?_⟩⟩
  · rw [hreads.run_eq, Cursor.run_one_of_next hn]
  · exact hreads.offset_lt_of_le (Cursor.offset_le_of_next hn)
  · exact iff_of_false (SyntaxError.detail_ne_of_fault (.inr (.inr ⟨_, rfl⟩)))
      fun ⟨limit, ha⟩ => hnever limit ha

end FirstFault

/-- **The first fault is reported.** If a text does not parse, the error is at the first place
up to which it could be continued to a text that does. -/
theorem parse_error_firstFault {text : String} {e : SyntaxError} (h : parse text = .error e) :
    ∃ before next, FirstFault text e before next := by
  obtain ⟨before, r, hr, hcases⟩ := exists_of_ofStream_error h
  rcases hcases with ⟨t, rest, hts, hs⟩ | ⟨hts, he⟩ | ⟨last, hts, he, hf⟩
  · exact ⟨before, .ok t, .of_step hr hts hs⟩
  · exact ⟨before, .error e, .of_ending_error hr hts he⟩
  · exact ⟨before, .ok last, .of_finish hr hts he hf⟩

/-- A name where a value is wanted, in front of a character that no token starts with. -/
theorem parse_error_name_before_stray :
    parse "[ 1.0 x ;" = .error ⟨.unexpected .value, "x", ⟨⟨0, 6, 6⟩, ⟨0, 7, 7⟩⟩⟩ ∧
      ∃ before next, FirstFault "[ 1.0 x ;"
        ⟨.unexpected .value, "x", ⟨⟨0, 6, 6⟩, ⟨0, 7, 7⟩⟩⟩ before next := by
  have h : parse "[ 1.0 x ;" = .error ⟨.unexpected .value, "x", ⟨⟨0, 6, 6⟩, ⟨0, 7, 7⟩⟩⟩ := by cbv
  exact ⟨h, parse_error_firstFault h⟩

end Tree

end ConstLang
