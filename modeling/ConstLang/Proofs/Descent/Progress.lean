/-
Reading by descent makes progress and ends. Where a routine for a rule of the grammar gives
something, it has gone further on in the text, with as much open as before; whatever comes of a
routine, there was never too much open, and nothing was closed that was not open; and every routine
ends, the loops included. All that holds in every state that reading a text may come to. Reading a
whole text ends, too, and gives what the reader gives.
-/
import ConstLang.Proofs.Descent.Agreement
import ConstLang.Proofs.Descent.Calls

namespace ConstLang

namespace Descent

variable {α : Type} {limit bytes calls : Nat} {text : String} {s : Descent}

/-- A state that reading a text comes to. -/
def Reachable (limit : Nat) (text : String) (s : Descent) : Prop :=
  ∃ calls, s ∈ (parse limit calls text).2

/-- The states that a routine has gone through, the last one first. -/
def gone : EStateM.Result Stop Trace α → List Descent
  | .ok _ t | .error _ t => t.states

/-- A routine that is called in a state of reading a text ends. On the way there is never more open
than the limit, and nothing is closed that is not open. -/
structure Ends (limit : Nat) (text : String) (m : Nat → Nat → Routine α) (s : Descent) : Prop where
  /-- Two calls for each byte and three more are enough, and with still more it is the same. -/
  settled : ∃ result, (∀ t, result ≠ .error .outOfCalls t) ∧
    ∀ calls, 2 * text.utf8ByteSize + 3 ≤ calls → m limit calls ⟨s, []⟩ = result
  shallow : ∀ calls, ∀ s' ∈ gone (m limit calls ⟨s, []⟩), s'.depth ≤ limit
  no_underflow : ∀ calls t, m limit calls ⟨s, []⟩ ≠ .error .underflow t

/-- A routine that ends and, where it gives something, has gone further on. -/
structure Advances (limit : Nat) (text : String) (m : Nat → Nat → Routine α) (s : Descent) : Prop
    extends Ends limit text m s where
  further : ∀ calls a t, m limit calls ⟨s, []⟩ = .ok a t → Further s t.now

/-! ## What comes of a routine -/

section Yields

variable {enough : Prop} {ok : α → Descent → Prop} {refused : SyntaxError → Prop}
  {x : EStateM.Result Stop Trace α} {m : Nat → Nat → Routine α} {few : Nat}

theorem Yields.sound_of_gone (hx : Yields limit bytes enough ok refused x) :
    ∀ s ∈ gone x, s.Sound limit bytes := by
  cases hx with
  | ok ht | refused ht | outOfCalls ht => exact ht

theorem Yields.ne_underflow (hx : Yields limit bytes enough ok refused x) (t : Trace) :
    x ≠ .error .underflow t := by
  cases hx <;> simp

theorem Yields.ne_outOfCalls (hx : Yields limit bytes enough ok refused x) (he : enough)
    (t : Trace) : x ≠ .error .outOfCalls t := by
  cases hx with
  | ok | refused => simp
  | outOfCalls _ hn => exact absurd he hn

theorem Yields.of_ok {a : α} {t : Trace} (hx : Yields limit bytes enough ok refused (.ok a t)) :
    ok a t.now := by
  cases hx with
  | ok _ h => exact h

theorem ends_of_yields
    (hy : ∀ calls, Yields limit text.utf8ByteSize (few ≤ calls) ok refused (m limit calls ⟨s, []⟩))
    (hm : ∀ calls, Refines (m limit calls) (m limit (calls + 1)))
    (hf : few ≤ 2 * text.utf8ByteSize + 3) : Ends limit text m s where
  settled := by
    have hne := (hy (2 * text.utf8ByteSize + 3)).ne_outOfCalls hf
    refine ⟨_, hne, fun calls hle => ?_⟩
    rcases Refines.le hm hle ⟨s, []⟩ with ⟨t, hout⟩ | heq
    · exact absurd hout (hne t)
    · exact heq.symm
  shallow calls s' hs' := ((hy calls).sound_of_gone s' hs').depth_le
  no_underflow calls := (hy calls).ne_underflow

theorem advances_of_yields
    (hy : ∀ calls, Yields limit text.utf8ByteSize (few ≤ calls) (fun _ s' => Further s s') refused
      (m limit calls ⟨s, []⟩))
    (hm : ∀ calls, Refines (m limit calls) (m limit (calls + 1)))
    (hf : few ≤ 2 * text.utf8ByteSize + 3) : Advances limit text m s where
  toEnds := ends_of_yields hy hm hf
  further calls a t h := by
    have hok := hy calls
    rw [h] at hok
    exact hok.of_ok

end Yields

/-! ## A whole text -/

/-- Reading starts in a sound state. -/
theorem sound_of_start {token : Token} {c : Cursor}
    (h : (Cursor.ofText text).pull = (.ok token, c)) :
    Trace.Sound limit text.utf8ByteSize ⟨⟨token, c, 0⟩, []⟩ := by
  have htext : (Cursor.ofText text).endOffset = text.utf8ByteSize := by
    rw [Cursor.endOffset, Cursor.ofText, byteLength_toList]
    exact Nat.zero_add _
  exact (sound_of_pull h htext (Nat.zero_le _)).alone

theorem Reachable.sound (h : Reachable limit text s) : s.Sound limit text.utf8ByteSize := by
  obtain ⟨calls, h⟩ := h
  rw [parse] at h
  split at h
  · cases h
  · next token c hp =>
    have ht : Trace.Sound limit text.utf8ByteSize ⟨⟨token, c, 0⟩, []⟩ := sound_of_start hp
    have hgone := (items_yields calls ht).sound_of_gone s
    split at h
    all_goals
      next hi =>
      rw [hi] at hgone
      exact hgone h

/-- Reading by descent gives what the reader gives. -/
theorem parse_eq_ofStream (text : String) (hc : 2 * text.utf8ByteSize + 3 ≤ calls) :
    (parse limit calls text).1 =
      (Tree.ofStream limit (.ofText text)).mapError Stop.refused := by
  change _ = (Reader.goOn limit {} (Cursor.ofText text).stream).mapError Stop.refused
  rw [parse]
  split
  · next e c hp =>
    rw [Cursor.stream_of_pull_endsReading hp trivial, Reader.goOn_of_refused]
    rfl
  · next token c hp =>
    have ht : Trace.Sound limit text.utf8ByteSize ⟨⟨token, c, 0⟩, []⟩ := sound_of_start hp
    have hne := (items_yields calls ht).ne_outOfCalls (by omega)
    have hr : readBy limit {} ⟨token, c, 0⟩ = Reader.goOn limit {} (Cursor.ofText text).stream := by
      rw [stream_of_pull hp, readBy]
    have hleads := items_leads calls ht hr rfl
    generalize items limit calls ⟨⟨token, c, 0⟩, []⟩ = x at hne hleads ⊢
    cases hleads with
    | ok _ h | refused _ h =>
      rw [h]
      rfl
    | outOfCalls => exact absurd rfl (hne _)

/-! ## The end of the input -/

theorem value_of_endOfInput {t : Trace} (hk : t.now.current.kind = .endOfInput) (calls : Nat) :
    value limit (calls + 1) t =
      .error (.refused ⟨.unexpected .value, t.now.current.text, t.now.current.span⟩) t := by
  rw [value, now_bind, hk]
  rfl

theorem elements_of_endOfInput {t : Trace} (hk : t.now.current.kind = .endOfInput) (calls : Nat) :
    elements limit (calls + 2) t =
      .error (.refused ⟨.unexpected .value, t.now.current.text, t.now.current.span⟩) t := by
  rw [elements, now_bind, if_neg (by simp [hk])]
  change EStateM.bind (value limit (calls + 1)) _ t = _
  rw [EStateM.bind, value_of_endOfInput hk]

/-! ## Every routine -/

/-- **Reading makes progress and ends**, in every state that reading a text may come to. -/
theorem routines_progress (text : String) :
    (∀ calls, 2 * text.utf8ByteSize + 3 ≤ calls →
      (parse Reader.maxDepth calls text).1 = (Tree.parse text).mapError Stop.refused) ∧
    ∀ s, Reachable Reader.maxDepth text s →
      s.depth ≤ Reader.maxDepth ∧
      Advances Reader.maxDepth text declaration s ∧
      Advances Reader.maxDepth text value s ∧
      Advances Reader.maxDepth text array s ∧
      Advances Reader.maxDepth text struct s ∧
      Advances Reader.maxDepth text field s ∧
      Advances Reader.maxDepth text (fun _ _ => reference) s ∧
      Ends Reader.maxDepth text elements s ∧
      Ends Reader.maxDepth text body s ∧
      Ends Reader.maxDepth text fields s ∧
      Ends Reader.maxDepth text items s ∧
      (s.current.kind = .endOfInput → ∀ calls,
        value Reader.maxDepth (calls + 1) ⟨s, []⟩ =
          .error (.refused ⟨.unexpected .value, s.current.text, s.current.span⟩) ⟨s, []⟩ ∧
        elements Reader.maxDepth (calls + 2) ⟨s, []⟩ =
          .error (.refused ⟨.unexpected .value, s.current.text, s.current.span⟩) ⟨s, []⟩) := by
  refine ⟨fun calls hc => parse_eq_ofStream text hc, fun s hs => ?_⟩
  have ht := hs.sound.alone
  have hle : 2 * (text.utf8ByteSize - s.offset) ≤ 2 * text.utf8ByteSize := by omega
  refine ⟨hs.sound.depth_le, ?declaration, ?value, ?array, ?struct, ?field, ?reference, ?elements,
    ?body, ?fields, ?items, ?endOfInput⟩
  case declaration =>
    exact advances_of_yields (declaration_yields · ht) declaration_refines (by omega)
  case value => exact advances_of_yields (value_yields · ht) value_refines (by omega)
  case array => exact advances_of_yields (array_yields · ht) array_refines (by omega)
  case struct => exact advances_of_yields (struct_yields · ht) struct_refines (by omega)
  case field => exact advances_of_yields (field_yields · ht) field_refines (by omega)
  case reference =>
    exact advances_of_yields (fun _ => (reference_yields ht).of_enough fun _ => trivial)
      (fun _ => .refl _) (Nat.zero_le _)
  case elements => exact ends_of_yields (elements_yields · ht) elements_refines (by omega)
  case body => exact ends_of_yields (body_yields · ht) body_refines (by omega)
  case fields => exact ends_of_yields (fields_yields · ht) fields_refines (by omega)
  case items => exact ends_of_yields (items_yields · ht) items_refines (by omega)
  case endOfInput =>
    exact fun hk calls => ⟨value_of_endOfInput hk calls, elements_of_endOfInput hk calls⟩

/-- Where the text ends, two arrays and a struct are open: the loop over the elements of the inner
array comes to the end of the input, which is refused. -/
theorem routines_progress_unclosed : ∃ s,
    Reachable Reader.maxDepth "[ struct \x7b a = [ 1.0" s ∧ s.depth = 3 ∧ s.offset = 20 ∧
    Advances Reader.maxDepth "[ struct \x7b a = [ 1.0" value s ∧
    Ends Reader.maxDepth "[ struct \x7b a = [ 1.0" elements s ∧
    ∀ calls, elements Reader.maxDepth (calls + 2) ⟨s, []⟩ =
      .error (.refused ⟨.unexpected .value, "", ⟨⟨0, 20, 20⟩, ⟨0, 20, 20⟩⟩⟩) ⟨s, []⟩ := by
  have hreach : Reachable Reader.maxDepth "[ struct \x7b a = [ 1.0"
      ⟨.endAt ⟨0, 20, 20⟩, ⟨[], ⟨0, 20, 20⟩⟩, 3⟩ := ⟨43, List.mem_of_mem_head? (by cbv)⟩
  obtain ⟨-, -, hvalue, -, -, -, -, helements, -, -, -, hrefused⟩ :=
    (routines_progress "[ struct \x7b a = [ 1.0").2 _ hreach
  exact ⟨_, hreach, rfl, rfl, hvalue, helements, fun calls => (hrefused rfl calls).2⟩

end Descent

end ConstLang
