/-
What may come of the moves of reading by descent, and of routines that are put together from them.
`Sound` is what holds of every state that reading comes to; `Yields` says of a result that all its
states are sound, and what holds of the last one if there was no refusal. It has no case for
closing what is not open. `Yields.bind` is the rule for one routine behind another.
-/
import ConstLang.Proofs.Descent

namespace ConstLang

namespace Descent

/-- What holds of every state in a text of `bytes` bytes where `limit` arrays and structs may be
open at once: the current token has been read from the text in front of the cursor. -/
structure Sound (limit bytes : Nat) (s : Descent) : Prop where
  depth_le : s.depth ≤ limit
  inText : s.cursor.endOffset = bytes
  takesUp : s.current.kind ≠ .endOfInput → s.offset < s.cursor.position.offset
  atEnd : s.current.kind = .endOfInput →
    s.current = .endAt s.cursor.position ∧ s.cursor.rest = []

def Trace.Sound (limit bytes : Nat) (t : Trace) : Prop := ∀ s ∈ t.states, s.Sound limit bytes

/-- What may come of a routine: it gives something, it refuses a token, or its calls are used up,
which happens only if they were not `enough`. Nothing is closed that is not open. -/
inductive Yields {α : Type} (limit bytes : Nat) (enough : Prop) (ok : α → Descent → Prop)
    (refused : SyntaxError → Prop) : EStateM.Result Stop Trace α → Prop
  | ok {a : α} {t : Trace} (ht : t.Sound limit bytes) (h : ok a t.now) :
      Yields limit bytes enough ok refused (.ok a t)
  | refused {e : SyntaxError} {t : Trace} (ht : t.Sound limit bytes) (h : refused e) :
      Yields limit bytes enough ok refused (.error (.refused e) t)
  | outOfCalls {t : Trace} (ht : t.Sound limit bytes) (h : ¬ enough) :
      Yields limit bytes enough ok refused (.error .outOfCalls t)

variable {α β : Type} {limit bytes : Nat} {enough enough' : Prop} {t : Trace}
  {ok ok' mid : α → Descent → Prop} {post : β → Descent → Prop}
  {refused refused' : SyntaxError → Prop}

theorem Trace.Sound.now (ht : t.Sound limit bytes) : t.now.Sound limit bytes :=
  ht t.now List.mem_cons_self

theorem Trace.Sound.become {s : Descent} (ht : t.Sound limit bytes) (hs : s.Sound limit bytes) :
    Trace.Sound limit bytes ⟨s, t.states⟩ :=
  List.forall_mem_cons.mpr ⟨hs, ht⟩

theorem Sound.alone {s : Descent} (hs : s.Sound limit bytes) : Trace.Sound limit bytes ⟨s, []⟩ :=
  List.forall_mem_singleton.mpr hs

theorem Sound.offset_le {s : Descent} (hs : s.Sound limit bytes) : s.offset ≤ bytes := by
  have htext := hs.inText
  unfold Cursor.endOffset at htext
  by_cases hk : s.current.kind = .endOfInput
  · have hoffset : s.offset = s.cursor.position.offset := by rw [offset, (hs.atEnd hk).1]; rfl
    omega
  · have hlt := hs.takesUp hk
    omega

/-- **One routine behind another.** -/
theorem Yields.bind {m : Routine α} {f : α → Routine β}
    (hm : Yields limit bytes enough mid refused (m t))
    (hf : ∀ a t', t'.Sound limit bytes → mid a t'.now →
      Yields limit bytes enough post refused (f a t')) :
    Yields limit bytes enough post refused ((m >>= f) t) := by
  change Yields limit bytes enough post refused (EStateM.bind m f t)
  unfold EStateM.bind
  generalize m t = x at hm ⊢
  cases hm with
  | ok ht h => exact hf _ _ ht h
  | refused ht h => exact .refused ht h
  | outOfCalls ht h => exact .outOfCalls ht h

theorem Yields.pure {a : α} (ht : t.Sound limit bytes) (h : ok a t.now) :
    Yields limit bytes enough ok refused ((Pure.pure a : Routine α) t) := .ok ht h

theorem Yields.mono {x : EStateM.Result Stop Trace α}
    (hx : Yields limit bytes enough ok refused x) (h : ∀ a s, ok a s → ok' a s) :
    Yields limit bytes enough ok' refused x := by
  cases hx with
  | ok ht hok => exact .ok ht (h _ _ hok)
  | refused ht hr => exact .refused ht hr
  | outOfCalls ht hn => exact .outOfCalls ht hn

/-- Two things that hold of one result hold of it together. -/
theorem Yields.and {x : EStateM.Result Stop Trace α}
    (hx : Yields limit bytes enough ok refused x)
    (hx' : Yields limit bytes enough' ok' refused' x) :
    Yields limit bytes enough' (fun a s => ok a s ∧ ok' a s) refused' x := by
  cases hx' with
  | ok ht h' =>
    cases hx with
    | ok _ h => exact .ok ht ⟨h, h'⟩
  | refused ht h' => exact .refused ht h'
  | outOfCalls ht h' => exact .outOfCalls ht h'

theorem Yields.of_enough {x : EStateM.Result Stop Trace α}
    (hx : Yields limit bytes enough ok refused x) (he : enough' → enough) :
    Yields limit bytes enough' ok refused x := by
  cases hx with
  | ok ht hok => exact .ok ht hok
  | refused ht hr => exact .refused ht hr
  | outOfCalls ht hn => exact .outOfCalls ht fun he' => hn (he he')

/-! ## The moves -/

/-- The second state is further on in the text, and as many arrays and structs are open. -/
structure Further (s s' : Descent) : Prop where
  offset_lt : s.offset < s'.offset
  depth_eq : s'.depth = s.depth

theorem Further.trans {s s' s'' : Descent} (h : Further s s') (h' : Further s' s'') :
    Further s s'' :=
  ⟨Nat.lt_trans h.offset_lt h'.offset_lt, h'.depth_eq.trans h.depth_eq⟩

theorem now_bind (f : Descent → Routine β) (t : Trace) : (now >>= f) t = f t.now t := rfl

/-- A token that is read behind a cursor makes a state of the text. -/
theorem sound_of_pull {c c' : Cursor} {token : Token} {depth : Nat}
    (h : c.pull = (.ok token, c')) (hc : c.endOffset = bytes) (hd : depth ≤ limit) :
    Sound limit bytes ⟨token, c', depth⟩ := by
  have hn := Cursor.next_of_pull h
  have htext := c.endOffset_pull
  rw [h] at htext
  exact ⟨hd, htext.trans hc, fun hk => (Cursor.offset_of_next_token hn hk).1,
    Cursor.eq_endAt_of_next hn⟩

/-- Where no token can be read, the blanks in front of that place are skipped all the same. -/
theorem Sound.of_pull_error {s : Descent} {c : Cursor} {e : SyntaxError}
    (hs : s.Sound limit bytes) (h : s.cursor.pull = (.error e, c)) :
    Sound limit bytes { s with cursor := c } := by
  have htext := s.cursor.endOffset_pull
  rw [h] at htext
  refine ⟨hs.depth_le, htext.trans hs.inText, fun hk => ?_, fun hk => ?_⟩
  · have hlt := hs.takesUp hk
    have hle : s.cursor.position.offset ≤ c.position.offset := by
      cases hn : s.cursor.next with
      | error e' =>
        rw [Cursor.pull_of_next_error hn] at h
        cases h
        exact s.cursor.offset_le_skipBlanks
      | ok r =>
        rw [Cursor.pull_of_next hn] at h
        cases h
    exact Nat.lt_of_lt_of_le hlt hle
  · -- At the end of the input there is a token, the end once more.
    rw [Cursor.pull_of_next (Cursor.next_of_rest_nil (hs.atEnd hk).2)] at h
    cases h

theorem bump_yields (ht : t.Sound limit bytes)
    (hr : ∀ e c, t.now.cursor.pull = (.error e, c) → refused e) :
    Yields limit bytes enough
      (fun token s => token = t.now.current ∧ t.now.cursor.pull = (.ok s.current, s.cursor) ∧
        s.depth = t.now.depth) refused (bump t) := by
  rw [bump, now_bind]
  obtain ⟨⟨x, c⟩, hp⟩ : ∃ p, t.now.cursor.pull = p := ⟨_, rfl⟩
  cases x with
  | ok token =>
    have hs := sound_of_pull hp ht.now.inText ht.now.depth_le
    simp only [hp]
    exact .ok (ht.become hs) ⟨rfl, rfl, rfl⟩
  | error e =>
    simp only [hp]
    exact .refused (ht.become (ht.now.of_pull_error hp)) (hr e c hp)

theorem refuse_yields {fault : SyntaxFault} (ht : t.Sound limit bytes)
    (hr : refused ⟨fault, t.now.current.text, t.now.current.span⟩) :
    Yields limit bytes enough ok refused ((refuse fault : Routine α) t) := .refused ht hr

theorem expect_yields {kind : Token.Kind} {fault : SyntaxFault} {ok : Token → Descent → Prop}
    (ht : t.Sound limit bytes)
    (hb : t.now.current.kind = kind → Yields limit bytes enough ok refused (bump t))
    (hr : t.now.current.kind ≠ kind → refused ⟨fault, t.now.current.text, t.now.current.span⟩) :
    Yields limit bytes enough ok refused (expect kind fault t) := by
  rw [expect, now_bind]
  split
  · next hk => exact hb hk
  · next hk => exact refuse_yields ht (hr hk)

theorem enter_yields (ht : t.Sound limit bytes)
    (hr : ¬ t.now.depth < limit →
      refused ⟨.nestingTooDeep limit, t.now.current.text, t.now.current.span⟩) :
    Yields limit bytes enough
      (fun _ s => s = { t.now with depth := t.now.depth + 1 } ∧ t.now.depth < limit) refused
      (enter limit t) := by
  rw [enter, now_bind]
  split
  · next hd =>
    exact .ok (ht.become ⟨hd, ht.now.inText, ht.now.takesUp, ht.now.atEnd⟩) ⟨rfl, hd⟩
  · next hd => exact refuse_yields ht (hr hd)

/-- What is open can be closed. -/
theorem leave_yields {depth : Nat} (ht : t.Sound limit bytes) (hd : t.now.depth = depth + 1) :
    Yields limit bytes enough (fun _ s => s = { t.now with depth }) refused (leave t) := by
  rw [leave, now_bind, hd]
  have hle := ht.now.depth_le
  rw [hd] at hle
  have hs : Sound limit bytes { t.now with depth } :=
    ⟨Nat.le_of_succ_le hle, ht.now.inText, ht.now.takesUp, ht.now.atEnd⟩
  exact .ok (ht.become hs) rfl

/-- A token that is taken and is not the end lies in front of the next one. -/
theorem Sound.further {s s' : Descent} (hs : s.Sound limit bytes)
    (hk : s.current.kind ≠ .endOfInput) (hp : s.cursor.pull = (.ok s'.current, s'.cursor))
    (hd : s'.depth = s.depth) : Further s s' := by
  have hlt := hs.takesUp hk
  have hle := Cursor.offset_le_of_next (Cursor.next_of_pull hp)
  exact ⟨Nat.lt_of_lt_of_le hlt hle, hd⟩

end Descent

end ConstLang
