/-
Reading by descent and a reader agree. Wherever a routine is called, the reader that stands at the
same place makes of the text that is left what the reader makes of it that the routine leads to, and
a refusal of the routine is one of the reader: `value_leads`, and one like it for every routine.
The number of open arrays and structs is the depth of the place that the reader is to fill.
-/
import ConstLang.Proofs.Descent.Routines
import ConstLang.Proofs.Reader.Asking

namespace ConstLang

open Reader (Hole Stage OpenStruct FieldStart Takes fill MayStop goOn)

namespace Descent

/-- The tokens from the current one on, and what comes after them. -/
def stream (s : Descent) : TokenStream :=
  if s.current.kind = .endOfInput then ⟨[], .ok s.current⟩
  else ⟨s.current :: s.cursor.stream.tokens, s.cursor.stream.ending⟩

/-- What a reader makes of the text from the current token on. -/
def readBy (limit : Nat) (r : Reader) (s : Descent) : Except SyntaxError (List Tree.Item) :=
  goOn limit r s.stream

/-- A routine that is called where `t` stands goes further on, and leads a reader to the next one:
what is left for that one comes to the answer. A token that is refused comes to it, too. -/
abbrev Leads {α : Type} (limit bytes : Nat) (t : Trace)
    (answer : Except SyntaxError (List Tree.Item)) (next : α → Reader) (m : Routine α) : Prop :=
  Yields limit bytes False (fun a s => Further t.now s ∧ s.readBy limit (next a) = answer)
    (fun e => answer = .error e) (m t)

variable {limit bytes : Nat} {answer : Except SyntaxError (List Tree.Item)} {r r' : Reader}
  {s : Descent} {t : Trace} {items : List Tree.Item} {stage : Stage} {hole : Hole}

/-! ## The current token -/

theorem stream_of_pull {c c' : Cursor} {token : Token} {depth : Nat}
    (h : c.pull = (.ok token, c')) : c.stream = stream ⟨token, c', depth⟩ := by
  rw [stream]
  split
  · next hk => exact Cursor.stream_of_pull_endsReading h hk
  · next hk => exact Cursor.stream_of_pull_token h hk

theorem readBy_of_takes (hk : s.current.kind ≠ .endOfInput) (h : Takes limit r s.current r') :
    s.readBy limit r = goOn limit r' s.cursor.stream := by
  rw [readBy, stream, if_neg hk, Reader.goOn_of_takes h]

theorem readBy_of_step_error {e : SyntaxError} (hk : s.current.kind ≠ .endOfInput)
    (h : r.step limit s.current = .error e) : s.readBy limit r = .error e := by
  rw [readBy, stream, if_neg hk, Reader.goOn_of_step_error h]

/-- At the end of the input it is decided whether the reader may stop. -/
theorem readBy_of_endOfInput (hk : s.current.kind = .endOfInput) :
    s.readBy limit r = r.finish s.current := by
  rw [readBy, stream, if_pos hk, Reader.goOn_of_ended]

theorem readBy_of_refused
    (hstep : s.current.kind ≠ .endOfInput →
      r.step limit s.current = Reader.refuse r.stage s.current)
    (hstop : s.current.kind = .endOfInput → ¬ r.MayStop) :
    s.readBy limit r =
      .error ⟨.unexpected r.stage.wanted, s.current.text, s.current.span⟩ := by
  by_cases hk : s.current.kind = .endOfInput
  · rw [readBy_of_endOfInput hk, Reader.finish_of_not_mayStop (hstop hk)]
  · exact readBy_of_step_error hk (hstep hk)

/-! ## The moves -/

section Moves

variable {kind : Token.Kind} {next : Token → Reader}

/-- The reader takes the token that is taken. -/
theorem bump_leads (ht : t.Sound limit bytes) (hr : t.now.readBy limit r = answer)
    (hk : t.now.current.kind = kind) (hne : kind ≠ .endOfInput)
    (h : ∀ token : Token, token.kind = kind → Takes limit r token (next token)) :
    Leads limit bytes t answer next bump := by
  rw [readBy_of_takes (hk ▸ hne) (h _ hk)] at hr
  refine (bump_yields ht fun e c hp => ?_).mono fun token s hs => ?_
  · rw [← hr, Cursor.stream_of_pull_endsReading hp trivial, Reader.goOn_of_refused]
  · obtain ⟨rfl, hp, hd⟩ := hs
    exact ⟨ht.now.further (hk ▸ hne) hp hd, by rw [← hr, stream_of_pull hp, readBy]⟩

/-- The token that is asked for, in a stage that asks for one. -/
theorem ask_leads (ht : t.Sound limit bytes) (h : stage.Asks items kind next)
    (hr : t.now.readBy limit ⟨items, stage⟩ = answer) :
    Leads limit bytes t answer next (expect kind (.unexpected stage.wanted)) := by
  refine expect_yields ht (fun hk => ?_) fun hk => ?_
  · exact bump_leads ht hr hk h.ne_endOfInput fun _ => h.takes
  · rw [← hr]
    exact readBy_of_refused (fun _ => h.step_eq hk) fun _ => h.not_mayStop

theorem start_leads (wanted : String) (ht : t.Sound limit bytes)
    (hr : t.now.readBy limit r = answer) (hk : t.now.current.kind = kind)
    (hne : kind ≠ .endOfInput)
    (h : ∀ token : Token, token.kind = kind → Takes limit r token (next token)) :
    Leads limit bytes t answer next (start kind wanted) :=
  expect_yields ht (fun hk => bump_leads ht hr hk hne h) fun hn => absurd hk hn

/-- The reader goes on inside what is opened, and refuses what is nested too deep. -/
theorem openWith_leads {inside : Token → Stage} (wanted : String) (ht : t.Sound limit bytes)
    (hr : t.now.readBy limit ⟨items, stage⟩ = answer) (hs : stage.Awaits hole)
    (ho : Stage.Opens hole kind inside) (hk : t.now.current.kind = kind)
    (hd : t.now.depth = hole.depth) :
    Yields limit bytes False
      (fun token s => s.depth = hole.depth + 1 ∧ s.readBy limit ⟨items, inside token⟩ = answer)
      (fun e => answer = .error e) (openWith limit kind wanted t) := by
  refine .bind (enter_yields ht fun hlt => ?_) fun _ t₁ h₁ ⟨hs₁, hlt⟩ => ?_
  · rw [← hr]
    refine readBy_of_step_error (hk ▸ ho.ne_endOfInput) ?_
    rw [ho.step_eq hs hk, Reader.enter, ← hd, if_neg hlt]
  · have hk₁ : t₁.now.current.kind = kind := by rw [hs₁, hk]
    have hr₁ : t₁.now.readBy limit ⟨items, stage⟩ = answer := by rw [hs₁]; exact hr
    have htakes : ∀ token : Token, token.kind = kind →
        Takes limit ⟨items, stage⟩ token ⟨items, inside token⟩ := fun token htoken => by
      apply Reader.takes_of_step
      rw [ho.step_eq hs htoken, Reader.enter, ← hd, if_pos hlt]
    refine (start_leads wanted h₁ hr₁ hk₁ ho.ne_endOfInput htakes).mono fun token s hm => ?_
    exact ⟨by rw [hm.1.depth_eq, hs₁, hd], hm.2⟩

end Moves

/-- The brace behind no field at all, or behind the last one. -/
theorem closeBrace_leads {first : Bool} {struct : OpenStruct} {outer : Hole}
    (ht : t.Sound limit bytes)
    (hr : t.now.readBy limit ⟨items, .inStruct first struct outer⟩ = answer)
    (hk : t.now.current.kind = .closeBrace ∨ first = false ∧ t.now.current.kind ≠ .comma) :
    Leads limit bytes t answer (fun closing => fill items (struct.close closing) outer)
      (expect .closeBrace (.unexpected .commaOrCloseBrace)) := by
  refine expect_yields ht (fun hb => ?_) fun hb => ?_
  · exact bump_leads ht hr hb (by decide) fun _ => Reader.takes_close limit items first struct outer
  · obtain ⟨rfl, hc⟩ := hk.resolve_left hb
    rw [← hr]
    exact readBy_of_refused (fun _ => Reader.step_separator hc hb) fun _ => by
      simp [MayStop, Stage.inStruct]

/-! ## The routines -/

theorem reference_leads (ht : t.Sound limit bytes)
    (hr : t.now.readBy limit ⟨items, stage⟩ = answer) (hs : stage.Awaits hole)
    (hk : t.now.current.kind = .openReference) :
    Leads limit bytes t answer (fill items · hole) reference := by
  refine .bind (start_leads _ ht hr hk (by decide) fun _ => .openReference hs)
    fun _ t₁ h₁ ⟨hm₁, hr₁⟩ => ?_
  refine .bind (ask_leads h₁ .referenceName hr₁) fun _ t₂ h₂ ⟨hm₂, hr₂⟩ => ?_
  refine .bind (ask_leads h₂ .closeReference hr₂) fun _ t₃ h₃ ⟨hm₃, hr₃⟩ => .pure h₃ ?_
  exact ⟨(hm₁.trans hm₂).trans hm₃, hr₃⟩

mutual

theorem value_leads : ∀ (calls : Nat) {t : Trace} {items : List Tree.Item} {stage : Stage}
    {hole : Hole}, t.Sound limit bytes → t.now.readBy limit ⟨items, stage⟩ = answer →
    stage.NeedsValue hole t.now.current → t.now.depth = hole.depth →
    Leads limit bytes t answer (fill items · hole) (value limit calls)
  | 0, t, items, stage, hole, ht, hr, hn, hd => .outOfCalls ht id
  | calls + 1, t, items, stage, hole, ht, hr, hn, hd => by
    rw [Leads, value, now_bind]
    cases hk : t.now.current.kind with
    | number =>
      exact .bind (bump_leads ht hr hk (by decide) fun _ => .number hn.awaits)
        fun _ t₁ h₁ hr₁ => .pure h₁ hr₁
    | openBracket => exact array_leads calls ht hr hn.awaits hk hd
    | structWord => exact struct_leads calls ht hr hn.awaits hk hd
    | openReference => exact reference_leads ht hr hn.awaits hk
    | name | isWord | closeBracket | openBrace | closeBrace | comma | equals | closeReference
    | endOfInput =>
      refine refuse_yields ht ?_
      rw [← hr, ← hn.wanted_eq]
      exact readBy_of_refused (fun _ => hn.step_eq (by simp [hk])) hn.not_mayStop

theorem array_leads : ∀ (calls : Nat) {t : Trace} {items : List Tree.Item} {stage : Stage}
    {hole : Hole}, t.Sound limit bytes → t.now.readBy limit ⟨items, stage⟩ = answer →
    stage.Awaits hole → t.now.current.kind = .openBracket → t.now.depth = hole.depth →
    Leads limit bytes t answer (fill items · hole) (array limit calls)
  | 0, t, items, stage, hole, ht, hr, hs, hk, hd => .outOfCalls ht id
  | calls + 1, t, items, stage, hole, ht, hr, hs, hk, hd => by
    -- How far it goes is known, so this is about the reader alone.
    refine (array_yields (calls + 1) ht).and ?_
    rw [array]
    refine .bind (openWith_leads _ ht hr hs .array hk hd) fun opening t₁ h₁ ⟨hd₁, hr₁⟩ => ?_
    refine .bind (value_leads calls h₁ hr₁ (.value fun _ _ => rfl) hd₁)
      fun first t₂ h₂ ⟨hm₂, hr₂⟩ => ?_
    have hd₂ := hm₂.depth_eq.trans hd₁
    refine .bind ((elements_yields calls h₂).and (elements_leads calls h₂ hr₂ hd₂))
      fun others t₃ h₃ ⟨⟨_, hd₃, hk₃⟩, hr₃⟩ => ?_
    refine .bind (bump_leads h₃ hr₃ hk₃ (by decide) fun _ => Reader.takes_closeBracket)
      fun closing t₄ h₄ ⟨hm₄, hr₄⟩ => ?_
    have hd₄ : t₄.now.depth = hole.depth + 1 := by rw [hm₄.depth_eq, hd₃, hd₂]
    refine .bind (leave_yields h₄ hd₄) fun _ t₅ h₅ hs₅ => .pure h₅ ?_
    rw [hs₅]
    exact hr₄

theorem elements_leads : ∀ (calls : Nat) {t : Trace} {items : List Tree.Item} {opening : Token}
    {before : List Tree} {outer : Hole}, t.Sound limit bytes →
    t.now.readBy limit ⟨items, .value (.element opening before outer)⟩ = answer →
    t.now.depth = outer.depth + 1 →
    Yields limit bytes False
      (fun trees s => s.readBy limit
        ⟨items, .value (.element opening (trees.reverse ++ before) outer)⟩ = answer)
      (fun e => answer = .error e) (elements limit calls t)
  | 0, t, items, opening, before, outer, ht, hr, hd => .outOfCalls ht id
  | calls + 1, t, items, opening, before, outer, ht, hr, hd => by
    rw [elements, now_bind]
    split
    · exact .pure ht hr
    · next hk =>
      refine .bind (value_leads calls ht hr (.value fun h => absurd h hk) hd)
        fun tree t₁ h₁ ⟨hm₁, hr₁⟩ => ?_
      refine .bind (elements_leads calls h₁ hr₁ (hm₁.depth_eq.trans hd))
        fun trees t₂ h₂ hr₂ => .pure h₂ ?_
      rw [List.reverse_cons, List.append_assoc]
      exact hr₂

theorem struct_leads : ∀ (calls : Nat) {t : Trace} {items : List Tree.Item} {stage : Stage}
    {hole : Hole}, t.Sound limit bytes → t.now.readBy limit ⟨items, stage⟩ = answer →
    stage.Awaits hole → t.now.current.kind = .structWord → t.now.depth = hole.depth →
    Leads limit bytes t answer (fill items · hole) (struct limit calls)
  | 0, t, items, stage, hole, ht, hr, hs, hk, hd => .outOfCalls ht id
  | calls + 1, t, items, stage, hole, ht, hr, hs, hk, hd => by
    refine (struct_yields (calls + 1) ht).and ?_
    rw [struct]
    refine .bind (openWith_leads _ ht hr hs .struct hk hd) fun keyword t₁ h₁ ⟨hd₁, hr₁⟩ => ?_
    refine .bind (ask_leads h₁ .openBrace hr₁) fun opening t₂ h₂ ⟨hm₂, hr₂⟩ => ?_
    have hd₂ := hm₂.depth_eq.trans hd₁
    refine .bind ((body_yields calls h₂).and (body_leads calls h₂ hr₂ hd₂))
      fun fields t₃ h₃ ⟨⟨_, hd₃⟩, hk₃, hr₃⟩ => ?_
    refine .bind (closeBrace_leads h₃ hr₃ hk₃) fun closing t₄ h₄ ⟨hm₄, hr₄⟩ => ?_
    have hd₄ : t₄.now.depth = hole.depth + 1 := by rw [hm₄.depth_eq, hd₃, hd₂]
    refine .bind (leave_yields h₄ hd₄) fun _ t₅ h₅ hs₅ => .pure h₅ ?_
    rw [hs₅, ← fields.reverse_reverse]
    exact hr₄

theorem body_leads : ∀ (calls : Nat) {t : Trace} {items : List Tree.Item}
    {keyword opening : Token} {outer : Hole}, t.Sound limit bytes →
    t.now.readBy limit ⟨items, .fieldName ⟨keyword, opening, []⟩ none outer⟩ = answer →
    t.now.depth = outer.depth + 1 →
    Yields limit bytes False
      (fun fields s =>
        (s.current.kind = .closeBrace ∨ fields.isEmpty = false ∧ s.current.kind ≠ .comma) ∧
        s.readBy limit
          ⟨items, .inStruct fields.isEmpty ⟨keyword, opening, fields.reverse⟩ outer⟩ = answer)
      (fun e => answer = .error e) (body limit calls t)
  | 0, t, items, keyword, opening, outer, ht, hr, hd => .outOfCalls ht id
  | calls + 1, t, items, keyword, opening, outer, ht, hr, hd => by
    rw [body, now_bind]
    split
    · next hk => exact .pure ht ⟨.inl hk, hr⟩
    · next hk =>
      refine .bind (field_leads calls ht hr (fun h => absurd h hk) hd)
        fun first t₁ h₁ ⟨hm₁, hc₁, hr₁⟩ => ?_
      refine .bind (fields_leads calls h₁ hr₁ (hm₁.depth_eq.trans hd))
        fun others t₂ h₂ ⟨hk₂, hr₂⟩ => .pure h₂ ⟨.inr ⟨rfl, hk₂⟩, ?_⟩
      rw [List.reverse_cons]
      obtain ⟨comma, name, equals, value⟩ := first
      obtain rfl : comma = none := hc₁
      exact hr₂

theorem fields_leads : ∀ (calls : Nat) {t : Trace} {items : List Tree.Item} {struct : OpenStruct}
    {outer : Hole}, t.Sound limit bytes →
    t.now.readBy limit ⟨items, .separator struct outer⟩ = answer →
    t.now.depth = outer.depth + 1 →
    Yields limit bytes False
      (fun fields s => s.current.kind ≠ .comma ∧ s.readBy limit
        ⟨items, .separator { struct with fields := fields.reverse ++ struct.fields } outer⟩ =
          answer)
      (fun e => answer = .error e) (fields limit calls t)
  | 0, t, items, struct, outer, ht, hr, hd => .outOfCalls ht id
  | calls + 1, t, items, struct, outer, ht, hr, hd => by
    rw [fields, now_bind]
    split
    · next hk =>
      refine .bind (bump_leads ht hr hk (by decide) fun _ => .comma)
        fun comma t₁ h₁ ⟨hm₁, hr₁⟩ => ?_
      have hd₁ := hm₁.depth_eq.trans hd
      refine .bind (field_leads calls h₁ hr₁ (fun _ => by simp) hd₁)
        fun next t₂ h₂ ⟨hm₂, _, hr₂⟩ => ?_
      refine .bind (fields_leads calls h₂ hr₂ (hm₂.depth_eq.trans hd₁))
        fun others t₃ h₃ ⟨hk₃, hr₃⟩ => .pure h₃ ⟨hk₃, ?_⟩
      rw [List.reverse_cons, List.append_assoc]
      exact hr₃
    · next hk => exact .pure ht ⟨hk, hr⟩

theorem field_leads : ∀ (calls : Nat) {t : Trace} {items : List Tree.Item} {struct : OpenStruct}
    {comma : Option Token} {outer : Hole}, t.Sound limit bytes →
    t.now.readBy limit ⟨items, .fieldName struct comma outer⟩ = answer →
    (t.now.current.kind = .closeBrace → comma ≠ none) → t.now.depth = outer.depth + 1 →
    Yields limit bytes False
      (fun field s => Further t.now s ∧ field.comma = none ∧ s.readBy limit
        ⟨items, .separator { struct with fields := { field with comma } :: struct.fields } outer⟩ =
          answer)
      (fun e => answer = .error e) (field limit calls t)
  | 0, t, items, struct, comma, outer, ht, hr, hc, hd => .outOfCalls ht id
  | calls + 1, t, items, struct, comma, outer, ht, hr, hc, hd => by
    rw [field]
    refine .bind (expect_yields ht (fun hk => bump_leads ht hr hk (by decide) fun _ => .fieldName)
      fun hk => ?_) fun name t₁ h₁ ⟨hm₁, hr₁⟩ => ?_
    · -- No field starts here, and the reader may not close the struct instead.
      rw [← hr]
      exact readBy_of_refused (fun _ => Reader.step_fieldName hk hc) fun _ => by simp [MayStop]
    refine .bind (ask_leads h₁ .equals hr₁) fun equals t₂ h₂ ⟨hm₂, hr₂⟩ => ?_
    have hd₂ : t₂.now.depth = outer.depth + 1 := by rw [hm₂.depth_eq, hm₁.depth_eq, hd]
    refine .bind (value_leads calls h₂ hr₂ (.value fun _ _ => rfl) hd₂)
      fun value t₃ h₃ ⟨hm₃, hr₃⟩ => .pure h₃ ⟨(hm₁.trans hm₂).trans hm₃, rfl, hr₃⟩

end

theorem declaration_leads (calls : Nat) (ht : t.Sound limit bytes)
    (hr : t.now.readBy limit ⟨items, .item⟩ = answer) (hk : t.now.current.kind = .name)
    (hd : t.now.depth = 0) :
    Leads limit bytes t answer (fun item => ⟨item :: items, .item⟩) (declaration limit calls) := by
  refine .bind (start_leads _ ht hr hk (by decide) fun _ => .declaration)
    fun name t₁ h₁ ⟨hm₁, hr₁⟩ => ?_
  refine .bind (ask_leads h₁ .isWord hr₁) fun isWord t₂ h₂ ⟨hm₂, hr₂⟩ => ?_
  have hd₂ : t₂.now.depth = 0 := by rw [hm₂.depth_eq, hm₁.depth_eq, hd]
  refine .bind (value_leads calls h₂ hr₂ (.value fun _ _ => rfl) hd₂)
    fun tree t₃ h₃ ⟨hm₃, hr₃⟩ => .pure h₃ ⟨(hm₁.trans hm₂).trans hm₃, hr₃⟩

/-- Behind the main value the reader stops if the input ends. -/
theorem endOfInput_yields (ht : t.Sound limit bytes)
    (hr : t.now.readBy limit ⟨items, .finished⟩ = answer) :
    Yields limit bytes False (fun _ _ => answer = .ok items.reverse) (fun e => answer = .error e)
      (expect .endOfInput (.unexpected .endOfInput) t) := by
  refine expect_yields ht (fun hk => ?_) fun hk => ?_
  · rw [readBy_of_endOfInput hk] at hr
    refine (bump_yields ht fun e c hp => ?_).mono fun _ _ _ => hr.symm
    rw [Cursor.pull_of_next (Cursor.next_of_rest_nil (ht.now.atEnd hk).2)] at hp
    cases hp
  · rw [← hr]
    exact readBy_of_refused (fun _ => rfl) fun h => absurd h hk

/-- What the loop over the items gives is what the reader makes of the text. -/
theorem items_leads : ∀ (calls : Nat) {t : Trace} {before : List Tree.Item},
    t.Sound limit bytes → t.now.readBy limit ⟨before, .item⟩ = answer → t.now.depth = 0 →
    Yields limit bytes False (fun trees _ => answer = .ok (before.reverse ++ trees))
      (fun e => answer = .error e) (Descent.items limit calls t)
  | 0, t, before, ht, hr, hd => .outOfCalls ht id
  | calls + 1, t, before, ht, hr, hd => by
    rw [Descent.items, now_bind]
    cases hk : t.now.current.kind with
    | endOfInput =>
      refine .pure ht ?_
      rw [← hr, readBy_of_endOfInput hk, List.append_nil]
      rfl
    | name =>
      refine .bind (declaration_leads calls ht hr hk hd) fun item t₁ h₁ hleads => ?_
      obtain ⟨hm₁, hr₁⟩ := hleads
      refine .bind (items_leads calls h₁ hr₁ (hm₁.depth_eq.trans hd))
        fun trees t₂ h₂ hr₂ => .pure h₂ ?_
      rw [hr₂, List.reverse_cons, List.append_assoc]
      rfl
    | number | isWord | structWord | openBracket | closeBracket | openBrace | closeBrace | comma
    | equals | openReference | closeReference =>
      have hn : Stage.NeedsValue .item .main t.now.current := .main (by simp [hk]) (by simp [hk])
      refine .bind (value_leads calls ht hr hn hd) fun tree t₁ h₁ hleads => ?_
      refine .bind (endOfInput_yields h₁ hleads.2) fun _ t₂ h₂ hr₂ => .pure h₂ ?_
      rw [hr₂, List.reverse_cons]

end Descent

end ConstLang
