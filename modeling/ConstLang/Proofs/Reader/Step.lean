/-
What a reader does with one token. `Takes` lists the ways in which a token can be taken. Each of
them is a step, `step_of_takes`, and there are no others, `takes_of_step`: what a run of steps keeps
is proved from them, case by case. `refuses_of_step` says what a refusal is: the token that is
refused is the one reported, and either no limit on the nesting would let it pass or a larger one
would.
-/
import ConstLang.Tree.Reader

namespace ConstLang

namespace Reader

/-- In this stage a value that belongs in the hole may start. -/
inductive Stage.Awaits : Stage → Hole → Prop
  | item : Awaits .item .main
  | value {hole : Hole} : Awaits (.value hole) hole

/-- With up to `limit` arrays and structs open at once, the reader takes the token and goes on
as the second reader. -/
inductive Takes (limit : Nat) : Reader → Token → Reader → Prop
  | declaration {items : List Tree.Item} {t : Token} (ht : t.kind = .name) :
      Takes limit ⟨items, .item⟩ t ⟨items, .isWord t⟩
  | isWord {items : List Tree.Item} {name t : Token} (ht : t.kind = .isWord) :
      Takes limit ⟨items, .isWord name⟩ t ⟨items, .value (.declaration name t)⟩
  | number {items : List Tree.Item} {stage : Stage} {hole : Hole} {t : Token}
      (hs : stage.Awaits hole) (ht : t.kind = .number) :
      Takes limit ⟨items, stage⟩ t (fill items (.number t) hole)
  | openArray {items : List Tree.Item} {stage : Stage} {hole : Hole} {t : Token}
      (hs : stage.Awaits hole) (ht : t.kind = .openBracket) (hd : hole.depth < limit) :
      Takes limit ⟨items, stage⟩ t ⟨items, .value (.element t [] hole)⟩
  | closeArray {items : List Tree.Item} {opening t : Token} {last : Tree} {before : List Tree}
      {outer : Hole} (ht : t.kind = .closeBracket) :
      Takes limit ⟨items, .value (.element opening (last :: before) outer)⟩ t
        (fill items (.array opening (last :: before).reverse t) outer)
  | structWord {items : List Tree.Item} {stage : Stage} {hole : Hole} {t : Token}
      (hs : stage.Awaits hole) (ht : t.kind = .structWord) (hd : hole.depth < limit) :
      Takes limit ⟨items, stage⟩ t ⟨items, .openBrace t hole⟩
  | openBrace {items : List Tree.Item} {keyword t : Token} {outer : Hole}
      (ht : t.kind = .openBrace) :
      Takes limit ⟨items, .openBrace keyword outer⟩ t ⟨items, .fieldName ⟨keyword, t, []⟩ none outer⟩
  | fieldName {items : List Tree.Item} {struct : OpenStruct} {comma : Option Token}
      {outer : Hole} {t : Token} (ht : t.kind = .name) :
      Takes limit ⟨items, .fieldName struct comma outer⟩ t ⟨items, .equals struct ⟨comma, t⟩ outer⟩
  | closeEmpty {items : List Tree.Item} {struct : OpenStruct} {outer : Hole} {t : Token}
      (ht : t.kind = .closeBrace) :
      Takes limit ⟨items, .fieldName struct none outer⟩ t (fill items (struct.close t) outer)
  | equals {items : List Tree.Item} {struct : OpenStruct} {start : FieldStart} {outer : Hole}
      {t : Token} (ht : t.kind = .equals) :
      Takes limit ⟨items, .equals struct start outer⟩ t ⟨items, .value (.field struct start t outer)⟩
  | comma {items : List Tree.Item} {struct : OpenStruct} {outer : Hole} {t : Token}
      (ht : t.kind = .comma) :
      Takes limit ⟨items, .separator struct outer⟩ t ⟨items, .fieldName struct (some t) outer⟩
  | closeStruct {items : List Tree.Item} {struct : OpenStruct} {outer : Hole} {t : Token}
      (ht : t.kind = .closeBrace) :
      Takes limit ⟨items, .separator struct outer⟩ t (fill items (struct.close t) outer)
  | openReference {items : List Tree.Item} {stage : Stage} {hole : Hole} {t : Token}
      (hs : stage.Awaits hole) (ht : t.kind = .openReference) :
      Takes limit ⟨items, stage⟩ t ⟨items, .referenceName t hole⟩
  | referenceName {items : List Tree.Item} {opening t : Token} {hole : Hole}
      (ht : t.kind = .name) :
      Takes limit ⟨items, .referenceName opening hole⟩ t ⟨items, .closeReference opening t hole⟩
  | closeReference {items : List Tree.Item} {opening name t : Token} {hole : Hole}
      (ht : t.kind = .closeReference) :
      Takes limit ⟨items, .closeReference opening name hole⟩ t
        (fill items (.reference opening name t) hole)

variable {limit : Nat} {r r' : Reader} {t : Token}

/-- Where a value may start, a token that is not a name is one that starts it. -/
theorem step_of_awaits {items : List Tree.Item} {stage : Stage} {hole : Hole}
    (hs : stage.Awaits hole) (ht : t.kind ≠ .name) :
    step limit ⟨items, stage⟩ t = startValue limit items stage hole t := by
  cases hs with
  | item => simp [step, ht]
  | value => rfl

theorem step_of_takes (h : Takes limit r t r') : step limit r t = .ok r' := by
  cases h with
  | number hs ht | openReference hs ht =>
    rw [step_of_awaits hs (by simp [ht])]
    simp [startValue, ht]
  | openArray hs ht hd | structWord hs ht hd =>
    rw [step_of_awaits hs (by simp [ht])]
    simp [startValue, ht, enter, hd]
  | closeArray ht => simp [step, startValue, ht, closeArray?]
  | closeEmpty ht | closeStruct ht => simp [step, ht]
  | declaration ht | isWord ht | openBrace ht | fieldName ht | equals ht | comma ht
  | referenceName ht | closeReference ht => simp [step, ht]

/-- The tokens that start a value, or close the array around it. -/
theorem takes_of_startValue {items : List Tree.Item} {stage : Stage} {hole : Hole}
    (hs : stage.Awaits hole) (h : startValue limit items stage hole t = .ok r') :
    Takes limit ⟨items, stage⟩ t r' := by
  unfold startValue at h
  split at h
  · next ht => cases h; exact .number hs ht
  · next ht =>
    unfold enter at h
    split at h
    · next hd => cases h; exact .openArray hs ht hd
    · cases h
  · next ht =>
    unfold enter at h
    split at h
    · next hd => cases h; exact .structWord hs ht hd
    · cases h
  · next ht => cases h; exact .openReference hs ht
  · next ht =>
    unfold closeArray? at h
    split at h
    · cases hs with
      | value => cases h; exact .closeArray ht
    · cases h
  · cases h

/-- **Every step** is one of the ways to take a token. -/
theorem takes_of_step (h : step limit r t = .ok r') : Takes limit r t r' := by
  obtain ⟨items, stage⟩ := r
  unfold step at h
  dsimp only at h
  split at h
  · split at h
    · next ht => cases h; exact .declaration ht
    · exact takes_of_startValue .item h
  · split at h
    · next ht => cases h; exact .isWord ht
    · cases h
  · exact takes_of_startValue .value h
  · split at h
    · next ht => cases h; exact .openBrace ht
    · cases h
  · split at h
    · next ht => cases h; exact .fieldName ht
    · split at h
      · next ht =>
        obtain ⟨ht, rfl⟩ := ht
        cases h; exact .closeEmpty ht
      · cases h
  · split at h
    · next ht => cases h; exact .equals ht
    · cases h
  · split at h
    · next ht => cases h; exact .comma ht
    · split at h
      · next ht => cases h; exact .closeStruct ht
      · cases h
  · split at h
    · next ht => cases h; exact .referenceName ht
    · cases h
  · split at h
    · next ht => cases h; exact .closeReference ht
    · cases h
  · cases h

/-- What is taken within a limit is taken in the same way within a larger one. -/
theorem Takes.mono {limit' : Nat} (hle : limit ≤ limit') (h : Takes limit r t r') :
    Takes limit' r t r' := by
  cases h with
  | declaration ht => exact .declaration ht
  | isWord ht => exact .isWord ht
  | number hs ht => exact .number hs ht
  | openArray hs ht hd => exact .openArray hs ht (by omega)
  | closeArray ht => exact .closeArray ht
  | structWord hs ht hd => exact .structWord hs ht (by omega)
  | openBrace ht => exact .openBrace ht
  | fieldName ht => exact .fieldName ht
  | closeEmpty ht => exact .closeEmpty ht
  | equals ht => exact .equals ht
  | comma ht => exact .comma ht
  | closeStruct ht => exact .closeStruct ht
  | openReference hs ht => exact .openReference hs ht
  | referenceName ht => exact .referenceName ht
  | closeReference ht => exact .closeReference ht

/-! ## Refusals -/

/-- A token is refused for what it is, whatever the limit, or for the limit. -/
inductive Refuses (limit : Nat) (r : Reader) (t : Token) : SyntaxError → Prop
  | unexpected (h : ∀ limit', step limit' r t = refuse r.stage t) :
      Refuses limit r t ⟨.unexpected r.stage.wanted, t.text, t.span⟩
  | nestingTooDeep {limit' : Nat} (hle : limit ≤ limit') {r' : Reader}
      (h : Takes limit' r t r') : Refuses limit r t ⟨.nestingTooDeep limit, t.text, t.span⟩

theorem refuses_of_refuse {e : SyntaxError} (hs : ∀ limit', step limit' r t = refuse r.stage t)
    (h : step limit r t = .error e) : Refuses limit r t e := by
  rw [hs limit, refuse, Except.error.injEq] at h
  exact h ▸ .unexpected hs

/-- A container that is one too deep is not too deep for the limit that is one larger. -/
theorem refuses_of_enter {e : SyntaxError} {hole : Hole} {inside : Stage}
    (hs : ∀ limit', step limit' r t = enter limit' r.items hole t inside)
    (h : step limit r t = .error e) : Refuses limit r t e := by
  rw [hs limit, enter] at h
  split at h
  · cases h
  · next hd =>
    cases h
    have ht : step (hole.depth + 1) r t = .ok ⟨r.items, inside⟩ := by
      rw [hs, enter, if_pos (Nat.lt_succ_self _)]
    exact .nestingTooDeep (by omega) (takes_of_step ht)

theorem refuses_of_startValue {e : SyntaxError} {hole : Hole}
    (hs : ∀ limit', step limit' r t = startValue limit' r.items r.stage hole t)
    (h : step limit r t = .error e) : Refuses limit r t e := by
  by_cases hclosed : t.kind = .closeBracket ∧ closeArray? r.items hole t = none
  · obtain ⟨ht, hc⟩ := hclosed
    exact refuses_of_refuse (fun limit' => by simp [hs, startValue, ht, hc]) h
  · cases ht : t.kind with
    | number | openReference => simp [hs, startValue, ht] at h
    | openBracket =>
      have he : ∀ limit', step limit' r t =
          enter limit' r.items hole t (.value (.element t [] hole)) := fun limit' => by
        simp only [hs limit', startValue, ht]
      exact refuses_of_enter he h
    | structWord =>
      have he : ∀ limit', step limit' r t = enter limit' r.items hole t (.openBrace t hole) :=
        fun limit' => by simp only [hs limit', startValue, ht]
      exact refuses_of_enter he h
    | closeBracket =>
      obtain ⟨r', hc⟩ := Option.ne_none_iff_exists'.mp fun hc => hclosed ⟨ht, hc⟩
      simp [hs, startValue, ht, hc] at h
    | name | isWord | closeBrace | openBrace | comma | equals | closeReference | endOfInput =>
      exact refuses_of_refuse (fun limit' => by simp [hs, startValue, ht]) h

/-- **Every refusal** is one of the two. -/
theorem refuses_of_step {e : SyntaxError} (h : step limit r t = .error e) :
    Refuses limit r t e := by
  obtain ⟨items, stage⟩ := r
  cases stage with
  | item =>
    by_cases ht : t.kind = .name
    · simp [step, ht] at h
    · exact refuses_of_startValue (fun limit' => step_of_awaits .item ht) h
  | value hole => exact refuses_of_startValue (fun limit' => rfl) h
  | fieldName struct comma outer =>
    by_cases ht : t.kind = .name
    · simp [step, ht] at h
    by_cases hc : t.kind = .closeBrace ∧ comma = none
    · simp [step, hc] at h
    · exact refuses_of_refuse (fun limit' => by simp [step, ht, hc]) h
  | separator struct outer =>
    by_cases ht : t.kind = .comma
    · simp [step, ht] at h
    by_cases hc : t.kind = .closeBrace
    · simp [step, hc] at h
    · exact refuses_of_refuse (fun limit' => by simp [step, ht, hc]) h
  | isWord name =>
    by_cases ht : t.kind = .isWord
    · simp [step, ht] at h
    · exact refuses_of_refuse (fun limit' => by simp [step, ht]) h
  | openBrace keyword outer =>
    by_cases ht : t.kind = .openBrace
    · simp [step, ht] at h
    · exact refuses_of_refuse (fun limit' => by simp [step, ht]) h
  | equals struct start outer =>
    by_cases ht : t.kind = .equals
    · simp [step, ht] at h
    · exact refuses_of_refuse (fun limit' => by simp [step, ht]) h
  | referenceName opening hole =>
    by_cases ht : t.kind = .name
    · simp [step, ht] at h
    · exact refuses_of_refuse (fun limit' => by simp [step, ht]) h
  | closeReference opening name hole =>
    by_cases ht : t.kind = .closeReference
    · simp [step, ht] at h
    · exact refuses_of_refuse (fun limit' => by simp [step, ht]) h
  | finished => exact refuses_of_refuse (fun limit' => rfl) h

end Reader

end ConstLang
