/-
What a reader asks for, stage by stage. `Stage.Asks` are the stages where one kind of token may
stand and no other, `Stage.NeedsValue` is a stage where nothing but a value may start; whatever else
comes there is refused. `goOn` is what a reader makes of all the tokens that are left.
-/
import ConstLang.Proofs.FirstError

namespace ConstLang

namespace Reader

/-- What a reader makes of tokens and of what comes after them. -/
def goOn (limit : Nat) (r : Reader) (s : TokenStream) : Except SyntaxError (List Tree.Item) := do
  let r ← r.run limit s.tokens
  let last ← s.ending
  r.finish last

variable {limit : Nat} {r r' : Reader} {token : Token} {s : TokenStream}

theorem goOn_of_takes (h : Takes limit r token r') :
    goOn limit r ⟨token :: s.tokens, s.ending⟩ = goOn limit r' s := by
  rw [goOn, run_cons_of_takes h, goOn]

theorem goOn_of_step_error {e : SyntaxError} (h : step limit r token = .error e) :
    goOn limit r ⟨token :: s.tokens, s.ending⟩ = .error e := by
  rw [goOn, run_cons, h]
  rfl

theorem goOn_of_refused {e : SyntaxError} : goOn limit r ⟨[], .error e⟩ = .error e := rfl

theorem goOn_of_ended {last : Token} : goOn limit r ⟨[], .ok last⟩ = r.finish last := rfl

/-- Where the input may not end, what is wanted is missing. -/
theorem finish_of_not_mayStop {last : Token} (h : ¬ r.MayStop) :
    r.finish last = .error ⟨.unexpected r.stage.wanted, last.text, last.span⟩ := by
  cases hf : r.finish last with
  | ok items => exact absurd (finish_eq_ok_iff.mp hf).1 h
  | error e => rw [(finish_eq_error hf).2]

/-! ## One kind of token -/

/-- In this stage no token but one of the kind may stand, and it leads to the next reader. -/
inductive Stage.Asks (items : List Tree.Item) : Stage → Token.Kind → (Token → Reader) → Prop
  | isWord {name : Token} :
      Asks items (.isWord name) .isWord fun t => ⟨items, .value (.declaration name t)⟩
  | openBrace {keyword : Token} {outer : Hole} :
      Asks items (.openBrace keyword outer) .openBrace
        fun t => ⟨items, .fieldName ⟨keyword, t, []⟩ none outer⟩
  | equals {struct : OpenStruct} {start : FieldStart} {outer : Hole} :
      Asks items (.equals struct start outer) .equals
        fun t => ⟨items, .value (.field struct start t outer)⟩
  | referenceName {opening : Token} {hole : Hole} :
      Asks items (.referenceName opening hole) .name
        fun t => ⟨items, .closeReference opening t hole⟩
  | closeReference {opening name : Token} {hole : Hole} :
      Asks items (.closeReference opening name hole) .closeReference
        fun t => fill items (.reference opening name t) hole

variable {items : List Tree.Item} {stage : Stage} {kind : Token.Kind} {next : Token → Reader}

theorem Stage.Asks.takes (h : stage.Asks items kind next) (ht : token.kind = kind) :
    Takes limit ⟨items, stage⟩ token (next token) := by
  cases h with
  | isWord => exact .isWord ht
  | openBrace => exact .openBrace ht
  | equals => exact .equals ht
  | referenceName => exact .referenceName ht
  | closeReference => exact .closeReference ht

theorem Stage.Asks.step_eq (h : stage.Asks items kind next) (ht : token.kind ≠ kind) :
    step limit ⟨items, stage⟩ token = refuse stage token := by
  cases h <;> exact if_neg ht

theorem Stage.Asks.not_mayStop (h : stage.Asks items kind next) : ¬ MayStop ⟨items, stage⟩ := by
  cases h <;> simp [MayStop]

theorem Stage.Asks.ne_endOfInput (h : stage.Asks items kind next) : kind ≠ .endOfInput := by
  cases h <;> decide

/-! ## Values -/

/-- A token of the kind opens an array or a struct in the hole, and then comes the next stage. -/
inductive Stage.Opens (hole : Hole) : Token.Kind → (Token → Stage) → Prop
  | array : Opens hole .openBracket fun t => .value (.element t [] hole)
  | struct : Opens hole .structWord fun t => .openBrace t hole

variable {hole : Hole} {inside : Token → Stage}

theorem Stage.Opens.step_eq (h : Stage.Opens hole kind inside) (hs : stage.Awaits hole)
    (ht : token.kind = kind) :
    step limit ⟨items, stage⟩ token = enter limit items hole token (inside token) := by
  cases h with
  | array | struct =>
    rw [step_of_awaits hs (by simp [ht])]
    simp only [startValue, ht]

theorem Stage.Opens.ne_endOfInput (h : Stage.Opens hole kind inside) : kind ≠ .endOfInput := by
  cases h <;> decide

/-- Nothing but a value may come, and the token is the first one of it or is refused. -/
inductive Stage.NeedsValue : Stage → Hole → Token → Prop
  | main {t : Token} (hn : t.kind ≠ .name) (he : t.kind ≠ .endOfInput) : NeedsValue .item .main t
  | value {hole : Hole} {t : Token}
      (hc : t.kind = .closeBracket → ∀ items, closeArray? items hole t = none) :
      NeedsValue (.value hole) hole t

theorem Stage.NeedsValue.awaits (h : stage.NeedsValue hole token) : stage.Awaits hole := by
  cases h with
  | main => exact .item
  | value => exact .value

theorem Stage.NeedsValue.wanted_eq (h : stage.NeedsValue hole token) : stage.wanted = .value := by
  cases h <;> rfl

theorem Stage.NeedsValue.not_mayStop (h : stage.NeedsValue hole token)
    (ht : token.kind = .endOfInput) : ¬ MayStop ⟨items, stage⟩ := by
  cases h with
  | main hn he => exact absurd ht he
  | value hc => simp [MayStop]

/-- A token that starts no value is refused. -/
theorem Stage.NeedsValue.step_eq (h : stage.NeedsValue hole token)
    (ht : token.kind ∉ [.number, .openBracket, .structWord, .openReference]) :
    step limit ⟨items, stage⟩ token = refuse stage token := by
  have hstart : step limit ⟨items, stage⟩ token = startValue limit items stage hole token := by
    cases h with
    | main hn he => exact step_of_awaits .item hn
    | value hc => rfl
  have hclose : token.kind = .closeBracket → closeArray? items hole token = none := by
    cases h with
    | main hn he => exact fun _ => rfl
    | value hc => exact fun hk => hc hk items
  rw [hstart]
  cases hk : token.kind with
  | closeBracket =>
    simp only [startValue, hk, hclose hk]
    rfl
  | number | openBracket | structWord | openReference => simp [hk] at ht
  | name | isWord | openBrace | closeBrace | comma | equals | closeReference | endOfInput =>
    simp only [startValue, hk]

/-! ## Brackets and braces -/

theorem takes_closeBracket {opening : Token} {first : Tree} {others : List Tree}
    {outer : Hole} (ht : token.kind = .closeBracket) :
    Takes limit ⟨items, .value (.element opening (others.reverse ++ [first]) outer)⟩ token
      (fill items (.array opening (first :: others) token) outer) := by
  have hne : others.reverse ++ [first] ≠ [] := by simp
  obtain ⟨last, before, hl⟩ := List.exists_cons_of_ne_nil hne
  have helements : first :: others = (last :: before).reverse := by rw [← hl]; simp
  rw [hl, helements]
  exact .closeArray ht

/-- In front of the first field a struct may be closed, and a field may not be missing later. -/
theorem step_fieldName {struct : OpenStruct} {comma : Option Token} {outer : Hole}
    (hn : token.kind ≠ .name) (hc : token.kind = .closeBrace → comma ≠ none) :
    step limit ⟨items, .fieldName struct comma outer⟩ token =
      refuse (.fieldName struct comma outer) token := by
  have hclose : ¬ (token.kind = .closeBrace ∧ comma = none) := fun h => hc h.1 h.2
  simp only [step, if_neg hn, if_neg hclose]

theorem step_separator {struct : OpenStruct} {outer : Hole} (hc : token.kind ≠ .comma)
    (hb : token.kind ≠ .closeBrace) :
    step limit ⟨items, .separator struct outer⟩ token = refuse (.separator struct outer) token := by
  simp only [step, if_neg hc, if_neg hb]

end Reader

end ConstLang
