/-
From a text to a value, in phases. A text that parses is a derivation of its tokens, and these
are spelled as their kinds ask; so it stands for a program unless it has no main value, and no
internal error is left to arise: `ofTrees_of_parse`. `compile_phases` puts the phases in order:
what is wrong with the text comes first, then that there is no main value, and only then what
is wrong with names.
-/
import ConstLang.Proofs.Binary64.Numeral
import ConstLang.Proofs.Evaluation.Failure
import ConstLang.Proofs.Parsing
import ConstLang.Proofs.Token.Decomposition

namespace ConstLang

/-- The number tokens of a text can be read as numbers. -/
theorem readable_of_mem_tokens (text : String) :
    ∀ t ∈ (TokenStream.ofText text).tokens, t.Readable := by
  intro t hm hk
  obtain ⟨front, x, back, hspells, ht, -⟩ := exists_split_of_mem_tokens hm
  rw [hk] at hspells
  cases hspells with
  | number hw hne hf =>
    rw [ht]
    exact ⟨_, Numeral.read_pointed hw hf hne⟩

/-- The items of a text are the derivation of its tokens. -/
theorem derivation_of_parse {text : String} {items : List Tree.Item}
    (h : Tree.parse text = .ok items) :
    Tree.Item.Derivation items ∧
      Tree.Item.leavesOfAll items = (TokenStream.ofText text).tokens ∧
      ∃ last, (TokenStream.ofText text).ending = .ok last := by
  obtain ⟨last, he, hr⟩ := Tree.ofStream_eq_ok_iff.mp h
  obtain ⟨hder, hleaves, -⟩ := Reader.run_finish_iff.mp hr
  exact ⟨hder, hleaves, last, he⟩

/-- **A text that parses stands for a program** with the names of the text, unless it consists of
declarations only. -/
theorem ofTrees_of_parse {text : String} {items : List Tree.Item}
    (h : Tree.parse text = .ok items) :
    (∀ item ∈ items, item.IsDeclaration) ∧ Program.ofTrees items = .error .emptyProgram ∨
      Tree.HasMain items ∧ ∃ p, Program.ofTrees items = .ok p ∧
        p.labels = (TokenStream.ofText text).tokens.filterMap Token.label? := by
  obtain ⟨hder, hleaves, -⟩ := derivation_of_parse h
  rw [← hleaves]
  exact Program.ofTrees_of_derivation hder (hleaves ▸ readable_of_mem_tokens text)

/-- The tokens are those of declarations one after the other, with nothing behind them. -/
def IsDeclarationRun (tokens : List Token) : Prop :=
  ∃ items, Tree.Item.Derivation items ∧ (∀ item ∈ items, item.IsDeclaration) ∧
    Tree.Item.leavesOfAll items = tokens

theorem isDeclarationRun_iff {text : String} {items : List Tree.Item}
    (h : Tree.parse text = .ok items) :
    (∀ item ∈ items, item.IsDeclaration) ↔
      ∃ tokens last, tokenize text = .ok (tokens ++ [last]) ∧ IsDeclarationRun tokens := by
  obtain ⟨hder, hleaves, last, he⟩ := derivation_of_parse h
  constructor
  · intro hall
    exact ⟨_, last, (tokenize_eq_ok_iff text _ last).mpr ⟨rfl, he⟩, items, hder, hall, hleaves⟩
  · intro hrun
    obtain ⟨tokens, last', ht, items', hder', hall, rfl⟩ := hrun
    have htokens := ((tokenize_eq_ok_iff text _ last').mp ht).1
    -- The tokens have one derivation only.
    rwa [← Tree.eq_of_leaves_eq hder hder' (hleaves.trans htokens).symm]

theorem not_hasMain_of_declarations {items : List Tree.Item}
    (h : ∀ item ∈ items, item.IsDeclaration) : ¬ Tree.HasMain items := by
  rintro ⟨before, tree, rfl⟩
  exact h (.value tree) (by simp)

theorem Program.ofText_eq_ok_iff {text : String} {p : Program} :
    Program.ofText text = .ok p ↔
      ∃ items, Tree.parse text = .ok items ∧ Program.ofTrees items = .ok p := by
  simp only [Program.ofText, bind_eq_ok_iff, mapError_eq_ok_iff]

theorem compile_of_parse_error {text : String} {e : SyntaxError} (options : Options)
    (h : Tree.parse text = .error e) : compile options text = .error (.malformed e) := by
  rw [compile, Program.ofText, h]
  rfl

theorem compile_of_parse {text : String} {items : List Tree.Item} (options : Options)
    (h : Tree.parse text = .ok items) :
    compile options text = Program.ofTrees items >>= fun p => p.evaluate options := by
  rw [compile, Program.ofText, h]
  rfl

/-- Every way in which a text fails to have a value. -/
theorem compile_error_cases {text : String} {options : Options} {e : Error}
    (h : compile options text = .error e) :
    (∃ fault, Tree.parse text = .error fault ∧ e = .malformed fault) ∨
      (∃ items, Tree.parse text = .ok items ∧ (∀ item ∈ items, item.IsDeclaration) ∧
        e = .emptyProgram) ∨
      ∃ items p, Tree.parse text = .ok items ∧ Tree.HasMain items ∧
        Program.ofTrees items = .ok p ∧ e.PointsInto p.labels := by
  cases hp : Tree.parse text with
  | error fault =>
    rw [compile_of_parse_error options hp] at h
    cases h
    exact .inl ⟨fault, rfl, rfl⟩
  | ok items =>
    rw [compile_of_parse options hp] at h
    rcases ofTrees_of_parse hp with ⟨hall, ho⟩ | ⟨hmain, p, ho, -⟩
    · rw [ho] at h
      cases h
      exact .inr (.inl ⟨items, rfl, hall, rfl⟩)
    · rw [ho] at h
      exact .inr (.inr ⟨items, p, rfl, hmain, ho, Program.pointsInto_of_evaluate h⟩)

/-- An error about a name comes from no earlier phase. -/
theorem Error.PointsAt.ne {e : Error} {l : Label} (h : e.PointsAt l) :
    (∀ fault, e ≠ .malformed fault) ∧ (∀ fault, e ≠ .structural fault) ∧ e ≠ .emptyProgram := by
  rcases h with rfl | rfl | rfl <;> simp

/-- **The phases of compiling.** No internal error is ever reported. A text that does not parse
is refused with the error of the parser. One that parses stands for a program or is empty; it is
empty exactly if its tokens are those of declarations and nothing else, and then nothing is
said of these. Names are found wrong only where there is a main value. -/
theorem compile_phases (text : String) (options : Options) :
    (∀ fault, compile options text ≠ .error (.structural fault)) ∧
    (∀ e, Tree.parse text = .error e → compile options text = .error (.malformed e)) ∧
    (∀ items, Tree.parse text = .ok items →
      ((∃ p, Program.ofTrees items = .ok p) ∨ Program.ofTrees items = .error .emptyProgram) ∧
      (Program.ofTrees items = .error .emptyProgram ↔
        ∃ tokens last, tokenize text = .ok (tokens ++ [last]) ∧ IsDeclarationRun tokens) ∧
      (compile options text = .error .emptyProgram ↔
        Program.ofTrees items = .error .emptyProgram)) ∧
    (∀ e l, compile options text = .error e → e.PointsAt l →
      ∃ before main, Tree.parse text = .ok (before ++ [.value main])) := by
  refine ⟨fun fault h => ?_, fun e => compile_of_parse_error options, fun items hp => ?_,
    fun e l h hl => ?_⟩
  · rcases compile_error_cases h with ⟨_, -, he⟩ | ⟨_, -, -, he⟩ | ⟨_, _, -, -, -, he⟩
    · cases he
    · cases he
    · obtain ⟨l, -, hl⟩ := he
      exact hl.ne.2.1 fault rfl
  · rw [compile_of_parse options hp, ← isDeclarationRun_iff hp]
    rcases ofTrees_of_parse hp with ⟨hall, ho⟩ | ⟨hmain, p, ho, -⟩
    · rw [ho]
      exact ⟨.inr rfl, iff_of_true rfl hall, iff_of_true rfl rfl⟩
    · have hnot : ¬ ∀ item ∈ items, item.IsDeclaration :=
        fun hall => not_hasMain_of_declarations hall hmain
      refine ⟨.inl ⟨p, ho⟩, iff_of_false (by simp [ho]) hnot,
        iff_of_false (fun h => ?_) (by simp [ho])⟩
      rw [ho] at h
      obtain ⟨l, -, hl⟩ := Program.pointsInto_of_evaluate h
      exact hl.ne.2.2 rfl
  · rcases compile_error_cases h with ⟨_, -, rfl⟩ | ⟨_, -, -, rfl⟩ | ⟨items, p, hp, hmain, -, -⟩
    · exact absurd rfl (hl.ne.1 _)
    · exact absurd rfl hl.ne.2.2
    · obtain ⟨before, main, rfl⟩ := hmain
      exact ⟨before, main, hp⟩

end ConstLang
