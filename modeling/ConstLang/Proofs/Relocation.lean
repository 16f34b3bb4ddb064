/-
Places play no part. `relocate f` puts every place that a token, a tree, a program or an error
carries where `f` says. Reading trees, building programs and evaluating them look at kinds, texts
and names only: what they do with relocated input is the relocated outcome, also where that is
an error. `TokenStream.compile_relocate` says so of the way from tokens to a value.
-/
import ConstLang.Proofs.Outcome
import ConstLang.Proofs.Program.FromTree
import ConstLang.Evaluation

namespace ConstLang

/-! ## What carries places -/

def Token.relocate (f : Span → Span) (t : Token) : Token := { t with span := f t.span }

def SyntaxError.relocate (f : Span → Span) (e : SyntaxError) : SyntaxError :=
  { e with span := f e.span }

def Error.relocate (f : Span → Span) : Error → Error
  | malformed e => .malformed (e.relocate f)
  | structural fault => .structural fault
  | emptyProgram => .emptyProgram
  | undefinedConstant name span => .undefinedConstant name (f span)
  | duplicateKey name span => .duplicateKey name (f span)
  | redeclaredConstant name span => .redeclaredConstant name (f span)

def TokenStream.relocate (f : Span → Span) (s : TokenStream) : TokenStream :=
  ⟨s.tokens.map (Token.relocate f), mapOutcome (SyntaxError.relocate f) (Token.relocate f) s.ending⟩

namespace Tree

mutual

def relocate (f : Span → Span) : Tree → Tree
  | number token => .number (token.relocate f)
  | array opening elements closing =>
    .array (opening.relocate f) (relocateAll f elements) (closing.relocate f)
  | struct keyword opening fields closing =>
    .struct (keyword.relocate f) (opening.relocate f) (relocateFields f fields)
      (closing.relocate f)
  | reference opening name closing =>
    .reference (opening.relocate f) (name.relocate f) (closing.relocate f)

def relocateAll (f : Span → Span) : List Tree → List Tree
  | [] => []
  | tree :: trees => tree.relocate f :: relocateAll f trees

def relocateFields (f : Span → Span) : List (Field Tree) → List (Field Tree)
  | [] => []
  | ⟨comma, name, equals, value⟩ :: fields =>
    ⟨comma.map (Token.relocate f), name.relocate f, equals.relocate f, value.relocate f⟩ ::
      relocateFields f fields

end

def Item.relocate (f : Span → Span) : Item → Item
  | declaration name isWord tree =>
    .declaration (name.relocate f) (isWord.relocate f) (tree.relocate f)
  | value tree => .value (tree.relocate f)

theorem relocateAll_append (f : Span → Span) (as bs : List Tree) :
    relocateAll f (as ++ bs) = relocateAll f as ++ relocateAll f bs := by
  induction as with
  | nil => rfl
  | cons tree trees ih => simp only [List.cons_append, relocateAll, ih]

theorem relocateFields_append (f : Span → Span) (as bs : List (Field Tree)) :
    relocateFields f (as ++ bs) = relocateFields f as ++ relocateFields f bs := by
  induction as with
  | nil => rfl
  | cons field fields ih => simp only [List.cons_append, relocateFields, ih]

theorem relocateAll_reverse (f : Span → Span) (trees : List Tree) :
    relocateAll f trees.reverse = (relocateAll f trees).reverse := by
  induction trees with
  | nil => rfl
  | cons tree trees ih =>
    rw [List.reverse_cons, relocateAll_append, ih]
    exact List.reverse_cons.symm

theorem relocateFields_reverse (f : Span → Span) (fields : List (Field Tree)) :
    relocateFields f fields.reverse = (relocateFields f fields).reverse := by
  induction fields with
  | nil => rfl
  | cons field fields ih =>
    rw [List.reverse_cons, relocateFields_append, ih]
    exact List.reverse_cons.symm

end Tree

namespace Expr

mutual

def relocate (f : Span → Span) : Expr → Expr
  | number x => .number x
  | array elements => .array (relocateAll f elements)
  | struct fields => .struct (relocateBindings f fields)
  | reference name span => .reference name (f span)

def relocateAll (f : Span → Span) : List Expr → List Expr
  | [] => []
  | e :: es => e.relocate f :: relocateAll f es

def relocateBindings (f : Span → Span) : List (Binding Expr) → List (Binding Expr)
  | [] => []
  | ⟨name, span, e⟩ :: bindings => ⟨name, f span, e.relocate f⟩ :: relocateBindings f bindings

end

end Expr

def Binding.relocate (f : Span → Span) (b : Binding Expr) : Binding Expr :=
  ⟨b.name, f b.span, b.value.relocate f⟩

namespace Program

def relocate (f : Span → Span) (p : Program) : Program :=
  ⟨p.declarations.map (Binding.relocate f), p.main.relocate f⟩

def Item.relocate (f : Span → Span) : Item → Item
  | declaration binding => .declaration (binding.relocate f)
  | value e => .value (e.relocate f)

end Program

/-! ## Reading trees -/

namespace Reader

def OpenStruct.relocate (f : Span → Span) (s : OpenStruct) : OpenStruct :=
  ⟨s.keyword.relocate f, s.opening.relocate f, Tree.relocateFields f s.fields⟩

def FieldStart.relocate (f : Span → Span) (s : FieldStart) : FieldStart :=
  ⟨s.comma.map (Token.relocate f), s.name.relocate f⟩

def Hole.relocate (f : Span → Span) : Hole → Hole
  | main => .main
  | declaration name isWord => .declaration (name.relocate f) (isWord.relocate f)
  | element opening before outer =>
    .element (opening.relocate f) (Tree.relocateAll f before) (outer.relocate f)
  | field struct start equals outer =>
    .field (struct.relocate f) (start.relocate f) (equals.relocate f) (outer.relocate f)

def Stage.relocate (f : Span → Span) : Stage → Stage
  | item => .item
  | isWord name => .isWord (name.relocate f)
  | value hole => .value (hole.relocate f)
  | openBrace keyword outer => .openBrace (keyword.relocate f) (outer.relocate f)
  | fieldName struct comma outer =>
    .fieldName (struct.relocate f) (comma.map (Token.relocate f)) (outer.relocate f)
  | equals struct start outer =>
    .equals (struct.relocate f) (start.relocate f) (outer.relocate f)
  | separator struct outer => .separator (struct.relocate f) (outer.relocate f)
  | referenceName opening hole => .referenceName (opening.relocate f) (hole.relocate f)
  | closeReference opening name hole =>
    .closeReference (opening.relocate f) (name.relocate f) (hole.relocate f)
  | finished => .finished

end Reader

/-- The reader with its places mapped, and with other items in front of its own. -/
def Reader.relocate (f : Span → Span) (front : List Tree.Item) (r : Reader) : Reader :=
  ⟨r.items.map (Tree.Item.relocate f) ++ front, r.stage.relocate f⟩

namespace Reader

variable {limit : Nat} {f : Span → Span} {front : List Tree.Item}

@[simp] theorem depth_relocate (hole : Hole) : (hole.relocate f).depth = hole.depth := by
  induction hole with
  | main | declaration name isWord => rfl
  | element opening before outer ih | field struct start equals outer ih =>
    simp only [Hole.relocate, Hole.depth, ih]

@[simp] theorem wanted_relocate (stage : Stage) : (stage.relocate f).wanted = stage.wanted := by
  cases stage <;> rfl

@[simp] theorem close_relocate (struct : OpenStruct) (t : Token) :
    (struct.relocate f).close (t.relocate f) = (struct.close t).relocate f := by
  simp only [OpenStruct.close, OpenStruct.relocate, Tree.relocate, Tree.relocateFields_reverse]

@[simp] theorem fill_relocate (items : List Tree.Item) (tree : Tree) (hole : Hole) :
    fill (items.map (Tree.Item.relocate f) ++ front) (tree.relocate f) (hole.relocate f) =
      (fill items tree hole).relocate f front := by
  cases hole <;> rfl

/-- The outcome of taking tokens, relocated. -/
abbrev relocated (f : Span → Span) (front : List Tree.Item) :
    Except SyntaxError Reader → Except SyntaxError Reader :=
  mapOutcome (SyntaxError.relocate f) (Reader.relocate f front)

/-- A refusal tells of a stage only what is wanted there. -/
theorem refuse_relocate {stage stage' : Stage} (h : stage'.wanted = stage.wanted) (t : Token) :
    refuse stage' (t.relocate f) = relocated f front (refuse stage t) := by
  simp only [refuse, h, relocated, mapOutcome, SyntaxError.relocate, Token.relocate]

theorem enter_relocate (items : List Tree.Item) (hole : Hole) (t : Token) (inside : Stage) :
    enter limit (items.map (Tree.Item.relocate f) ++ front) (hole.relocate f) (t.relocate f)
        (inside.relocate f) =
      relocated f front (enter limit items hole t inside) := by
  simp only [enter, depth_relocate]
  split <;> rfl

theorem closeArray?_relocate (items : List Tree.Item) (hole : Hole) (t : Token) :
    closeArray? (items.map (Tree.Item.relocate f) ++ front) (hole.relocate f) (t.relocate f) =
      (closeArray? items hole t).map (Reader.relocate f front) := by
  cases hole with
  | element opening before outer =>
    cases before with
    | nil => rfl
    | cons last before =>
      simp only [closeArray?, Hole.relocate, Tree.relocateAll, Option.map_some,
        ← fill_relocate, Tree.relocate, Tree.relocateAll_reverse]
  | main | declaration | field => rfl

theorem startValue_relocate (items : List Tree.Item) (stage : Stage) (hole : Hole) (t : Token) :
    startValue limit (items.map (Tree.Item.relocate f) ++ front) (stage.relocate f)
        (hole.relocate f) (t.relocate f) =
      relocated f front (startValue limit items stage hole t) := by
  have hkind : (t.relocate f).kind = t.kind := rfl
  unfold startValue
  rw [hkind]
  split
  · exact congrArg Except.ok (fill_relocate items (.number t) hole)
  · exact enter_relocate items hole t (.value (.element t [] hole))
  · exact enter_relocate items hole t (.openBrace t hole)
  · rfl
  · rw [closeArray?_relocate]
    cases closeArray? items hole t with
    | none => exact refuse_relocate (wanted_relocate stage) t
    | some r => rfl
  · exact refuse_relocate (wanted_relocate stage) t

/-- **A step looks at no place**, and at no complete item. -/
theorem step_relocate (r : Reader) (t : Token) :
    step limit (r.relocate f front) (t.relocate f) = relocated f front (step limit r t) := by
  obtain ⟨items, stage⟩ := r
  have hkind : (t.relocate f).kind = t.kind := rfl
  cases stage with
  | item =>
    simp only [step, Reader.relocate, Stage.relocate, hkind]
    split
    · rfl
    · exact startValue_relocate items .item .main t
  | value hole => exact startValue_relocate items (.value hole) hole t
  | fieldName struct comma outer =>
    simp only [step, Reader.relocate, Stage.relocate, hkind, Option.map_eq_none_iff]
    split
    · rfl
    · split
      · rw [close_relocate, fill_relocate]
        rfl
      · exact refuse_relocate rfl t
  | separator struct outer =>
    simp only [step, Reader.relocate, Stage.relocate, hkind]
    split
    · rfl
    · split
      · rw [close_relocate, fill_relocate]
        rfl
      · exact refuse_relocate rfl t
  | closeReference opening name hole =>
    simp only [step, Reader.relocate, Stage.relocate, hkind]
    split
    · exact congrArg Except.ok (fill_relocate items (.reference opening name t) hole)
    · exact refuse_relocate rfl t
  | isWord | openBrace | equals | referenceName =>
    simp only [step, Reader.relocate, Stage.relocate, hkind]
    split
    · rfl
    · exact refuse_relocate rfl t
  | finished => exact refuse_relocate rfl t

theorem run_relocate (r : Reader) (tokens : List Token) :
    run limit (r.relocate f front) (tokens.map (Token.relocate f)) =
      relocated f front (run limit r tokens) :=
  mapOutcome_foldlM step_relocate tokens r

theorem finish_relocate (r : Reader) (last : Token) :
    (r.relocate f front).finish (last.relocate f) =
      mapOutcome (SyntaxError.relocate f)
        (fun items => front.reverse ++ items.map (Tree.Item.relocate f)) (r.finish last) := by
  obtain ⟨items, stage⟩ := r
  cases stage with
  | item | finished =>
    simp only [finish, Reader.relocate, Stage.relocate, List.reverse_append, mapOutcome,
      List.map_reverse]
  | isWord | value | openBrace | fieldName | equals | separator | referenceName
  | closeReference => rfl

/-- **Reading looks at no place**, and items in front of what is read stay there. -/
theorem read_relocate (limit : Nat) (f : Span → Span) (front : List Tree.Item)
    (s : TokenStream) :
    (do
      let r ← run limit ⟨front, .item⟩ (s.relocate f).tokens
      let last ← (s.relocate f).ending
      r.finish last) =
      mapOutcome (SyntaxError.relocate f)
        (fun items => front.reverse ++ items.map (Tree.Item.relocate f))
        (Tree.ofStream limit s) := by
  have hrun : run limit ⟨front, .item⟩ (s.relocate f).tokens =
      relocated f front (run limit {} s.tokens) := run_relocate {} s.tokens
  rw [hrun, Tree.ofStream]
  refine mapOutcome_bind fun r => ?_
  exact mapOutcome_bind fun last => finish_relocate r last

end Reader

theorem Tree.ofStream_relocate {limit : Nat} {f : Span → Span} (s : TokenStream) :
    ofStream limit (s.relocate f) =
      mapOutcome (SyntaxError.relocate f) (List.map (Item.relocate f)) (ofStream limit s) :=
  Reader.read_relocate limit f [] s

/-! ## Building programs -/

section

variable {f : Span → Span}

theorem Token.toName_relocate (t : Token) :
    (t.relocate f).toName = mapOutcome (Error.relocate f) id t.toName := by
  have hkind : (t.relocate f).kind = t.kind := rfl
  unfold toName
  rw [hkind]
  split <;> rfl

theorem Token.toNumber_relocate (t : Token) :
    (t.relocate f).toNumber = mapOutcome (Error.relocate f) id t.toNumber := by
  have hkind : (t.relocate f).kind = t.kind := rfl
  have htext : (t.relocate f).text = t.text := rfl
  unfold toNumber
  rw [hkind, htext]
  split
  · cases Numeral.read t.text <;> rfl
  · rfl

namespace Expr

mutual

theorem ofTree_relocate : ∀ tree : Tree,
    ofTree (tree.relocate f) = mapOutcome (Error.relocate f) (Expr.relocate f) (ofTree tree)
  | .number token => by
    rw [Tree.relocate, ofTree, ofTree, Token.toNumber_relocate]
    exact mapOutcome_bind fun _ => rfl
  | .array _ [] _ => rfl
  | .array opening (tree :: trees) closing => by
    rw [Tree.relocate, Tree.relocateAll, ofTree, ofTree, ofTree_relocate tree]
    refine mapOutcome_bind fun e => ?_
    rw [ofTrees_relocate trees]
    exact mapOutcome_bind fun _ => rfl
  | .struct keyword opening fields closing => by
    rw [Tree.relocate, ofTree, ofTree, ofFields_relocate fields]
    exact mapOutcome_bind fun _ => rfl
  | .reference opening name closing => by
    rw [Tree.relocate, ofTree, ofTree, Token.toName_relocate]
    exact mapOutcome_bind fun _ => rfl

theorem ofTrees_relocate : ∀ trees : List Tree,
    ofTrees (Tree.relocateAll f trees) =
      mapOutcome (Error.relocate f) (relocateAll f) (ofTrees trees)
  | [] => rfl
  | tree :: trees => by
    rw [Tree.relocateAll, ofTrees, ofTrees, ofTree_relocate tree]
    refine mapOutcome_bind fun e => ?_
    rw [ofTrees_relocate trees]
    exact mapOutcome_bind fun _ => rfl

theorem ofFields_relocate : ∀ fields : List (Tree.Field Tree),
    ofFields (Tree.relocateFields f fields) =
      mapOutcome (Error.relocate f) (relocateBindings f) (ofFields fields)
  | [] => rfl
  | ⟨comma, name, equals, value⟩ :: fields => by
    rw [Tree.relocateFields, ofFields, ofFields, Token.toName_relocate]
    refine mapOutcome_bind fun label => ?_
    rw [ofTree_relocate value]
    refine mapOutcome_bind fun e => ?_
    rw [ofFields_relocate fields]
    exact mapOutcome_bind fun _ => rfl

end

end Expr

namespace Program

theorem Item.ofTree_relocate (item : Tree.Item) :
    Item.ofTree (item.relocate f) =
      mapOutcome (Error.relocate f) (Item.relocate f) (Item.ofTree item) := by
  cases item with
  | declaration name isWord tree =>
    rw [Tree.Item.relocate, ofTree, ofTree, Token.toName_relocate]
    refine mapOutcome_bind fun label => ?_
    rw [Expr.ofTree_relocate]
    exact mapOutcome_bind fun _ => rfl
  | value tree =>
    rw [Tree.Item.relocate, ofTree, ofTree, Expr.ofTree_relocate]
    exact mapOutcome_bind fun _ => rfl

theorem Item.toDeclaration_relocate (item : Item) :
    (item.relocate f).toDeclaration =
      mapOutcome (Error.relocate f) (Binding.relocate f) item.toDeclaration := by
  cases item <;> rfl

theorem ofItems_relocate (items : List Item) :
    ofItems (items.map (Item.relocate f)) =
      mapOutcome (Error.relocate f) (Program.relocate f) (ofItems items) := by
  rw [ofItems, ofItems, List.getLast?_map]
  cases items.getLast? with
  | none => rfl
  | some last =>
    cases last with
    | declaration binding => rfl
    | value main =>
      dsimp only [Option.map_some, Item.relocate]
      rw [← List.map_dropLast, mapOutcome_mapM Item.toDeclaration_relocate]
      exact mapOutcome_bind fun _ => rfl

/-- **Building a program looks at no place.** -/
theorem ofTrees_relocate (items : List Tree.Item) :
    ofTrees (items.map (Tree.Item.relocate f)) =
      mapOutcome (Error.relocate f) (Program.relocate f) (ofTrees items) := by
  rw [ofTrees, ofTrees, mapOutcome_mapM Item.ofTree_relocate]
  exact mapOutcome_bind ofItems_relocate

end Program

/-! ## Evaluating -/

variable {options : Options}

namespace Expr

mutual

theorem resolve_relocate (constants : Table Value) : ∀ e : Expr,
    (e.relocate f).resolve options constants =
      mapOutcome (Error.relocate f) id (e.resolve options constants)
  | .number x => rfl
  | .array elements => by
    rw [relocate, resolve, resolve, resolveAll_relocate constants elements]
    exact mapOutcome_bind fun _ => rfl
  | .struct fields => by
    rw [relocate, resolve, resolve, resolveFields_relocate constants {} fields]
    exact mapOutcome_bind fun _ => rfl
  | .reference name span => by
    rw [relocate, resolve, resolve]
    cases constants.get? name <;> rfl

theorem resolveAll_relocate (constants : Table Value) : ∀ es : List Expr,
    resolveAll options constants (relocateAll f es) =
      mapOutcome (Error.relocate f) id (resolveAll options constants es)
  | [] => rfl
  | e :: es => by
    rw [relocateAll, resolveAll, resolveAll, resolve_relocate constants e]
    refine mapOutcome_bind fun v => ?_
    rw [resolveAll_relocate constants es]
    exact mapOutcome_bind fun _ => rfl

theorem resolveFields_relocate (constants : Table Value) :
    ∀ (before : Table Value) (fields : List (Binding Expr)),
      resolveFields options constants before (relocateBindings f fields) =
        mapOutcome (Error.relocate f) id (resolveFields options constants before fields)
  | before, [] => rfl
  | before, ⟨name, span, e⟩ :: fields => by
    rw [relocateBindings, resolveFields, resolveFields]
    split
    · rfl
    · rw [resolve_relocate constants e]
      exact mapOutcome_bind fun v => resolveFields_relocate constants _ fields

end

end Expr

namespace Program

theorem declare_relocate (constants : Table Value) (d : Binding Expr) :
    declare options constants (d.relocate f) =
      mapOutcome (Error.relocate f) id (declare options constants d) := by
  rw [declare, declare, Binding.relocate, Expr.resolve_relocate]
  refine mapOutcome_bind fun v => ?_
  dsimp only [id]
  split <;> rfl

/-- **An evaluation looks at no place**, and its value has none. -/
theorem evaluate_relocate (p : Program) :
    (p.relocate f).evaluate options = mapOutcome (Error.relocate f) id (p.evaluate options) := by
  have hdeclarations : (p.declarations.map (Binding.relocate f)).foldlM (declare options) {} =
      mapOutcome (Error.relocate f) id (p.declarations.foldlM (declare options) {}) :=
    mapOutcome_foldlM declare_relocate p.declarations {}
  rw [evaluate, evaluate, relocate, hdeclarations]
  refine mapOutcome_bind fun constants => ?_
  dsimp only [id]
  rw [Expr.resolve_relocate]
  exact mapOutcome_bind fun _ => rfl

end Program

/-! ## From tokens to a value -/

/-- The program that a stream of tokens says. -/
def TokenStream.program (s : TokenStream) : Except Error Program := do
  Program.ofTrees (← (Tree.ofStream Reader.maxDepth s).mapError Error.malformed)

/-- The value of a stream of tokens. -/
def TokenStream.compile (options : Options) (s : TokenStream) : Except Error Evaluation := do
  (← s.program).evaluate options

theorem compile_eq (text : String) :
    ConstLang.compile options text = (TokenStream.ofText text).compile options := rfl

namespace TokenStream

theorem program_relocate (s : TokenStream) :
    (s.relocate f).program = mapOutcome (Error.relocate f) (Program.relocate f) s.program := by
  have hitems : (Tree.ofStream Reader.maxDepth (s.relocate f)).mapError Error.malformed =
      mapOutcome (Error.relocate f) (List.map (Tree.Item.relocate f))
        ((Tree.ofStream Reader.maxDepth s).mapError Error.malformed) := by
    rw [Tree.ofStream_relocate]
    cases Tree.ofStream Reader.maxDepth s <;> rfl
  rw [program, program, hitems]
  exact mapOutcome_bind Program.ofTrees_relocate

/-- **The value of a stream does not depend on its places**, and an error only by its own. -/
theorem compile_relocate (s : TokenStream) :
    (s.relocate f).compile options = mapOutcome (Error.relocate f) id (s.compile options) := by
  rw [compile, compile, program_relocate]
  exact mapOutcome_bind Program.evaluate_relocate

end TokenStream

end

end ConstLang
