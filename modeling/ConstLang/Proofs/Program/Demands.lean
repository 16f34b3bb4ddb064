/-
What a tree has to meet to stand for a program. A tree need not come from a text, so a name in it
may be any token, and so may a number. `Tree.demands` lists what is asked of a tree in the order of
the text, and `Tree.StandsFor` relates trees to the expressions that say the same; neither looks at
punctuation. `errorOf?_ofTree`: the first demand that is not met is the fault that is reported. Only
items that all meet their demands are looked at as a sequence. `ofTrees_of_demands` puts this
together for all items of a tree.
-/
import ConstLang.Proofs.Program.Success
import Mathlib.Data.List.Forall2

namespace ConstLang

/-! ## Demands -/

/-- What is asked of a part of a tree. -/
inductive Tree.Demand
  /-- A token is a name. -/
  | name (token : Token)
  /-- A token is a number, with a text that can be read as one. -/
  | number (token : Token)
  /-- An array with so many elements is not empty. -/
  | elements (count : Nat)

namespace Tree

namespace Demand

def Met : Demand → Prop
  | name token => token.kind = .name
  | number token => token.kind = .number ∧ ∃ x, Numeral.read token.text = .ok x
  | elements count => count ≠ 0

/-- What is reported if the demand is not met. -/
def fault? : Demand → Option StructuralFault
  | name token => if token.kind = .name then none else some (.nameWanted token.kind)
  | number token =>
    if token.kind = .number then
      match Numeral.read token.text with
      | .ok _ => none
      | .error fault => some (.badNumber token.text fault)
    else some (.numberWanted token.kind)
  | elements count => if count = 0 then some .emptyArray else none

theorem fault?_eq_none_iff {d : Demand} : d.fault? = none ↔ d.Met := by
  cases d with
  | name token => simp [fault?, Met]
  | number token =>
    by_cases hk : token.kind = .number
    · cases h : Numeral.read token.text <;> simp [fault?, Met, hk, h]
    · simp [fault?, Met, hk]
  | elements count => simp [fault?, Met]

def error? (d : Demand) : Option Error := d.fault?.map .structural

end Demand

mutual

/-- What is asked of a tree, in the order of the text. -/
def demands : Tree → List Demand
  | number token => [.number token]
  | array _ elements _ => .elements elements.length :: demandsOfAll elements
  | struct _ _ fields _ => demandsOfFields fields
  | reference _ name _ => [.name name]

def demandsOfAll : List Tree → List Demand
  | [] => []
  | tree :: trees => tree.demands ++ demandsOfAll trees

/-- What is asked of fields: of each one its name, then what its value has to meet. -/
def demandsOfFields : List (Field Tree) → List Demand
  | [] => []
  | ⟨_, name, _, value⟩ :: fields => .name name :: (value.demands ++ demandsOfFields fields)

end

namespace Item

def demands : Item → List Demand
  | declaration name _ tree => .name name :: tree.demands
  | value tree => tree.demands

def demandsOfAll (items : List Item) : List Demand := items.flatMap demands

theorem demandsOfAll_cons (item : Item) (items : List Item) :
    demandsOfAll (item :: items) = item.demands ++ demandsOfAll items := List.flatMap_cons

end Item

/-- What is wrong with the items as a sequence: no value comes last, or one comes before. -/
inductive SequenceFault (items : List Item) : Error → Prop
  | noMain : ¬ HasMain items → SequenceFault items .emptyProgram
  | early {before : List Item} {main tree : Tree} : items = before ++ [.value main] →
      .value tree ∈ before → SequenceFault items (.structural .valueBeforeMain)

theorem sequenceFault_of_not_hasMain {items : List Item} (h : ¬ HasMain items) {err : Error} :
    SequenceFault items err ↔ err = .emptyProgram := by
  constructor
  · rintro (_ | ⟨rfl, -⟩)
    · rfl
    · exact absurd ⟨_, _, rfl⟩ h
  · rintro rfl
    exact .noMain h

theorem sequenceFault_concat_value_iff {before : List Item} {main : Tree} {err : Error} :
    SequenceFault (before ++ [.value main]) err ↔
      err = .structural .valueBeforeMain ∧ ∃ tree, .value tree ∈ before := by
  constructor
  · rintro (hmain | ⟨hsplit, hm⟩)
    · exact absurd ⟨_, _, rfl⟩ hmain
    · obtain ⟨rfl, -⟩ := List.append_singleton_inj.mp hsplit
      exact ⟨rfl, _, hm⟩
  · rintro ⟨rfl, tree, hm⟩
    exact .early rfl hm

/-- Items are in sequence if they are declarations with one value behind them. -/
theorem no_sequenceFault_iff {items : List Item} :
    (∀ err, ¬ SequenceFault items err) ↔
      ∃ before main, items = before ++ [.value main] ∧ ∀ item ∈ before, item.IsDeclaration := by
  constructor
  · intro h
    by_cases hmain : HasMain items
    · obtain ⟨before, main, rfl⟩ := hmain
      refine ⟨before, main, rfl, fun item hm => ?_⟩
      cases item with
      | declaration name isWord tree => trivial
      | value tree => exact absurd (.early rfl hm) (h _)
    · exact absurd (.noMain hmain) (h _)
  · rintro ⟨before, main, rfl, hall⟩ err hfault
    obtain ⟨-, tree, hm⟩ := sequenceFault_concat_value_iff.mp hfault
    exact hall _ hm

/-! ## What a tree says -/

mutual

/-- The expression says what the tree does: the same elements, fields and references in the same
order, each name with the text and the place of its token, each number as its text reads. -/
inductive StandsFor : Tree → Expr → Prop
  | number {token : Token} {x : Binary64} : Numeral.read token.text = .ok x →
      StandsFor (.number token) (.number x)
  | array {opening closing : Token} {trees : List Tree} {es : List Expr} :
      AllStandFor trees es → StandsFor (.array opening trees closing) (.array es)
  | struct {keyword opening closing : Token} {fields : List (Field Tree)}
      {bs : List (Binding Expr)} :
      FieldsStandFor fields bs → StandsFor (.struct keyword opening fields closing) (.struct bs)
  | reference {opening name closing : Token} :
      StandsFor (.reference opening name closing) (.reference name.text name.span)

inductive AllStandFor : List Tree → List Expr → Prop
  | nil : AllStandFor [] []
  | cons {tree : Tree} {e : Expr} {trees : List Tree} {es : List Expr} :
      StandsFor tree e → AllStandFor trees es → AllStandFor (tree :: trees) (e :: es)

inductive FieldsStandFor : List (Field Tree) → List (Binding Expr) → Prop
  | nil : FieldsStandFor [] []
  | cons {comma : Option Token} {name equals : Token} {value : Tree} {e : Expr}
      {fields : List (Field Tree)} {bs : List (Binding Expr)} :
      StandsFor value e → FieldsStandFor fields bs →
      FieldsStandFor (⟨comma, name, equals, value⟩ :: fields) (⟨name.text, name.span, e⟩ :: bs)

end

inductive Item.StandsFor : Item → Program.Item → Prop
  | declaration {name isWord : Token} {tree : Tree} {e : Expr} : tree.StandsFor e →
      StandsFor (.declaration name isWord tree) (.declaration ⟨name.text, name.span, e⟩)
  | value {tree : Tree} {e : Expr} : tree.StandsFor e → StandsFor (.value tree) (.value e)

/-! ## Punctuation -/

mutual

/-- The tree with the same token in the place of every mark and word. -/
def bare : Tree → Tree
  | number token => number token
  | array _ elements _ => array (.endAt {}) (bareAll elements) (.endAt {})
  | struct _ _ fields _ => struct (.endAt {}) (.endAt {}) (bareFields fields) (.endAt {})
  | reference _ name _ => reference (.endAt {}) name (.endAt {})

def bareAll : List Tree → List Tree
  | [] => []
  | tree :: trees => tree.bare :: bareAll trees

def bareFields : List (Field Tree) → List (Field Tree)
  | [] => []
  | ⟨_, name, _, value⟩ :: fields => ⟨none, name, .endAt {}, value.bare⟩ :: bareFields fields

end

def Item.bare : Item → Item
  | declaration name _ tree => declaration name (.endAt {}) tree.bare
  | value tree => value tree.bare

end Tree

/-! ## Tokens -/

namespace Token

open ConstLang.Tree (Demand)

theorem errorOf?_toName (t : Token) : errorOf? t.toName = Demand.error? (.name t) := by
  by_cases hk : t.kind = .name <;> simp [toName, errorOf?, Demand.error?, Demand.fault?, hk]

theorem errorOf?_toNumber (t : Token) : errorOf? t.toNumber = Demand.error? (.number t) := by
  by_cases hk : t.kind = .number
  · cases h : Numeral.read t.text <;>
      simp [toNumber, errorOf?, Except.mapError, Demand.error?, Demand.fault?, hk, h]
  · simp [toNumber, errorOf?, Demand.error?, Demand.fault?, hk]

end Token

/-! ## Expressions -/

namespace Expr

open ConstLang.Tree (Demand demands demandsOfAll demandsOfFields StandsFor AllStandFor
  FieldsStandFor)

mutual

/-- **The first demand that is not met** is what is wrong with a tree. -/
theorem errorOf?_ofTree : ∀ tree : Tree,
    errorOf? (ofTree tree) = tree.demands.findSome? Demand.error?
  | .number token => by
    rw [ofTree, errorOf?_bind_pure, Token.errorOf?_toNumber, demands, List.findSome?_singleton]
  | .array opening [] closing => rfl
  | .array opening (tree :: trees) closing => by
    have hcount : Demand.error? (.elements (tree :: trees).length) = none := rfl
    rw [ofTree, demands, List.findSome?_cons, hcount, demandsOfAll, List.findSome?_append,
      errorOf?_bind fun e _ => (errorOf?_bind_pure _).trans (errorOf?_ofTrees trees),
      errorOf?_ofTree tree]
  | .struct keyword opening fields closing => by
    rw [ofTree, errorOf?_bind_pure, errorOf?_ofFields fields, demands]
  | .reference opening name closing => by
    rw [ofTree, errorOf?_bind_pure, Token.errorOf?_toName, demands, List.findSome?_singleton]

theorem errorOf?_ofTrees : ∀ trees : List Tree,
    errorOf? (ofTrees trees) = (demandsOfAll trees).findSome? Demand.error?
  | [] => rfl
  | tree :: trees => by
    rw [ofTrees, demandsOfAll, List.findSome?_append,
      errorOf?_bind fun e _ => (errorOf?_bind_pure _).trans (errorOf?_ofTrees trees),
      errorOf?_ofTree tree]

theorem errorOf?_ofFields : ∀ fields : List (Tree.Field Tree),
    errorOf? (ofFields fields) = (demandsOfFields fields).findSome? Demand.error?
  | [] => rfl
  | ⟨comma, name, equals, value⟩ :: fields => by
    have hvalue : ∀ label, errorOf? (do
        let e ← ofTree value
        return ⟨label, name.span, e⟩ :: (← ofFields fields)) =
          (value.demands ++ demandsOfFields fields).findSome? Demand.error? := fun label => by
      rw [errorOf?_bind fun e _ => (errorOf?_bind_pure _).trans (errorOf?_ofFields fields),
        errorOf?_ofTree value, List.findSome?_append]
    rw [ofFields, errorOf?_bind fun label _ => hvalue label, Token.errorOf?_toName,
      demandsOfFields, List.findSome?_cons]
    cases Demand.error? (.name name) <;> rfl

end

mutual

/-- The expression that is made of a tree says what the tree does. -/
theorem standsFor_of_ofTree : ∀ (tree : Tree) {e : Expr}, ofTree tree = .ok e → tree.StandsFor e
  | .number token, e, h => by
    obtain ⟨x, hx, rfl⟩ := ofTree_number_eq_ok_iff.mp h
    exact .number (Token.toNumber_eq_ok_iff.mp hx).2
  | .array opening elements closing, e, h => by
    obtain ⟨-, es, hes, rfl⟩ := ofTree_array_eq_ok_iff.mp h
    exact .array (allStandFor_of_ofTrees elements hes)
  | .struct keyword opening fields closing, e, h => by
    obtain ⟨bs, hbs, rfl⟩ := ofTree_struct_eq_ok_iff.mp h
    exact .struct (fieldsStandFor_of_ofFields fields hbs)
  | .reference opening name closing, e, h => by
    obtain ⟨label, hlabel, rfl⟩ := ofTree_reference_eq_ok_iff.mp h
    obtain ⟨-, rfl⟩ := Token.toName_eq_ok_iff.mp hlabel
    exact .reference

theorem allStandFor_of_ofTrees : ∀ (trees : List Tree) {es : List Expr},
    ofTrees trees = .ok es → AllStandFor trees es
  | [], es, h => by
    cases h
    exact .nil
  | tree :: trees, es, h => by
    obtain ⟨e, he, es, hes, rfl⟩ := ofTrees_cons_eq_ok_iff.mp h
    exact .cons (standsFor_of_ofTree tree he) (allStandFor_of_ofTrees trees hes)

theorem fieldsStandFor_of_ofFields : ∀ (fields : List (Tree.Field Tree)) {bs : List (Binding Expr)},
    ofFields fields = .ok bs → FieldsStandFor fields bs
  | [], bs, h => by
    cases h
    exact .nil
  | ⟨comma, name, equals, value⟩ :: fields, bs, h => by
    obtain ⟨label, hlabel, e, he, bs, hbs, rfl⟩ := ofFields_cons_eq_ok_iff.mp h
    obtain ⟨-, rfl⟩ := Token.toName_eq_ok_iff.mp hlabel
    exact .cons (standsFor_of_ofTree value he) (fieldsStandFor_of_ofFields fields hbs)

end

mutual

/-- Punctuation plays no part in what a tree stands for. -/
theorem ofTree_bare : ∀ tree : Tree, ofTree tree.bare = ofTree tree
  | .number token => rfl
  | .array opening [] closing => rfl
  | .array opening (tree :: trees) closing => by
    simp only [Tree.bare, Tree.bareAll, ofTree, ofTree_bare tree, ofTrees_bareAll trees]
  | .struct keyword opening fields closing => by
    simp only [Tree.bare, ofTree, ofFields_bareFields fields]
  | .reference opening name closing => rfl

theorem ofTrees_bareAll : ∀ trees : List Tree, ofTrees (Tree.bareAll trees) = ofTrees trees
  | [] => rfl
  | tree :: trees => by
    simp only [Tree.bareAll, ofTrees, ofTree_bare tree, ofTrees_bareAll trees]

theorem ofFields_bareFields : ∀ fields : List (Tree.Field Tree),
    ofFields (Tree.bareFields fields) = ofFields fields
  | [] => rfl
  | ⟨comma, name, equals, value⟩ :: fields => by
    simp only [Tree.bareFields, ofFields, ofTree_bare value, ofFields_bareFields fields]

end

end Expr

/-! ## Programs -/

/-- Results for all elements are a result for each one, in the same order. -/
theorem mapM_eq_ok_iff {ε α β : Type} {f : α → Except ε β} {as : List α} {bs : List β} :
    as.mapM f = .ok bs ↔ List.Forall₂ (fun a b => f a = .ok b) as bs := by
  induction as generalizing bs with
  | nil => cases bs <;> simp
  | cons a as ih =>
    simp only [List.mapM_cons, bind_eq_ok_iff, pure_eq_ok_iff, ih]
    constructor
    · rintro ⟨b, hb, bs, hbs, rfl⟩
      exact .cons hb hbs
    · intro h
      cases h with
      | cons hb hbs => exact ⟨_, hb, _, hbs, rfl⟩

namespace Program

open ConstLang.Tree (Demand HasMain SequenceFault)

variable {items : List Tree.Item}

theorem Item.errorOf?_ofTree (item : Tree.Item) :
    errorOf? (Item.ofTree item) = item.demands.findSome? Demand.error? := by
  cases item with
  | value tree => rw [Item.ofTree, errorOf?_bind_pure, Expr.errorOf?_ofTree, Tree.Item.demands]
  | declaration name isWord tree =>
    rw [Item.ofTree, errorOf?_bind fun label _ =>
        (errorOf?_bind_pure _).trans (Expr.errorOf?_ofTree tree),
      Token.errorOf?_toName, Tree.Item.demands, List.findSome?_cons]
    cases Demand.error? (.name name) <;> rfl

theorem Item.standsFor_of_ofTree {item : Tree.Item} {i : Item} (h : Item.ofTree item = .ok i) :
    item.StandsFor i := by
  cases item with
  | value tree =>
    obtain ⟨e, he, rfl⟩ := Item.ofTree_value_eq_ok_iff.mp h
    exact .value (Expr.standsFor_of_ofTree tree he)
  | declaration name isWord tree =>
    obtain ⟨label, hlabel, e, he, rfl⟩ := Item.ofTree_declaration_eq_ok_iff.mp h
    obtain ⟨-, rfl⟩ := Token.toName_eq_ok_iff.mp hlabel
    exact .declaration (Expr.standsFor_of_ofTree tree he)

theorem Item.ofTree_bare (item : Tree.Item) : Item.ofTree item.bare = Item.ofTree item := by
  cases item <;> simp only [Tree.Item.bare, Item.ofTree, Expr.ofTree_bare]

/-- What is asked of the items comes before what is asked of their sequence. -/
theorem errorOf?_mapM_ofTree (items : List Tree.Item) :
    errorOf? (items.mapM Item.ofTree) =
      (Tree.Item.demandsOfAll items).findSome? Demand.error? := by
  rw [errorOf?_mapM]
  induction items with
  | nil => rfl
  | cons item items ih =>
    rw [List.findSome?_cons, ih, Tree.Item.demandsOfAll_cons, List.findSome?_append,
      Item.errorOf?_ofTree]
    cases item.demands.findSome? Demand.error? <;> rfl

/-! ### The sequence of items -/

theorem ofItems_concat_declaration (is : List Item) (d : Binding Expr) :
    ofItems (is ++ [.declaration d]) = .error .emptyProgram := by
  rw [ofItems, List.getLast?_concat]

theorem ofItems_concat_value (is : List Item) (e : Expr) :
    ofItems (is ++ [.value e]) = is.mapM Item.toDeclaration >>= fun ds => pure ⟨ds, e⟩ := by
  rw [ofItems, List.getLast?_concat, List.dropLast_concat]

/-- Items are not declarations only if a value is among them. -/
theorem mapM_toDeclaration_eq_error_iff {is : List Item} {err : Error} :
    is.mapM Item.toDeclaration = .error err ↔
      err = .structural .valueBeforeMain ∧ ∃ e, .value e ∈ is := by
  rw [eq_error_iff, errorOf?_mapM]
  induction is with
  | nil => simp
  | cons i is ih =>
    cases i with
    | value e => simp [Item.toDeclaration, errorOf?, eq_comm]
    | declaration d => simpa [Item.toDeclaration, errorOf?] using ih

/-- Behind other items, a value is refused for those only. -/
theorem ofItems_concat_value_eq_error_iff {is : List Item} {e : Expr} {err : Error} :
    ofItems (is ++ [.value e]) = .error err ↔
      err = .structural .valueBeforeMain ∧ ∃ e', .value e' ∈ is := by
  rw [ofItems_concat_value, bind_eq_error_iff, mapM_toDeclaration_eq_error_iff]
  simp [pure_ne_error]

variable {is : List Item}

theorem exists_value_mem_iff (h : List.Forall₂ Tree.Item.StandsFor items is) :
    (∃ e, .value e ∈ is) ↔ ∃ tree, .value tree ∈ items := by
  induction h with
  | nil => simp
  | cons hi _ ih => cases hi <;> simp [ih]

theorem forall₂_concat_iff {α β : Type} {R : α → β → Prop} {as : List α} {bs : List β} {a : α}
    {b : β} : List.Forall₂ R (as ++ [a]) (bs ++ [b]) ↔ List.Forall₂ R as bs ∧ R a b := by
  rw [← List.forall₂_reverse_iff, List.reverse_concat, List.reverse_concat, List.forall₂_cons,
    List.forall₂_reverse_iff, and_comm]

/-- **The sequence of items** that stand for something is refused for one of two faults. -/
theorem ofItems_eq_error_iff (h : List.Forall₂ Tree.Item.StandsFor items is) {err : Error} :
    ofItems is = .error err ↔ SequenceFault items err := by
  rcases List.eq_nil_or_concat' is with rfl | ⟨bs, i, rfl⟩
  · rw [List.forall₂_nil_right_iff] at h
    have hmain : ¬ HasMain items := by simp [h, HasMain]
    have hnil : ofItems [] = .error .emptyProgram := rfl
    rw [hnil, Tree.sequenceFault_of_not_hasMain hmain, Except.error.injEq, eq_comm]
  rcases List.eq_nil_or_concat' items with rfl | ⟨before, last, rfl⟩
  · exact absurd (List.forall₂_nil_left_iff.mp h) (by simp)
  obtain ⟨hbs, hi⟩ := forall₂_concat_iff.mp h
  cases hi with
  | @declaration name isWord tree e he =>
    have hmain : ¬ HasMain (before ++ [.declaration name isWord tree]) := by simp [HasMain]
    rw [ofItems_concat_declaration, Tree.sequenceFault_of_not_hasMain hmain, Except.error.injEq,
      eq_comm]
  | value he =>
    rw [ofItems_concat_value_eq_error_iff, exists_value_mem_iff hbs,
      Tree.sequenceFault_concat_value_iff]

/-! ### All items -/

theorem forall₂_standsFor_of_mapM (h : items.mapM Item.ofTree = .ok is) :
    List.Forall₂ Tree.Item.StandsFor items is :=
  (mapM_eq_ok_iff.mp h).imp fun _ _ => Item.standsFor_of_ofTree

/-- A demand that is not met comes first, or all are met. -/
theorem mapM_ofTree_eq_error_iff {err : Error} :
    items.mapM Item.ofTree = .error err ↔
      ∃ before d after fault, Tree.Item.demandsOfAll items = before ++ d :: after ∧
        (∀ b ∈ before, b.Met) ∧ d.fault? = some fault ∧ err = .structural fault := by
  rw [eq_error_iff, errorOf?_mapM_ofTree, List.findSome?_eq_some_iff]
  simp only [Demand.error?, Option.map_eq_some_iff, Option.map_eq_none_iff,
    Demand.fault?_eq_none_iff]
  constructor
  · rintro ⟨before, d, after, hsplit, ⟨fault, hfault, rfl⟩, hbefore⟩
    exact ⟨before, d, after, fault, hsplit, hbefore, hfault, rfl⟩
  · rintro ⟨before, d, after, fault, hsplit, hbefore, hfault, rfl⟩
    exact ⟨before, d, after, hsplit, ⟨fault, hfault, rfl⟩, hbefore⟩

theorem exists_mapM_ofTree_iff :
    (∃ is, items.mapM Item.ofTree = .ok is) ↔ ∀ d ∈ Tree.Item.demandsOfAll items, d.Met := by
  rw [exists_ok_iff, errorOf?_mapM_ofTree, List.findSome?_eq_none_iff]
  simp only [Demand.error?, Option.map_eq_none_iff, Demand.fault?_eq_none_iff]

theorem exists_ofTrees_iff :
    (∃ p, ofTrees items = .ok p) ↔
      (∀ d ∈ Tree.Item.demandsOfAll items, d.Met) ∧ ∀ err, ¬ SequenceFault items err := by
  simp only [ofTrees, bind_eq_ok_iff, ← exists_mapM_ofTree_iff]
  constructor
  · rintro ⟨p, is, his, hp⟩
    refine ⟨⟨is, his⟩, fun err hfault => ?_⟩
    rw [← ofItems_eq_error_iff (forall₂_standsFor_of_mapM his), hp] at hfault
    cases hfault
  · rintro ⟨⟨is, his⟩, hnone⟩
    cases hp : ofItems is with
    | ok p => exact ⟨p, is, his, hp⟩
    | error err =>
      exact absurd ((ofItems_eq_error_iff (forall₂_standsFor_of_mapM his)).mp hp) (hnone err)

theorem ofTrees_eq_error_iff {err : Error} :
    ofTrees items = .error err ↔
      (∃ before d after fault, Tree.Item.demandsOfAll items = before ++ d :: after ∧
        (∀ b ∈ before, b.Met) ∧ d.fault? = some fault ∧ err = .structural fault) ∨
      (∀ d ∈ Tree.Item.demandsOfAll items, d.Met) ∧ SequenceFault items err := by
  rw [ofTrees, bind_eq_error_iff, mapM_ofTree_eq_error_iff, ← exists_mapM_ofTree_iff]
  refine or_congr_right ⟨?_, ?_⟩
  · rintro ⟨is, his, h⟩
    exact ⟨⟨is, his⟩, (ofItems_eq_error_iff (forall₂_standsFor_of_mapM his)).mp h⟩
  · rintro ⟨⟨is, his⟩, h⟩
    exact ⟨is, his, (ofItems_eq_error_iff (forall₂_standsFor_of_mapM his)).mpr h⟩

theorem ofTrees_map_bare (items : List Tree.Item) :
    ofTrees (items.map Tree.Item.bare) = ofTrees items := by
  simp only [ofTrees, List.mapM_map, Function.comp_def, Item.ofTree_bare]

/-- **Trees that meet their demands stand for a program**, if they are declarations with one value
behind them, and the program says what the trees do. Otherwise the first demand that is not met is
reported; and what is wrong with the sequence of the items, only if all demands are met. Trees that
differ in their punctuation stand for the same program. -/
theorem ofTrees_of_demands (items : List Tree.Item) :
    ((∃ p, ofTrees items = .ok p) ↔
      (∀ d ∈ Tree.Item.demandsOfAll items, d.Met) ∧
        ∃ before main, items = before ++ [.value main] ∧ ∀ item ∈ before, item.IsDeclaration) ∧
    (∀ p, ofTrees items = .ok p → List.Forall₂ Tree.Item.StandsFor items
      (p.declarations.map .declaration ++ [.value p.main])) ∧
    (∀ err, ofTrees items = .error err ↔
      (∃ before d after fault, Tree.Item.demandsOfAll items = before ++ d :: after ∧
        (∀ b ∈ before, b.Met) ∧ d.fault? = some fault ∧ err = .structural fault) ∨
      (∀ d ∈ Tree.Item.demandsOfAll items, d.Met) ∧ SequenceFault items err) ∧
    ∀ others : List Tree.Item, others.map Tree.Item.bare = items.map Tree.Item.bare →
      ofTrees others = ofTrees items := by
  refine ⟨?_, fun p hp => forall₂_standsFor_of_mapM (ofTrees_eq_ok_iff.mp hp),
    fun err => ofTrees_eq_error_iff, fun others h => ?_⟩
  · rw [exists_ofTrees_iff, Tree.no_sequenceFault_iff]
  · rw [← ofTrees_map_bare others, h, ofTrees_map_bare]

end Program

end ConstLang
