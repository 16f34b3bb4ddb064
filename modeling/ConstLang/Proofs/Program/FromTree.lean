/-
The names that a program uses, with their places. `labels` lists them in the order of the text,
those of declarations and fields as well as those that are referred to. A derivation stands for
a program, unless it has no main value, and the labels of the program are the name tokens of
the derivation, `ofTrees_of_derivation`: nothing else can go wrong on the way.
-/
import ConstLang.Program.OfTree
import ConstLang.Proofs.Grammar

namespace ConstLang

/-- A name where it stands. -/
structure Label where
  name : String
  span : Span
deriving DecidableEq

namespace Expr

mutual

/-- The names in an expression. -/
def labels : Expr → List Label
  | number _ => []
  | array elements => labelsOfAll elements
  | struct fields => labelsOfBindings fields
  | reference name span => [⟨name, span⟩]

def labelsOfAll : List Expr → List Label
  | [] => []
  | e :: es => e.labels ++ labelsOfAll es

/-- The names of bindings, each in front of those in its value. -/
def labelsOfBindings : List (Binding Expr) → List Label
  | [] => []
  | ⟨name, span, e⟩ :: bindings => ⟨name, span⟩ :: (e.labels ++ labelsOfBindings bindings)

end

end Expr

/-- The names in a program. -/
def Program.labels (p : Program) : List Label :=
  Expr.labelsOfBindings p.declarations ++ p.main.labels

namespace Token

/-- A name token as a label. -/
def label? (t : Token) : Option Label := if t.kind = .name then some ⟨t.text, t.span⟩ else none

variable {t : Token}

theorem label?_of_name (ht : t.kind = .name) : t.label? = some ⟨t.text, t.span⟩ := if_pos ht

theorem label?_of_ne {kind : Kind} (ht : t.kind = kind) (hk : kind ≠ .name) : t.label? = none :=
  if_neg (ht ▸ hk)

theorem mem_of_mem_labels {l : Label} {tokens : List Token} (h : l ∈ tokens.filterMap label?) :
    ∃ t ∈ tokens, t.kind = .name ∧ l = ⟨t.text, t.span⟩ := by
  obtain ⟨t, hm, hl⟩ := List.mem_filterMap.mp h
  by_cases ht : t.kind = .name
  · rw [label?_of_name ht, Option.some.injEq] at hl
    exact ⟨t, hm, ht, hl.symm⟩
  · rw [label?, if_neg ht] at hl
    cases hl

/-- If the token is a number, its text can be read as one. -/
def Readable (t : Token) : Prop := t.kind = .number → ∃ x, Numeral.read t.text = .ok x

theorem toName_of_name (ht : t.kind = .name) : t.toName = .ok t.text := if_pos ht

theorem Readable.exists_toNumber (h : t.Readable) (ht : t.kind = .number) :
    ∃ x, t.toNumber = .ok x := by
  obtain ⟨x, hx⟩ := h ht
  exact ⟨x, by rw [toNumber, if_pos ht, hx]; rfl⟩

end Token

namespace Expr

open ConstLang.Tree (Derives DerivesAll DerivesFields)

/-- An array stands for its elements, if it has any. -/
theorem ofTree_array (opening closing : Token) {elements : List Tree} (hne : elements ≠ []) :
    ofTree (.array opening elements closing) = (ofTrees elements).map .array := by
  cases elements with
  | nil => exact absurd rfl hne
  | cons tree trees =>
    rw [ofTree, ofTrees]
    cases ofTree tree with
    | error e => rfl
    | ok e => cases ofTrees trees <;> rfl

mutual

/-- A value that the grammar derives stands for an expression, with the names of the value. -/
theorem exists_ofTree : ∀ tree : Tree, Derives tree → (∀ t ∈ tree.leaves, t.Readable) →
    ∃ e, ofTree tree = .ok e ∧ e.labels = tree.leaves.filterMap Token.label?
  | .number token, h, hr => by
    cases h with
    | number ht =>
      obtain ⟨x, hx⟩ := (hr token (by simp [Tree.leaves])).exists_toNumber ht
      refine ⟨.number x, by rw [ofTree, hx]; rfl, ?_⟩
      simp [labels, Tree.leaves, Token.label?_of_ne ht]
  | .array opening elements closing, h, hr => by
    cases h with
    | array ho hne he hc =>
      obtain ⟨es, hes, hl⟩ :=
        exists_ofTrees elements he fun t ht => hr t (by simp [Tree.leaves, ht])
      refine ⟨.array es, by rw [ofTree_array opening closing hne, hes]; rfl, ?_⟩
      simp [labels, hl, Tree.leaves, Token.label?_of_ne ho, Token.label?_of_ne hc]
  | .struct keyword opening fields closing, h, hr => by
    cases h with
    | struct hk ho hf hc =>
      obtain ⟨bs, hbs, hl⟩ :=
        exists_ofFields fields true hf fun t ht => hr t (by simp [Tree.leaves, ht])
      refine ⟨.struct bs, by rw [ofTree, hbs]; rfl, ?_⟩
      simp [labels, hl, Tree.leaves, Token.label?_of_ne hk, Token.label?_of_ne ho,
        Token.label?_of_ne hc]
  | .reference opening name closing, h, hr => by
    cases h with
    | reference ho hn hc =>
      refine ⟨.reference name.text name.span, by rw [ofTree, Token.toName_of_name hn]; rfl, ?_⟩
      simp [labels, Tree.leaves, Token.label?_of_ne ho, Token.label?_of_ne hc,
        Token.label?_of_name hn]

theorem exists_ofTrees : ∀ trees : List Tree, DerivesAll trees →
    (∀ t ∈ Tree.leavesOfAll trees, t.Readable) →
    ∃ es, ofTrees trees = .ok es ∧
      labelsOfAll es = (Tree.leavesOfAll trees).filterMap Token.label?
  | [], h, hr => ⟨[], rfl, rfl⟩
  | tree :: trees, h, hr => by
    cases h with
    | cons ht hs =>
      obtain ⟨hrt, hrs⟩ := List.forall_mem_append.mp hr
      obtain ⟨e, he, hl⟩ := exists_ofTree tree ht hrt
      obtain ⟨es, hes, hls⟩ := exists_ofTrees trees hs hrs
      refine ⟨e :: es, by rw [ofTrees, he, hes]; rfl, ?_⟩
      rw [labelsOfAll, Tree.leavesOfAll, List.filterMap_append, hl, hls]

theorem exists_ofFields : ∀ (fields : List (Tree.Field Tree)) (first : Bool),
    DerivesFields first fields → (∀ t ∈ Tree.leavesOfFields fields, t.Readable) →
    ∃ bs, ofFields fields = .ok bs ∧
      labelsOfBindings bs = (Tree.leavesOfFields fields).filterMap Token.label?
  | [], first, h, hr => ⟨[], rfl, rfl⟩
  | ⟨comma, name, equals, value⟩ :: fields, first, h, hr => by
    cases h with
    | cons hc hn he hv hs =>
      simp only [Tree.leavesOfFields, List.forall_mem_append, List.forall_mem_cons] at hr
      obtain ⟨-, -, -, hrv, hrs⟩ := hr
      obtain ⟨e, hev, hl⟩ := exists_ofTree value hv hrv
      obtain ⟨bs, hbs, hls⟩ := exists_ofFields fields false hs hrs
      refine ⟨⟨name.text, name.span, e⟩ :: bs, ?_, ?_⟩
      · rw [ofFields, Token.toName_of_name hn, hev, hbs]
        rfl
      · have hcomma : comma.toList.filterMap Token.label? = [] := by
          cases comma with
          | none => rfl
          | some c =>
            have hck : c.kind = .comma := by
              cases first <;> simp_all
            simp [Token.label?_of_ne hck]
        rw [labelsOfBindings, Tree.leavesOfFields, List.filterMap_append, hcomma, hl, hls]
        simp [Token.label?_of_name hn, Token.label?_of_ne he]

end

end Expr

/-! ## Whole texts -/

def Tree.Item.IsDeclaration : Tree.Item → Prop
  | declaration .. => True
  | value _ => False

/-- A main value stands behind some items. -/
def Tree.HasMain (items : List Tree.Item) : Prop := ∃ before tree, items = before ++ [.value tree]

namespace Program

theorem mapM_toDeclaration (ds : List (Binding Expr)) :
    (ds.map Item.declaration).mapM Item.toDeclaration = .ok ds := by
  induction ds with
  | nil => rfl
  | cons d ds ih => rw [List.map_cons, List.mapM_cons, ih]; rfl

theorem ofItems_declarations (ds : List (Binding Expr)) :
    ofItems (ds.map .declaration) = .error .emptyProgram := by
  rw [ofItems, List.getLast?_map]
  cases ds.getLast? <;> rfl

theorem ofItems_program (p : Program) :
    ofItems (p.declarations.map .declaration ++ [.value p.main]) = .ok p := by
  rw [ofItems, List.getLast?_concat, List.dropLast_concat]
  dsimp only
  rw [mapM_toDeclaration]
  rfl

/-- The items that a derivation stands for: its declarations, and its main value if it has one. -/
theorem exists_mapM_ofTree {items : List Tree.Item} (h : Tree.Item.Derivation items)
    (hr : ∀ t ∈ Tree.Item.leavesOfAll items, t.Readable) :
    (∃ ds : List (Binding Expr), (∀ item ∈ items, item.IsDeclaration) ∧
        items.mapM Item.ofTree = .ok (ds.map .declaration)) ∨
      ∃ p : Program, Tree.HasMain items ∧
        items.mapM Item.ofTree = .ok (p.declarations.map .declaration ++ [.value p.main]) ∧
        p.labels = (Tree.Item.leavesOfAll items).filterMap Token.label? := by
  induction h with
  | nil => exact .inl ⟨[], by simp, rfl⟩
  | @main tree ht =>
    rw [Tree.Item.leavesOfAll_cons, Tree.Item.leavesOfAll_nil, List.append_nil] at hr ⊢
    obtain ⟨e, he, hl⟩ := Expr.exists_ofTree tree ht hr
    refine .inr ⟨⟨[], e⟩, ⟨[], tree, rfl⟩, ?_, hl⟩
    rw [List.mapM_cons, Item.ofTree, he]
    rfl
  | @declaration name isWord tree items hn hw ht hs ih =>
    rw [Tree.Item.leavesOfAll_cons] at hr ⊢
    obtain ⟨hitem, hitems⟩ := List.forall_mem_append.mp hr
    obtain ⟨e, he, hl⟩ :=
      Expr.exists_ofTree tree ht fun t hm => hitem t (by simp [Tree.Item.leaves, hm])
    have hd : Item.ofTree (.declaration name isWord tree) =
        .ok (.declaration ⟨name.text, name.span, e⟩) := by
      rw [Item.ofTree, Token.toName_of_name hn, he]
      rfl
    rcases ih hitems with ⟨ds, hall, hds⟩ | ⟨p, ⟨before, main, rfl⟩, hp, hlabels⟩
    · refine .inl ⟨⟨name.text, name.span, e⟩ :: ds, List.forall_mem_cons.mpr ⟨trivial, hall⟩, ?_⟩
      rw [List.mapM_cons, hd, hds]
      rfl
    · refine .inr ⟨⟨⟨name.text, name.span, e⟩ :: p.declarations, p.main⟩,
        ⟨.declaration name isWord tree :: before, main, rfl⟩, ?_, ?_⟩
      · rw [List.mapM_cons, hd, hp]
        rfl
      · rw [List.filterMap_append, ← hlabels]
        simp [labels, Expr.labelsOfBindings, Tree.Item.leaves, hl, Token.label?_of_name hn,
          Token.label?_of_ne hw]

/-- **A derivation stands for a program** with the names of the derivation, unless it has
declarations only. -/
theorem ofTrees_of_derivation {items : List Tree.Item} (h : Tree.Item.Derivation items)
    (hr : ∀ t ∈ Tree.Item.leavesOfAll items, t.Readable) :
    (∀ item ∈ items, item.IsDeclaration) ∧ ofTrees items = .error .emptyProgram ∨
      Tree.HasMain items ∧ ∃ p, ofTrees items = .ok p ∧
        p.labels = (Tree.Item.leavesOfAll items).filterMap Token.label? := by
  rcases exists_mapM_ofTree h hr with ⟨ds, hall, hds⟩ | ⟨p, hmain, hp, hl⟩
  · refine .inl ⟨hall, ?_⟩
    rw [ofTrees, hds]
    exact ofItems_declarations ds
  · refine .inr ⟨hmain, p, ?_, hl⟩
    rw [ofTrees, hp]
    exact ofItems_program p

end Program

end ConstLang
