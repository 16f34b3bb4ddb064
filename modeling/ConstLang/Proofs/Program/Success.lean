/-
When trees stand for a program, and for which: for each kind of tree, for a list of elements or of
fields, for an item and for all items, what their parts must have stood for. Items are a program
exactly if they are declarations with one value behind them, `ofItems_eq_ok_iff`. Further theorems
on building programs use these and leave the definitions closed.
-/
import ConstLang.Proofs.Outcome
import ConstLang.Proofs.Program.FromTree

namespace ConstLang

namespace Token

variable {t : Token}

theorem toName_eq_ok_iff {name : String} : t.toName = .ok name ↔ t.kind = .name ∧ t.text = name := by
  unfold toName
  split
  · next hk => simp [hk]
  · next hk => simp [hk]

theorem toNumber_eq_ok_iff {x : Binary64} :
    t.toNumber = .ok x ↔ t.kind = .number ∧ Numeral.read t.text = .ok x := by
  unfold toNumber
  split
  · next hk => rw [mapError_eq_ok_iff, and_iff_right hk]
  · next hk => simp [hk]

end Token

namespace Expr

variable {e : Expr}

theorem ofTree_number_eq_ok_iff {token : Token} :
    ofTree (.number token) = .ok e ↔ ∃ x, token.toNumber = .ok x ∧ .number x = e := by
  simp only [ofTree, bind_eq_ok_iff, pure_eq_ok_iff]

theorem ofTree_array_eq_ok_iff {opening closing : Token} {elements : List Tree} :
    ofTree (.array opening elements closing) = .ok e ↔
      elements ≠ [] ∧ ∃ es, ofTrees elements = .ok es ∧ .array es = e := by
  cases elements with
  | nil => simp [ofTree]
  | cons tree trees =>
    rw [ofTree_array opening closing (List.cons_ne_nil tree trees)]
    cases ofTrees (tree :: trees) <;> simp [Except.map]

theorem ofTree_struct_eq_ok_iff {keyword opening closing : Token} {fields : List (Tree.Field Tree)} :
    ofTree (.struct keyword opening fields closing) = .ok e ↔
      ∃ bs, ofFields fields = .ok bs ∧ .struct bs = e := by
  simp only [ofTree, bind_eq_ok_iff, pure_eq_ok_iff]

theorem ofTree_reference_eq_ok_iff {opening name closing : Token} :
    ofTree (.reference opening name closing) = .ok e ↔
      ∃ label, name.toName = .ok label ∧ .reference label name.span = e := by
  simp only [ofTree, bind_eq_ok_iff, pure_eq_ok_iff]

theorem ofTrees_cons_eq_ok_iff {tree : Tree} {trees : List Tree} {es : List Expr} :
    ofTrees (tree :: trees) = .ok es ↔
      ∃ e, ofTree tree = .ok e ∧ ∃ es', ofTrees trees = .ok es' ∧ e :: es' = es := by
  simp only [ofTrees, bind_eq_ok_iff, pure_eq_ok_iff]

theorem ofFields_cons_eq_ok_iff {comma : Option Token} {name equals : Token} {value : Tree}
    {fields : List (Tree.Field Tree)} {bs : List (Binding Expr)} :
    ofFields (⟨comma, name, equals, value⟩ :: fields) = .ok bs ↔
      ∃ label, name.toName = .ok label ∧ ∃ e, ofTree value = .ok e ∧
        ∃ bs', ofFields fields = .ok bs' ∧ ⟨label, name.span, e⟩ :: bs' = bs := by
  simp only [ofFields, bind_eq_ok_iff, pure_eq_ok_iff]

end Expr

namespace Program

theorem Item.ofTree_declaration_eq_ok_iff {name isWord : Token} {tree : Tree} {i : Item} :
    ofTree (.declaration name isWord tree) = .ok i ↔
      ∃ label, name.toName = .ok label ∧ ∃ e, Expr.ofTree tree = .ok e ∧
        .declaration ⟨label, name.span, e⟩ = i := by
  simp only [ofTree, bind_eq_ok_iff, pure_eq_ok_iff]

theorem Item.ofTree_value_eq_ok_iff {tree : Tree} {i : Item} :
    ofTree (.value tree) = .ok i ↔ ∃ e, Expr.ofTree tree = .ok e ∧ .value e = i := by
  simp only [ofTree, bind_eq_ok_iff, pure_eq_ok_iff]

theorem mapM_toDeclaration_eq_ok_iff {items : List Item} {ds : List (Binding Expr)} :
    items.mapM Item.toDeclaration = .ok ds ↔ items = ds.map .declaration := by
  refine ⟨fun h => ?_, fun h => h ▸ mapM_toDeclaration ds⟩
  induction items generalizing ds with
  | nil =>
    cases h
    rfl
  | cons item items ih =>
    simp only [List.mapM_cons, bind_eq_ok_iff, pure_eq_ok_iff] at h
    obtain ⟨d, hd, ds, hds, rfl⟩ := h
    cases item with
    | value e => cases hd
    | declaration d =>
      cases hd
      rw [ih hds, List.map_cons]

/-- **Items are a program** if they are its declarations and, behind them, its main value. -/
theorem ofItems_eq_ok_iff {items : List Item} {p : Program} :
    ofItems items = .ok p ↔ items = p.declarations.map .declaration ++ [.value p.main] := by
  refine ⟨fun h => ?_, fun h => h ▸ ofItems_program p⟩
  rcases List.eq_nil_or_concat items with rfl | ⟨before, last, rfl⟩
  · cases h
  · rw [List.concat_eq_append] at h ⊢
    rw [ofItems, List.getLast?_concat, List.dropLast_concat] at h
    cases last with
    | declaration d => cases h
    | value main =>
      dsimp only at h
      simp only [bind_eq_ok_iff, pure_eq_ok_iff] at h
      obtain ⟨ds, hds, rfl⟩ := h
      rw [mapM_toDeclaration_eq_ok_iff.mp hds]

theorem ofTrees_eq_ok_iff {items : List Tree.Item} {p : Program} :
    ofTrees items = .ok p ↔
      items.mapM Item.ofTree = .ok (p.declarations.map .declaration ++ [.value p.main]) := by
  simp only [ofTrees, bind_eq_ok_iff, ofItems_eq_ok_iff, exists_eq_right]

end Program

end ConstLang
