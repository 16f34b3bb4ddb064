/-
The nesting limit and later stages. Of a text, each value is nested in 256 levels at most, but what
the text comes to keeps to the limit only if that is so with its references written out,
`compile_depth_le_iff`. In a tower every declaration puts arrays around the constant declared before
it, and their depths add up (`Program.exists_evaluate_tower`). So 256 levels for each declaration
and for the main value are a bound on the depth of compiled values, and the least one,
`compile_depth`; no number bounds the depth, and with it the calls of the writer, for all texts.
Two expressions are enough to pass the limit, `compile_deeper_than_limit`.
-/
import ConstLang.Proofs.Evaluation.Depth
import ConstLang.Proofs.Json.Recursion
import ConstLang.Proofs.Printing

namespace ConstLang

/-! ## Arrays around something -/

/-- A tree in arrays of one element, one inside the other. -/
def Tree.nest : Nat → Tree → Tree
  | 0, tree => tree
  | n + 1, tree => .array ⟨.openBracket, "[", {}⟩ [tree.nest n] ⟨.closeBracket, "]", {}⟩

def Expr.nest : Nat → Expr → Expr
  | 0, e => e
  | n + 1, e => .array [e.nest n]

def Value.nest : Nat → Value → Value
  | 0, v => v
  | n + 1, v => .array [v.nest n]

namespace Tree

variable {tree : Tree}

theorem derives_nest (h : tree.Derives) (n : Nat) : (nest n tree).Derives := by
  induction n with
  | zero => exact h
  | succ n ih => exact .array rfl (List.cons_ne_nil _ _) (.cons ih .nil) rfl

theorem depth_nest (n : Nat) : (nest n tree).depth = tree.depth + n := by
  induction n with
  | zero => rfl
  | succ n ih =>
    rw [nest, depth, depthOfAll, depthOfAll, ih]
    omega

theorem leaves_nest (n : Nat) :
    (nest n tree).leaves = List.replicate n ⟨.openBracket, "[", {}⟩ ++
      (tree.leaves ++ List.replicate n ⟨.closeBracket, "]", {}⟩) := by
  induction n with
  | zero => simp [nest]
  | succ n ih =>
    rw [nest, leaves, leavesOfAll, leavesOfAll, ih, List.replicate_succ, List.replicate_succ']
    simp

theorem ofTree_nest {e : Expr} (h : Expr.ofTree tree = .ok e) (n : Nat) :
    Expr.ofTree (nest n tree) = .ok (e.nest n) := by
  induction n with
  | zero => exact h
  | succ n ih =>
    rw [nest, Expr.ofTree, ih]
    rfl

end Tree

theorem Expr.resolve_nest {options : Options} {constants : Table Value} {e : Expr} {v : Value}
    (h : e.resolve options constants = .ok v) (n : Nat) :
    (e.nest n).resolve options constants = .ok (v.nest n) := by
  induction n with
  | zero => exact h
  | succ n ih =>
    rw [nest, resolve, resolveAll, ih]
    rfl

namespace Value

theorem nest_nest (m n : Nat) (v : Value) : (v.nest n).nest m = v.nest (n + m) := by
  induction m with
  | zero => rfl
  | succ m ih => rw [nest, ih, ← Nat.add_assoc, nest]

theorem depth_nest (n : Nat) (v : Value) : (v.nest n).depth = v.depth + n := by
  induction n with
  | zero => rfl
  | succ n ih =>
    rw [nest, depth, depthOfAll, depthOfAll, ih]
    omega

theorem callDepth_nest (n : Nat) (v : Value) :
    Json.callDepth (v.nest n) = Json.callDepth v + n := by
  induction n with
  | zero => rfl
  | succ n ih =>
    rw [nest, Json.callDepth, Json.callDepthOfAll, Json.callDepthOfAll, ih]
    omega

end Value

/-! ## Towers -/

/-- Names of one letter, of two, and so on. -/
def numberedName (i : Nat) : String := .ofList (List.replicate (i + 1) 'x')

def Token.numbered (i : Nat) : Token := ⟨.name, numberedName i, {}⟩

/-- What refers to the name with a number. -/
def Tree.numbered (i : Nat) : Tree :=
  .reference ⟨.openReference, "!(", {}⟩ (.numbered i) ⟨.closeReference, ")", {}⟩

/-- A declaration for each height, and a main value of the height `top`: the arrays of the first one
stand around `inner`, those of each later one around the constant before it. -/
def Tree.Item.tower (top : Nat) : Nat → Tree → List Nat → List Tree.Item
  | _, inner, [] => [.value (inner.nest top)]
  | i, inner, height :: heights =>
    .declaration (.numbered i) ⟨.isWord, "is", {}⟩ (inner.nest height) ::
      tower top (i + 1) (.numbered i) heights

def Program.tower (top : Nat) : Nat → Expr → List Nat → Program
  | _, inner, [] => ⟨[], inner.nest top⟩
  | i, inner, height :: heights =>
    let p := tower top (i + 1) (.reference (numberedName i) {}) heights
    ⟨⟨numberedName i, {}, inner.nest height⟩ :: p.declarations, p.main⟩

theorem length_numberedName (i : Nat) : (numberedName i).length = i + 1 := by
  rw [numberedName, String.length_ofList, List.length_replicate]

namespace Tree.Item

variable {top i : Nat} {inner : Tree} {heights : List Nat}

theorem derivation_tower (h : inner.Derives) : Derivation (tower top i inner heights) := by
  induction heights generalizing i inner with
  | nil => exact .main (derives_nest h top)
  | cons height heights ih =>
    exact .declaration rfl rfl (derives_nest h height) (ih (.reference rfl rfl rfl))

theorem depth_tower {limit : Nat} (hi : inner.depth = 0) (ht : top ≤ limit)
    (hh : ∀ height ∈ heights, height ≤ limit) :
    ∀ item ∈ tower top i inner heights, item.depth ≤ limit := by
  induction heights generalizing i inner with
  | nil =>
    refine List.forall_mem_singleton.mpr ?_
    rwa [depth, depth_nest, hi, Nat.zero_add]
  | cons height heights ih =>
    obtain ⟨hheight, hheights⟩ := List.forall_mem_cons.mp hh
    refine List.forall_mem_cons.mpr ⟨?_, ih rfl hheights⟩
    rwa [depth, depth_nest, hi, Nat.zero_add]

theorem allSpelled_nest (h : AllSpelled inner.leaves) (n : Nat) :
    AllSpelled (inner.nest n).leaves := by
  rw [leaves_nest]
  refine List.forall_mem_append.mpr ⟨fun t hm => ?_, List.forall_mem_append.mpr ⟨h, fun t hm => ?_⟩⟩
  · obtain rfl := List.eq_of_mem_replicate hm
    exact .openBracket
  · obtain rfl := List.eq_of_mem_replicate hm
    exact .closeBracket

theorem spells_numbered (i : Nat) :
    Lexeme.Spells .name (Token.numbered i).text.toList := by
  have htext : (Token.numbered i).text.toList = List.replicate (i + 1) 'x' := String.toList_ofList
  rw [htext]
  refine .name (List.cons_ne_nil _ _) (fun c hm => ?_) (fun h => ?_) (fun h => ?_)
  · obtain rfl := List.eq_of_mem_replicate hm
    rfl
  · cases (List.cons.inj h).1
  · cases (List.cons.inj h).1

theorem allSpelled_tower (h : AllSpelled inner.leaves) :
    AllSpelled (leavesOfAll (tower top i inner heights)) := by
  induction heights generalizing i inner with
  | nil => simpa [tower, leavesOfAll, leaves] using allSpelled_nest h top
  | cons height heights ih =>
    have hreference : AllSpelled (numbered i).leaves := by
      refine List.forall_mem_cons.mpr ⟨.openReference, List.forall_mem_cons.mpr ⟨?_, ?_⟩⟩
      · exact spells_numbered i
      · exact List.forall_mem_singleton.mpr .closeReference
    refine List.forall_mem_append.mpr ⟨?_, ih hreference⟩
    exact List.forall_mem_cons.mpr ⟨spells_numbered i,
      List.forall_mem_cons.mpr ⟨.isWord, allSpelled_nest h height⟩⟩

end Tree.Item

namespace Program

variable {top i : Nat}

theorem mapM_ofTree_tower {inner : Tree} {e : Expr} (h : Expr.ofTree inner = .ok e)
    (heights : List Nat) :
    (Tree.Item.tower top i inner heights).mapM Item.ofTree =
      .ok ((tower top i e heights).declarations.map .declaration ++
        [.value (tower top i e heights).main]) := by
  induction heights generalizing i inner e with
  | nil =>
    rw [Tree.Item.tower, List.mapM_cons, Item.ofTree, Tree.ofTree_nest h]
    rfl
  | cons height heights ih =>
    have hreference : Expr.ofTree (.numbered i) = .ok (.reference (numberedName i) {}) := rfl
    rw [Tree.Item.tower, List.mapM_cons, Item.ofTree, Tree.ofTree_nest h, ih hreference]
    rfl

theorem ofTrees_tower {inner : Tree} {e : Expr} (h : Expr.ofTree inner = .ok e)
    (heights : List Nat) :
    ofTrees (Tree.Item.tower top i inner heights) = .ok (tower top i e heights) := by
  rw [ofTrees, mapM_ofTree_tower h]
  exact ofItems_program _

theorem length_declarations_tower (e : Expr) (heights : List Nat) :
    (tower top i e heights).declarations.length = heights.length := by
  induction heights generalizing i e with
  | nil => rfl
  | cons height heights ih => rw [tower, List.length_cons, List.length_cons, ih]

/-- **A tower is as high as all of it together**, in strict evaluation as well: no name is
declared twice. -/
theorem exists_evaluate_tower {options : Options} {e : Expr} {v : Value} {constants : Table Value}
    (h : e.resolve options constants = .ok v) (hk : ∀ key ∈ constants.keys, key.length ≤ i)
    (heights : List Nat) :
    ∃ after, (tower top i e heights).declarations.foldlM (declare options) constants = .ok after ∧
      (tower top i e heights).main.resolve options after = .ok (v.nest (heights.sum + top)) := by
  induction heights generalizing i e v constants with
  | nil =>
    refine ⟨constants, rfl, ?_⟩
    rw [List.sum_nil, Nat.zero_add]
    exact Expr.resolve_nest h top
  | cons height heights ih =>
    have hnew : numberedName i ∉ constants.keys := by
      intro hm
      have hle := hk _ hm
      rw [length_numberedName] at hle
      omega
    have hdeclare : declare options constants ⟨numberedName i, {}, e.nest height⟩ =
        .ok (constants.insert (numberedName i) (v.nest height)) := by
      refine declare_eq_ok_iff.mpr ⟨_, Expr.resolve_nest h height, ?_, rfl⟩
      rw [Table.contains_eq_false_iff.mpr hnew, Bool.and_false]
    have hreference : (Expr.reference (numberedName i) {}).resolve options
        (constants.insert (numberedName i) (v.nest height)) = .ok (v.nest height) :=
      Expr.resolve_reference_eq_ok_iff.mpr (Table.get?_insert_self _ _ _)
    have hkeys : ∀ key ∈ (constants.insert (numberedName i) (v.nest height)).keys,
        key.length ≤ i + 1 := by
      intro key hm
      rcases Table.mem_keys_insert_iff.mp hm with hm | rfl
      · exact Nat.le_succ_of_le (hk key hm)
      · exact Nat.le_of_eq (length_numberedName i)
    obtain ⟨after, hafter, hvalue⟩ := ih hreference hkeys
    refine ⟨after, ?_, ?_⟩
    · rw [tower, List.foldlM_cons, hdeclare]
      exact hafter
    · rw [tower, hvalue, Value.nest_nest, List.sum_cons, Nat.add_assoc]

end Program

/-! ## Texts of towers -/

/-- The number in the middle of a tower. -/
def Tree.one : Tree := .number ⟨.number, "1.0", {}⟩

theorem Tree.allSpelled_one : AllSpelled one.leaves := by
  have hwhole : ∀ c ∈ ['1'], c.isDigit := List.forall_mem_singleton.mpr rfl
  have hfraction : ∀ c ∈ ['0'], c.isDigit := List.forall_mem_singleton.mpr rfl
  exact List.forall_mem_singleton.mpr (.number hwhole (List.cons_ne_nil _ _) hfraction)

theorem Tree.exists_ofTree_one : ∃ x, Expr.ofTree one = .ok (.number x) := by
  have hwhole : Numeral.AllDigits ['1'] := List.forall_mem_singleton.mpr rfl
  have hfraction : Numeral.AllDigits ['0'] := List.forall_mem_singleton.mpr rfl
  have hread := Numeral.read_pointed hwhole hfraction (List.cons_ne_nil _ _)
  have hreadable : Token.Readable ⟨.number, "1.0", {}⟩ := fun _ => ⟨_, hread⟩
  obtain ⟨x, hx⟩ := hreadable.exists_toNumber rfl
  exact ⟨x, by rw [one, Expr.ofTree, hx]; rfl⟩

/-- The text of a tower around a number. -/
def towerText (top : Nat) (heights : List Nat) : String :=
  Tree.Item.print (Tree.Item.tower top 0 .one heights)

/-- **A tower of no more than 256 levels at a time** compiles, to all of its levels. -/
theorem exists_compile_tower {top : Nat} {heights : List Nat} (ht : top ≤ 256)
    (hh : ∀ height ∈ heights, height ≤ 256) :
    ∃ p x, Program.ofText (towerText top heights) = .ok p ∧
      p.declarations.length = heights.length ∧
      ∀ options, ∃ e, compile options (towerText top heights) = .ok e ∧
        e.value = (Value.number x).nest (heights.sum + top) := by
  obtain ⟨x, hx⟩ := Tree.exists_ofTree_one
  obtain ⟨p, hp, hplaces⟩ : ∃ p, Program.ofText (towerText top heights) = .ok p ∧
      p.relocate .forget = (Program.tower top 0 (.number x) heights).relocate .forget :=
    exists_ofText_print (Tree.Item.derivation_tower (.number rfl))
      (Tree.Item.allSpelled_tower Tree.allSpelled_one) (Tree.Item.depth_tower rfl ht hh)
      (Program.ofTrees_tower hx heights)
  refine ⟨p, x, hp, ?_, fun options => ?_⟩
  · have hlength := congrArg (fun q : Program => q.declarations.length) hplaces
    simp only [Program.relocate, List.length_map] at hlength
    rw [hlength, Program.length_declarations_tower]
  · have hnumber : (Expr.number x).resolve options {} = .ok (.number x) := rfl
    obtain ⟨after, hafter, hvalue⟩ : ∃ after,
        (Program.tower top 0 (.number x) heights).declarations.foldlM (Program.declare options) {} =
          .ok after ∧
        (Program.tower top 0 (.number x) heights).main.resolve options after =
          .ok ((Value.number x).nest (heights.sum + top)) :=
      Program.exists_evaluate_tower hnumber (by simp [Table.keys]) heights
    have hevaluate : (Program.tower top 0 (.number x) heights).evaluate options =
        .ok ⟨(Value.number x).nest (heights.sum + top), after⟩ :=
      Program.evaluate_eq_ok_iff.mpr ⟨hafter, hvalue⟩
    have hcompile := ((sameOutcome_of_relocate hplaces options).value _).mp hevaluate
    exact ⟨_, by rw [compile, hp]; exact hcompile, rfl⟩

/-! ## The depth of compiled values -/

theorem Json.writeWithin_toJson (v : Value) (layout : Layout) (calls : Nat) :
    writeWithin layout calls 0 v [] =
      if callDepth v ≤ calls then some (v.toJson layout).toList else none := by
  rw [writeWithin_eq, Value.toJson, String.toList_ofList]

/-- **Where the limit holds of compiled values.** They keep to it exactly if the main value and the
constants do with the references written out, and then the writer needs no more than one call for
each of 256 levels and one. -/
theorem compile_depth_le_iff {options : Options} {text : String} {e : Evaluation}
    (h : compile options text = .ok e) :
    ∃ p, Program.ofText text = .ok p ∧
      ((e.value.depth ≤ 256 ∧ ∀ c ∈ e.constants.entries, c.2.depth ≤ 256) ↔ p.UnfoldsWithin 256) ∧
      (p.UnfoldsWithin 256 → ∀ v, v = e.value ∨ v ∈ e.constants.entries.map Prod.snd →
        ∀ layout, Json.writeWithin layout (256 + 1) 0 v [] = some (v.toJson layout).toList) := by
  obtain ⟨p, hp, he⟩ := bind_eq_ok_iff.mp h
  have hiff := Program.depth_evaluate_le_iff he 256
  refine ⟨p, hp, hiff, fun hwithin v hv layout => ?_⟩
  obtain ⟨hvalue, hconstants⟩ := hiff.mpr hwithin
  have hdepth : v.depth ≤ 256 := by
    rcases hv with rfl | hm
    · exact hvalue
    · obtain ⟨c, hc, rfl⟩ := List.mem_map.mp hm
      exact hconstants c hc
  rw [Json.writeWithin_toJson, if_pos]
  exact Nat.le_trans (Json.callDepth_le v) (Nat.succ_le_succ hdepth)

/-- The reference in the field that is replaced does not count. -/
theorem compile_replaced_within : ∃ e p,
    compile {} "x is [.5] struct \x7bk = [[!(x)]], k = !(x)\x7d" = .ok e ∧
    Program.ofText "x is [.5] struct \x7bk = [[!(x)]], k = !(x)\x7d" = .ok p ∧
    p.UnfoldsWithin 256 ∧
    ∀ layout, Json.writeWithin layout (256 + 1) 0 e.value [] = some (e.value.toJson layout).toList := by
  have hdepth : (compile {} "x is [.5] struct \x7bk = [[!(x)]], k = !(x)\x7d").map
      (fun e => (e.value.depth, e.constants.entries.map (·.2.depth))) = .ok (2, [1]) := by
    decide +kernel
  cases h : compile {} "x is [.5] struct \x7bk = [[!(x)]], k = !(x)\x7d" with
  | error e =>
    rw [h] at hdepth
    cases hdepth
  | ok e =>
    rw [h] at hdepth
    obtain ⟨hvalue, hconstants⟩ := Prod.mk.inj (Except.ok.inj hdepth)
    obtain ⟨p, hp, hiff, hwrite⟩ := compile_depth_le_iff h
    have hwithin : p.UnfoldsWithin 256 := by
      refine hiff.mp ⟨hvalue ▸ by decide, fun c hm => ?_⟩
      have hm : c.2.depth ∈ [1] := hconstants ▸ List.mem_map_of_mem hm
      rw [List.mem_singleton.mp hm]
      decide
    exact ⟨e, p, rfl, hp, hwithin, hwrite hwithin e.value (.inl rfl)⟩

/-- **How deep compiled values are.** With 256 levels for each declaration and for the main value,
the depth of a value and the calls of the writer are bounded; the constants need none for the
main value. For every number of declarations there is a text that attains the bound in both kinds
of evaluation, and whose value the writer cannot write with as many calls as it has levels. -/
theorem compile_depth :
    (∀ options text e, compile options text = .ok e →
      ∃ p, Program.ofText text = .ok p ∧
        e.value.depth ≤ 256 * (p.declarations.length + 1) ∧
        (∀ c ∈ e.constants.entries, c.2.depth ≤ 256 * p.declarations.length) ∧
        ∀ layout, Json.writeWithin layout (256 * (p.declarations.length + 1) + 1) 0 e.value [] =
          some (e.value.toJson layout).toList) ∧
    ∀ n, ∃ text p, Program.ofText text = .ok p ∧ p.declarations.length = n ∧
      ∀ options, ∃ e, compile options text = .ok e ∧ e.value.depth = 256 * (n + 1) ∧
        ∀ layout, Json.writeWithin layout (256 * (n + 1)) 0 e.value [] = none := by
  constructor
  · intro options text e h
    obtain ⟨p, hp, he⟩ := bind_eq_ok_iff.mp h
    obtain ⟨hvalue, hconstants⟩ := Program.depth_evaluate he
    obtain ⟨hmain, hconstant⟩ := (Program.within_ofText hp).unfoldedDepth_le
    rw [← hvalue] at hmain
    refine ⟨p, hp, hmain, fun c hm => hconstants c hm ▸ hconstant c.1, fun layout => ?_⟩
    rw [Json.writeWithin_toJson, if_pos]
    exact Nat.le_trans (Json.callDepth_le e.value) (Nat.succ_le_succ hmain)
  · intro n
    have hheights : ∀ height ∈ List.replicate n 256, height ≤ 256 :=
      fun height hm => Nat.le_of_eq (List.eq_of_mem_replicate hm)
    obtain ⟨p, x, hp, hlength, hcompile⟩ := exists_compile_tower (Nat.le_refl 256) hheights
    refine ⟨_, p, hp, hlength.trans List.length_replicate, fun options => ?_⟩
    obtain ⟨e, he, hvalue⟩ := hcompile options
    have hsum : (List.replicate n 256).sum + 256 = 256 * (n + 1) := by
      rw [List.sum_replicate_nat]
      omega
    rw [hsum] at hvalue
    refine ⟨e, he, ?_, fun layout => ?_⟩
    · rw [hvalue, Value.depth_nest, Value.depth, Nat.zero_add]
    · rw [Json.writeWithin_toJson, hvalue, Value.callDepth_nest, Json.callDepth, if_neg]
      omega

/-- A constant of some levels, in an array of its own. -/
theorem towerText_one (height : Nat) :
    towerText 1 [height] = .ofList ("x is ".toList ++ ((List.replicate height ['[', ' ']).flatten ++
      ("1.0 ".toList ++ ((List.replicate height [']', ' ']).flatten ++ "[ !( x ) ] ".toList)))) := by
  have hleaves : Tree.Item.leavesOfAll (Tree.Item.tower 1 0 .one [height]) =
      [.numbered 0, ⟨.isWord, "is", {}⟩] ++ (List.replicate height ⟨.openBracket, "[", {}⟩ ++
        (Tree.one.leaves ++ (List.replicate height ⟨.closeBracket, "]", {}⟩ ++
          ((Tree.numbered 0).nest 1).leaves))) := by
    simp [Tree.Item.tower, Tree.Item.leaves, Tree.leaves_nest]
  rw [towerText, Tree.Item.print, Tree.Item.spellOut_spaced, hleaves]
  simp only [List.flatMap_append, List.flatMap_replicate]
  rfl

/-- **The limit is passed** by two expressions that keep to it: a constant of 256 levels, and an array
with a reference to it. The writer needs more calls than one for each of 256 levels and one. -/
theorem compile_deeper_than_limit :
    ∃ e, compile {} (.ofList ("x is ".toList ++ ((List.replicate 256 ['[', ' ']).flatten ++
        ("1.0 ".toList ++ ((List.replicate 256 [']', ' ']).flatten ++ "[ !( x ) ] ".toList))))) =
          .ok e ∧
      ¬ e.value.depth ≤ 256 ∧ ∀ layout, Json.writeWithin layout (256 + 1) 0 e.value [] = none := by
  have hheights : ∀ height ∈ [256], height ≤ 256 := List.forall_mem_singleton.mpr (Nat.le_refl 256)
  obtain ⟨p, x, -, -, hcompile⟩ := exists_compile_tower (Nat.le_add_left 1 255) hheights
  obtain ⟨e, he, hvalue⟩ := hcompile {}
  rw [towerText_one] at he
  refine ⟨e, he, ?_, fun layout => ?_⟩
  · rw [hvalue, Value.depth_nest, Value.depth]
    decide
  · rw [Json.writeWithin_toJson, hvalue, Value.callDepth_nest, Json.callDepth]
    rfl

end ConstLang
