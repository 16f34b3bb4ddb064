/-
How deep evaluation nests. The limit of the parser holds for each value that is written in a text.
A reference puts the value of a constant below further arrays and structs: a value is as deep as its
expression is with the references written out, `Expr.depth_resolve`. So depths add up over the
declarations of a program, and its value is at most as many times as deep as the expressions of the
program as there are of them, `Program.Within.unfoldedDepth_le`.
-/
import ConstLang.Proofs.Compilation
import ConstLang.Proofs.Evaluation.Strictness
import ConstLang.Proofs.Program.Success

namespace ConstLang

/-! ## Expressions of trees -/

namespace Expr

mutual

/-- The number of arrays and structs that are open at once on the deepest path. -/
def depth : Expr → Nat
  | number _ | reference .. => 0
  | array elements => depthOfAll elements + 1
  | struct fields => depthOfBindings fields + 1

def depthOfAll : List Expr → Nat
  | [] => 0
  | e :: es => max e.depth (depthOfAll es)

def depthOfBindings : List (Binding Expr) → Nat
  | [] => 0
  | ⟨_, _, e⟩ :: bindings => max e.depth (depthOfBindings bindings)

end

mutual

theorem depth_ofTree : ∀ (tree : Tree) {e : Expr}, ofTree tree = .ok e → e.depth = tree.depth
  | .number token, e, h => by
    obtain ⟨x, -, rfl⟩ := ofTree_number_eq_ok_iff.mp h
    rfl
  | .array opening elements closing, e, h => by
    obtain ⟨-, es, hes, rfl⟩ := ofTree_array_eq_ok_iff.mp h
    rw [depth, depthOfAll_ofTrees elements hes, Tree.depth]
  | .struct keyword opening fields closing, e, h => by
    obtain ⟨bs, hbs, rfl⟩ := ofTree_struct_eq_ok_iff.mp h
    rw [depth, depthOfBindings_ofFields fields hbs, Tree.depth]
  | .reference opening name closing, e, h => by
    obtain ⟨label, -, rfl⟩ := ofTree_reference_eq_ok_iff.mp h
    rfl

theorem depthOfAll_ofTrees : ∀ (trees : List Tree) {es : List Expr}, ofTrees trees = .ok es →
    depthOfAll es = Tree.depthOfAll trees
  | [], es, h => by
    cases h
    rfl
  | tree :: trees, es, h => by
    obtain ⟨e, he, es', hes, rfl⟩ := ofTrees_cons_eq_ok_iff.mp h
    rw [depthOfAll, depth_ofTree tree he, depthOfAll_ofTrees trees hes, Tree.depthOfAll]

theorem depthOfBindings_ofFields : ∀ (fields : List (Tree.Field Tree)) {bs : List (Binding Expr)},
    ofFields fields = .ok bs → depthOfBindings bs = Tree.depthOfFields fields
  | [], bs, h => by
    cases h
    rfl
  | ⟨comma, name, equals, value⟩ :: fields, bs, h => by
    obtain ⟨label, -, e, he, bs', hbs, rfl⟩ := ofFields_cons_eq_ok_iff.mp h
    rw [depthOfBindings, depth_ofTree value he, depthOfBindings_ofFields fields hbs,
      Tree.depthOfFields]

end

end Expr

/-- The expressions of a program are as deep as `limit` at most. -/
structure Program.Within (limit : Nat) (p : Program) : Prop where
  declarations : ∀ d ∈ p.declarations, d.value.depth ≤ limit
  main : p.main.depth ≤ limit

namespace Program

def Item.depth : Item → Nat
  | declaration d => d.value.depth
  | value e => e.depth

theorem Item.depth_ofTree {item : Tree.Item} {i : Item} (h : ofTree item = .ok i) :
    i.depth = item.depth := by
  cases item with
  | declaration name isWord tree =>
    obtain ⟨label, -, e, he, rfl⟩ := Item.ofTree_declaration_eq_ok_iff.mp h
    exact Expr.depth_ofTree tree he
  | value tree =>
    obtain ⟨e, he, rfl⟩ := Item.ofTree_value_eq_ok_iff.mp h
    exact Expr.depth_ofTree tree he

theorem within_ofTrees {limit : Nat} {items : List Tree.Item} {p : Program}
    (h : ofTrees items = .ok p) (hd : ∀ item ∈ items, item.depth ≤ limit) : p.Within limit := by
  have hdepth := forall_mem_of_mapM (P := fun i => i.depth ≤ limit) (ofTrees_eq_ok_iff.mp h)
    fun item hm i hi => Item.depth_ofTree hi ▸ hd item hm
  rw [List.forall_mem_append, List.forall_mem_map, List.forall_mem_singleton] at hdepth
  exact ⟨hdepth.1, hdepth.2⟩

/-- The limit of the parser holds for each expression of a text. -/
theorem within_ofText {text : String} {p : Program} (h : ofText text = .ok p) :
    p.Within Reader.maxDepth := by
  obtain ⟨items, hparse, hp⟩ := ofText_eq_ok_iff.mp h
  obtain ⟨last, -, hr⟩ := Tree.ofStream_eq_ok_iff.mp hparse
  exact within_ofTrees hp (Reader.run_finish_iff.mp hr).2.2

end Program

/-! ## References written out -/

namespace Expr

mutual

/-- The depth of an expression with its references written out, given how deep the constants are.
A field that gives way to a later one of its name does not count. -/
def unfoldedDepth (depths : String → Nat) : Expr → Nat
  | number _ => 0
  | array elements => unfoldedDepthOfAll depths elements + 1
  | struct fields => unfoldedDepthOfFields depths fields + 1
  | reference name _ => depths name

def unfoldedDepthOfAll (depths : String → Nat) : List Expr → Nat
  | [] => 0
  | e :: es => max (e.unfoldedDepth depths) (unfoldedDepthOfAll depths es)

def unfoldedDepthOfFields (depths : String → Nat) : List (Binding Expr) → Nat
  | [] => 0
  | ⟨name, _, e⟩ :: fields =>
    if name ∈ fields.map Binding.name then unfoldedDepthOfFields depths fields
    else max (e.unfoldedDepth depths) (unfoldedDepthOfFields depths fields)

end

variable {depths : String → Nat} {n : Nat}

mutual

/-- A reference is as deep as a constant at most, and stands in what is written around it. -/
theorem unfoldedDepth_le (hn : ∀ name, depths name ≤ n) :
    ∀ e : Expr, e.unfoldedDepth depths ≤ e.depth + n
  | .number _ => Nat.zero_le _
  | .array elements => by
    have hle := unfoldedDepthOfAll_le hn elements
    rw [unfoldedDepth, depth]
    omega
  | .struct fields => by
    have hle := unfoldedDepthOfFields_le hn fields
    rw [unfoldedDepth, depth]
    omega
  | .reference name _ => Nat.le_trans (hn name) (Nat.le_add_left _ _)

theorem unfoldedDepthOfAll_le (hn : ∀ name, depths name ≤ n) :
    ∀ es : List Expr, unfoldedDepthOfAll depths es ≤ depthOfAll es + n
  | [] => Nat.zero_le _
  | e :: es => by
    have he := unfoldedDepth_le hn e
    have hes := unfoldedDepthOfAll_le hn es
    rw [unfoldedDepthOfAll, depthOfAll]
    omega

theorem unfoldedDepthOfFields_le (hn : ∀ name, depths name ≤ n) :
    ∀ fields : List (Binding Expr), unfoldedDepthOfFields depths fields ≤ depthOfBindings fields + n
  | [] => Nat.zero_le _
  | ⟨name, _, e⟩ :: fields => by
    have he := unfoldedDepth_le hn e
    have hfields := unfoldedDepthOfFields_le hn fields
    rw [unfoldedDepthOfFields, depthOfBindings]
    split <;> omega

end

end Expr

namespace Program

/-- How deep the constants are behind one more declaration. -/
def declareDepth (depths : String → Nat) (d : Binding Expr) (name : String) : Nat :=
  if name = d.name then d.value.unfoldedDepth depths else depths name

/-- How deep the constants are behind some more declarations. -/
def unfoldedDepths (depths : String → Nat) (ds : List (Binding Expr)) : String → Nat :=
  ds.foldl declareDepth depths

/-- How deep a constant of the program is with its references written out. -/
def constantDepth (p : Program) (name : String) : Nat :=
  unfoldedDepths (fun _ => 0) p.declarations name

/-- The depth of the main value with its references written out. -/
def unfoldedDepth (p : Program) : Nat := p.main.unfoldedDepth p.constantDepth

/-- With their references written out, the main value and the constants are as deep as `limit` at
most. -/
structure UnfoldsWithin (limit : Nat) (p : Program) : Prop where
  constants : ∀ d ∈ p.declarations, p.constantDepth d.name ≤ limit
  main : p.unfoldedDepth ≤ limit

/-- Each declaration may be as much deeper than the ones before it as it is itself. -/
theorem unfoldedDepths_le {limit n : Nat} {depths : String → Nat} {ds : List (Binding Expr)}
    (hd : ∀ d ∈ ds, d.value.depth ≤ limit) (hn : ∀ name, depths name ≤ n) (name : String) :
    unfoldedDepths depths ds name ≤ n + limit * ds.length := by
  induction ds generalizing depths n with
  | nil => exact hn name
  | cons d ds ih =>
    obtain ⟨hd, hds⟩ := List.forall_mem_cons.mp hd
    have hle := Expr.unfoldedDepth_le hn d.value
    have hnext : ∀ other, declareDepth depths d other ≤ n + limit := by
      intro other
      have hother := hn other
      rw [declareDepth]
      split <;> omega
    refine Nat.le_trans (ih hds hnext) (Nat.le_of_eq ?_)
    rw [List.length_cons, Nat.mul_succ]
    omega

/-- The constants are as deep as their declarations together, and the main value is as deep as
these and itself. -/
theorem Within.unfoldedDepth_le {limit : Nat} {p : Program} (hp : p.Within limit) :
    p.unfoldedDepth ≤ limit * (p.declarations.length + 1) ∧
      ∀ name, p.constantDepth name ≤ limit * p.declarations.length := by
  have hconstant : ∀ name, p.constantDepth name ≤ limit * p.declarations.length := by
    intro name
    have hle := unfoldedDepths_le hp.declarations (fun _ => Nat.le_refl 0) name
    rwa [Nat.zero_add] at hle
  refine ⟨?_, hconstant⟩
  have hle := Expr.unfoldedDepth_le hconstant p.main
  have hmain := hp.main
  rw [unfoldedDepth, Nat.mul_succ]
  omega

end Program

/-! ## Values -/

namespace Value

theorem depthOfFields_le_iff {n : Nat} {fs : List (String × Value)} :
    depthOfFields fs ≤ n ↔ ∀ f ∈ fs, f.2.depth ≤ n := by
  induction fs with
  | nil => simp [depthOfFields]
  | cons f fs ih => rw [depthOfFields, Nat.max_le, ih, List.forall_mem_cons]

end Value

/-- The constants are as deep as a function of their names says. -/
def Table.AsDeepAs (depths : String → Nat) (t : Table Value) : Prop :=
  ∀ name v, t.get? name = some v → v.depth = depths name

namespace Expr

variable {options : Options} {constants : Table Value} {depths : String → Nat}

mutual

/-- **Resolving writes references out**: the value is as deep as the expression then is. -/
theorem depth_resolve (hc : constants.AsDeepAs depths) : ∀ (e : Expr) {v : Value},
    e.resolve options constants = .ok v → v.depth = e.unfoldedDepth depths
  | .number x, v, h => by
    cases h
    rfl
  | .array elements, v, h => by
    obtain ⟨vs, hvs, rfl⟩ := resolve_array_eq_ok_iff.mp h
    rw [Value.depth, unfoldedDepth, depth_resolveAll hc elements hvs]
  | .struct fields, v, h => by
    obtain ⟨⟨fs⟩, hfs, rfl⟩ := resolve_struct_eq_ok_iff.mp h
    have hiff := depth_resolveFields_le_iff hc fields (by simp [Table.keys]) hfs
    rw [Value.depth, unfoldedDepth, Nat.add_right_cancel_iff]
    refine Nat.le_antisymm (Value.depthOfFields_le_iff.mpr ((hiff _).mpr ⟨by simp, Nat.le_refl _⟩)) ?_
    exact ((hiff _).mp (Value.depthOfFields_le_iff.mp (Nat.le_refl _))).2
  | .reference name span, v, h => hc name v (resolve_reference_eq_ok_iff.mp h)

theorem depth_resolveAll (hc : constants.AsDeepAs depths) : ∀ (es : List Expr) {vs : List Value},
    resolveAll options constants es = .ok vs →
      Value.depthOfAll vs = unfoldedDepthOfAll depths es
  | [], vs, h => by
    cases h
    rfl
  | e :: es, vs, h => by
    obtain ⟨v, hv, ws, hws, rfl⟩ := resolveAll_cons_eq_ok_iff.mp h
    rw [Value.depthOfAll, unfoldedDepthOfAll, depth_resolve hc e hv, depth_resolveAll hc es hws]

/-- The fields are the new ones and, of the ones before them, those whose names do not come again. -/
theorem depth_resolveFields_le_iff (hc : constants.AsDeepAs depths) :
    ∀ (fields : List (Binding Expr)) {before after : Table Value}, before.keys.Nodup →
      resolveFields options constants before fields = .ok after → ∀ n,
      ((∀ f ∈ after.entries, f.2.depth ≤ n) ↔
        (∀ f ∈ before.entries, f.1 ∉ fields.map Binding.name → f.2.depth ≤ n) ∧
          unfoldedDepthOfFields depths fields ≤ n)
  | [], before, after, hd, h, n => by
    cases h
    simp [unfoldedDepthOfFields]
  | ⟨name, span, e⟩ :: fields, before, after, hd, h, n => by
    obtain ⟨-, v, hv, h⟩ := resolveFields_cons_eq_ok_iff.mp h
    have hiff := depth_resolveFields_le_iff hc fields (Table.nodup_keys_insert hd name v) h n
    have hnames : ∀ f : String × Value, f.1 ∉ (⟨name, span, e⟩ :: fields).map Binding.name ↔
        f.1 ≠ name ∧ f.1 ∉ fields.map Binding.name := by simp
    rw [hiff, Table.forall_mem_insert_iff hd, unfoldedDepthOfFields, ← depth_resolve hc e hv]
    simp only [hnames, and_imp]
    by_cases hm : name ∈ fields.map Binding.name
    · simp only [hm, not_true_eq_false, false_implies, true_and, if_true]
    · simp only [hm, not_false_eq_true, true_implies, if_false, Nat.max_le, and_assoc,
        and_left_comm]

end

end Expr

namespace Program

variable {options : Options} {ds : List (Binding Expr)} {constants after : Table Value}

theorem asDeepAs_foldlM {depths : String → Nat} (hc : constants.AsDeepAs depths)
    (h : ds.foldlM (declare options) constants = .ok after) :
    after.AsDeepAs (unfoldedDepths depths ds) := by
  induction ds generalizing constants depths with
  | nil =>
    cases h
    exact hc
  | cons d ds ih =>
    rw [List.foldlM_cons, bind_eq_ok_iff] at h
    obtain ⟨t, ht, h⟩ := h
    obtain ⟨v, hv, -, rfl⟩ := declare_eq_ok_iff.mp ht
    refine ih (fun name w hw => ?_) h
    by_cases hname : d.name = name
    · subst hname
      rw [Table.get?_insert_self, Option.some.injEq] at hw
      subst hw
      rw [declareDepth, if_pos rfl]
      exact Expr.depth_resolve hc d.value hv
    · rw [Table.get?_insert_of_ne _ _ hname] at hw
      rw [declareDepth, if_neg fun he => hname he.symm]
      exact hc name w hw

variable {p : Program} {e : Evaluation}

/-- **A value is as deep as what is written**, with the references written out, and so is each
constant. -/
theorem depth_evaluate (h : p.evaluate options = .ok e) :
    e.value.depth = p.unfoldedDepth ∧
      ∀ c ∈ e.constants.entries, c.2.depth = p.constantDepth c.1 := by
  obtain ⟨hdecl, hmain⟩ := evaluate_eq_ok_iff.mp h
  have hempty : Table.AsDeepAs (fun _ => 0) {} := by
    intro name v hv
    cases hv
  have hc := asDeepAs_foldlM hempty hdecl
  have hd := nodup_keys_of_foldlM (by simp [Table.keys]) hdecl
  exact ⟨Expr.depth_resolve hc p.main hmain, fun c hm => hc c.1 c.2 (Table.get?_of_mem hd hm)⟩

theorem depth_evaluate_le_iff (h : p.evaluate options = .ok e) (limit : Nat) :
    (e.value.depth ≤ limit ∧ ∀ c ∈ e.constants.entries, c.2.depth ≤ limit) ↔
      p.UnfoldsWithin limit := by
  obtain ⟨hvalue, hconstants⟩ := depth_evaluate h
  have hkeys := mem_keys_foldlM_iff (evaluate_eq_ok_iff.mp h).1
  constructor
  · intro hle
    refine ⟨fun d hd => ?_, hvalue ▸ hle.1⟩
    obtain ⟨c, hm, hname⟩ := List.mem_map.mp ((hkeys d.name).mpr (.inr (List.mem_map_of_mem hd)))
    rw [← hname, ← hconstants c hm]
    exact hle.2 c hm
  · intro hp
    refine ⟨hvalue ▸ hp.main, fun c hm => ?_⟩
    rcases (hkeys c.1).mp (List.mem_map_of_mem hm) with hnone | hd
    · cases hnone
    · obtain ⟨d, hd, hname⟩ := List.mem_map.mp hd
      rw [hconstants c hm, ← hname]
      exact hp.constants d hd

end Program

end ConstLang
