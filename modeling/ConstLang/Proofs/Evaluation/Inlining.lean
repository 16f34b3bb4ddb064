/-
Constants are abbreviations. `Expr.inline` puts expressions in the place of references, and
`Program.body?` is the expression that a name abbreviates behind some declarations: the body of
its last declaration, written out with what the names in it abbreviate in front of that
declaration. `evaluate_eq_inlined`: evaluating a program is evaluating what it abbreviates,
which refers to nothing.
-/
import ConstLang.Proofs.Evaluation.Success

namespace ConstLang

namespace Expr

mutual

/-- The expression with an expression in the place of each reference, if there is one. -/
def inline (bodies : String → Option Expr) : Expr → Expr
  | number x => .number x
  | array elements => .array (inlineAll bodies elements)
  | struct fields => .struct (inlineFields bodies fields)
  | reference name span => (bodies name).getD (.reference name span)

def inlineAll (bodies : String → Option Expr) : List Expr → List Expr
  | [] => []
  | e :: es => inline bodies e :: inlineAll bodies es

def inlineFields (bodies : String → Option Expr) : List (Binding Expr) → List (Binding Expr)
  | [] => []
  | ⟨name, span, e⟩ :: fields => ⟨name, span, inline bodies e⟩ :: inlineFields bodies fields

end

mutual

/-- The names that an expression refers to, in the order of the text. -/
def references : Expr → List String
  | number _ => []
  | array elements => referencesOfAll elements
  | struct fields => referencesOfFields fields
  | reference name _ => [name]

def referencesOfAll : List Expr → List String
  | [] => []
  | e :: es => e.references ++ referencesOfAll es

def referencesOfFields : List (Binding Expr) → List String
  | [] => []
  | ⟨_, _, e⟩ :: fields => e.references ++ referencesOfFields fields

end

/-- An expression that refers to nothing and has the given value. -/
structure Denotes (options : Options) (e : Expr) (v : Value) : Prop where
  references : e.references = []
  resolve : e.resolve options {} = .ok v

/-- Every constant has the value that its body denotes. -/
def Abbreviates (options : Options) (constants : Table Value) (bodies : String → Option Expr) :
    Prop :=
  ∀ name v, constants.get? name = some v → ∃ e, bodies name = some e ∧ e.Denotes options v

section

variable {options : Options} {constants : Table Value} {bodies : String → Option Expr}

mutual

/-- **Inlining keeps the value**, if the bodies that are put in have the values of the
constants. -/
theorem denotes_inline (hb : Abbreviates options constants bodies) :
    ∀ (e : Expr) {v : Value}, e.resolve options constants = .ok v →
      (e.inline bodies).Denotes options v
  | .number x, v, h => ⟨rfl, h⟩
  | .array elements, v, h => by
    obtain ⟨vs, hvs, rfl⟩ := resolve_array_eq_ok_iff.mp h
    obtain ⟨hr, hv⟩ := denotes_inlineAll hb elements hvs
    exact ⟨hr, resolve_array_eq_ok_iff.mpr ⟨vs, hv, rfl⟩⟩
  | .struct fields, v, h => by
    obtain ⟨t, ht, rfl⟩ := resolve_struct_eq_ok_iff.mp h
    obtain ⟨hr, hv⟩ := denotes_inlineFields hb fields ht
    exact ⟨hr, resolve_struct_eq_ok_iff.mpr ⟨t, hv, rfl⟩⟩
  | .reference name span, v, h => by
    obtain ⟨e, he, hd⟩ := hb name v (resolve_reference_eq_ok_iff.mp h)
    rw [inline, he]
    exact hd

theorem denotes_inlineAll (hb : Abbreviates options constants bodies) :
    ∀ (es : List Expr) {vs : List Value}, resolveAll options constants es = .ok vs →
      referencesOfAll (inlineAll bodies es) = [] ∧
        resolveAll options {} (inlineAll bodies es) = .ok vs
  | [], vs, h => ⟨rfl, h⟩
  | e :: es, vs, h => by
    obtain ⟨v, hv, ws, hws, rfl⟩ := resolveAll_cons_eq_ok_iff.mp h
    obtain ⟨hr, hv'⟩ := denotes_inline hb e hv
    obtain ⟨hrs, hws'⟩ := denotes_inlineAll hb es hws
    refine ⟨?_, resolveAll_cons_eq_ok_iff.mpr ⟨v, hv', ws, hws', rfl⟩⟩
    rw [inlineAll, referencesOfAll, hr, hrs, List.append_nil]

theorem denotes_inlineFields (hb : Abbreviates options constants bodies) :
    ∀ (fields : List (Binding Expr)) {before after : Table Value},
      resolveFields options constants before fields = .ok after →
      referencesOfFields (inlineFields bodies fields) = [] ∧
        resolveFields options {} before (inlineFields bodies fields) = .ok after
  | [], before, after, h => ⟨rfl, h⟩
  | ⟨name, span, e⟩ :: fields, before, after, h => by
    obtain ⟨hnew, v, hv, hs⟩ := resolveFields_cons_eq_ok_iff.mp h
    obtain ⟨hr, hv'⟩ := denotes_inline hb e hv
    obtain ⟨hrs, hs'⟩ := denotes_inlineFields hb fields hs
    refine ⟨?_, resolveFields_cons_eq_ok_iff.mpr ⟨hnew, v, hv', hs'⟩⟩
    rw [inlineFields, referencesOfFields, hr, hrs, List.append_nil]

end

end

/-- An expression that denotes a value is a program of that value without constants. -/
theorem Denotes.evaluate {options : Options} {e : Expr} {v : Value} (h : e.Denotes options v) :
    Program.evaluate options ⟨[], e⟩ = .ok ⟨v, {}⟩ :=
  Program.evaluate_eq_ok_iff.mpr ⟨rfl, h.resolve⟩

end Expr

namespace Program

/-- What a name abbreviates behind some declarations, the last one first: the body of its
first declaration in the list, written out with what names abbreviate behind the ones after. -/
def body? : List (Binding Expr) → String → Option Expr
  | [], _ => none
  | d :: earlier, name =>
    if d.name = name then some (d.value.inline (body? earlier)) else body? earlier name

/-- The main value of a program with every reference written out. -/
def inlined (p : Program) : Expr := p.main.inline (body? p.declarations.reverse)

variable {options : Options}

/-- A declaration adds its body to the bodies, as it adds its value to the constants. -/
theorem abbreviates_declare {constants after : Table Value} {earlier : List (Binding Expr)}
    {d : Binding Expr} (hb : Expr.Abbreviates options constants (body? earlier))
    (h : declare options constants d = .ok after) :
    Expr.Abbreviates options after (body? (d :: earlier)) := by
  obtain ⟨v, hv, -, rfl⟩ := declare_eq_ok_iff.mp h
  intro name w hw
  by_cases hn : d.name = name
  · subst hn
    rw [Table.get?_insert_self, Option.some.injEq] at hw
    subst hw
    exact ⟨_, by rw [body?, if_pos rfl], Expr.denotes_inline hb d.value hv⟩
  · rw [Table.get?_insert_of_ne _ _ hn] at hw
    rw [body?, if_neg hn]
    exact hb name w hw

theorem abbreviates_foldlM {ds earlier : List (Binding Expr)} {constants after : Table Value}
    (hb : Expr.Abbreviates options constants (body? earlier))
    (h : ds.foldlM (declare options) constants = .ok after) :
    Expr.Abbreviates options after (body? (ds.reverse ++ earlier)) := by
  induction ds generalizing constants earlier with
  | nil =>
    cases h
    exact hb
  | cons d ds ih =>
    rw [List.foldlM_cons, bind_eq_ok_iff] at h
    obtain ⟨t, ht, h⟩ := h
    rw [List.reverse_cons, List.append_assoc]
    exact ih (abbreviates_declare hb ht) h

/-- **Resolving constants is inlining.** If a program has a value, then with its references
written out it refers to nothing, and by itself it has that value. In the same way each
constant has the value of the expression that its name abbreviates behind all declarations. -/
theorem evaluate_eq_inlined {p : Program} {e : Evaluation} (h : p.evaluate options = .ok e) :
    (p.inlined.references = [] ∧ evaluate options ⟨[], p.inlined⟩ = .ok ⟨e.value, {}⟩) ∧
      ∀ name v, (name, v) ∈ e.constants.entries →
        ∃ body, body? p.declarations.reverse name = some body ∧ body.references = [] ∧
          evaluate options ⟨[], body⟩ = .ok ⟨v, {}⟩ := by
  obtain ⟨hdecl, hmain⟩ := evaluate_eq_ok_iff.mp h
  have hempty : Expr.Abbreviates options {} (body? []) := by
    intro name v hv
    cases hv
  have hb := abbreviates_foldlM hempty hdecl
  rw [List.append_nil] at hb
  have hvalue := Expr.denotes_inline hb p.main hmain
  refine ⟨⟨hvalue.references, hvalue.evaluate⟩, ?_⟩
  intro name v hm
  have hdistinct := nodup_keys_of_foldlM (by simp [Table.keys]) hdecl
  obtain ⟨body, hbody, hd⟩ := hb name v (Table.get?_of_mem hdistinct hm)
  exact ⟨body, hbody, hd.references, hd.evaluate⟩

/-- A redeclaration that refers to its own name stands for the declaration before it. -/
theorem evaluate_redeclared_inlined :
    evaluate {} ⟨[⟨"x", {}, .number .nan⟩, ⟨"x", {}, .array [.reference "x" {}]⟩],
        .reference "x" {}⟩ =
      .ok ⟨.array [.number .nan], ⟨[("x", .array [.number .nan])]⟩⟩ ∧
    evaluate {} ⟨[], .array [.number .nan]⟩ = .ok ⟨.array [.number .nan], {}⟩ := by
  have h : evaluate {} ⟨[⟨"x", {}, .number .nan⟩, ⟨"x", {}, .array [.reference "x" {}]⟩],
      .reference "x" {}⟩ =
        .ok ⟨.array [.number .nan], ⟨[("x", .array [.number .nan])]⟩⟩ := rfl
  exact ⟨h, (evaluate_eq_inlined h).1.2⟩

end Program

end ConstLang
