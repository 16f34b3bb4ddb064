/-
Constants under other names. The name of a constant only ties references to a declaration, and it is
no name of a field, though it may be spelled like one. `Program.rename` gives the constants of a
program other names and leaves the fields alone; if different names stay different, a table with
other names is looked up and added to as before, `Table.get?_rename` and `Table.rename_insert`, and
so every outcome of the evaluation is the one it was, with the constants renamed: `evaluate_rename`.
-/
import ConstLang.Evaluation
import ConstLang.Proofs.Outcome
import Mathlib.Logic.Equiv.Basic

namespace ConstLang

namespace Table

variable {α : Type} {f : String → String}

/-- The table with other names for what it has, in the same order. -/
def rename (f : String → String) (t : Table α) : Table α :=
  ⟨t.entries.map fun entry => (f entry.1, entry.2)⟩

theorem get?_rename (hf : Function.Injective f) (t : Table α) (name : String) :
    (t.rename f).get? (f name) = t.get? name := by
  obtain ⟨entries⟩ := t
  simp only [rename, get?]
  induction entries with
  | nil => rfl
  | cons entry rest ih =>
    have hname : (f name == f entry.1) = (name == entry.1) := by
      rw [Bool.eq_iff_iff, beq_iff_eq, beq_iff_eq, hf.eq_iff]
    rw [List.map_cons, List.lookup_cons, List.lookup_cons, hname, ih]

theorem contains_rename (hf : Function.Injective f) (t : Table α) (name : String) :
    (t.rename f).contains (f name) = t.contains name := by
  rw [contains, contains, get?_rename hf]

theorem rename_insert (hf : Function.Injective f) (t : Table α) (name : String) (a : α) :
    (t.insert name a).rename f = (t.rename f).insert (f name) a := by
  obtain ⟨entries⟩ := t
  simp only [insert, rename, mk.injEq]
  induction entries with
  | nil => rfl
  | cons entry rest ih =>
    by_cases h : entry.1 = name
    · simp [insertEntry, h]
    · simp [insertEntry, h, hf.eq_iff, ih]

end Table

namespace Expr

mutual

/-- The expression with other names in its references. The names of its fields stay. -/
def rename (f : String → String) : Expr → Expr
  | number x => .number x
  | array elements => .array (renameAll f elements)
  | struct fields => .struct (renameFields f fields)
  | reference name span => .reference (f name) span

def renameAll (f : String → String) : List Expr → List Expr
  | [] => []
  | e :: es => rename f e :: renameAll f es

def renameFields (f : String → String) : List (Binding Expr) → List (Binding Expr)
  | [] => []
  | ⟨name, span, e⟩ :: fields => ⟨name, span, rename f e⟩ :: renameFields f fields

end

end Expr

/-- The error with another name for the constant that it is about, if it is about one. -/
def Error.rename (f : String → String) : Error → Error
  | undefinedConstant name span => .undefinedConstant (f name) span
  | redeclaredConstant name span => .redeclaredConstant (f name) span
  | e => e

/-- The same main value, and the constants under other names. -/
def Evaluation.rename (f : String → String) (e : Evaluation) : Evaluation :=
  ⟨e.value, e.constants.rename f⟩

namespace Program

/-- A declaration of a constant under another name. -/
def renameDeclaration (f : String → String) (d : Binding Expr) : Binding Expr :=
  ⟨f d.name, d.span, d.value.rename f⟩

/-- The program with other names for its constants. -/
def rename (f : String → String) (p : Program) : Program :=
  ⟨p.declarations.map (renameDeclaration f), p.main.rename f⟩

end Program

variable {options : Options} {f : String → String}

namespace Expr

mutual

/-- **References lead to the same values** if constants and references are renamed alike. -/
theorem resolve_rename (hf : Function.Injective f) (constants : Table Value) : ∀ e : Expr,
    (e.rename f).resolve options (constants.rename f) =
      mapOutcome (Error.rename f) id (e.resolve options constants)
  | .number x => rfl
  | .array elements => by
    rw [rename, resolve, resolve, resolveAll_rename hf constants elements]
    exact mapOutcome_bind fun _ => rfl
  | .struct fields => by
    rw [rename, resolve, resolve, resolveFields_rename hf constants {} fields]
    exact mapOutcome_bind fun _ => rfl
  | .reference name span => by
    rw [rename, resolve, resolve, Table.get?_rename hf]
    cases constants.get? name <;> rfl

theorem resolveAll_rename (hf : Function.Injective f) (constants : Table Value) :
    ∀ es : List Expr,
      resolveAll options (constants.rename f) (renameAll f es) =
        mapOutcome (Error.rename f) id (resolveAll options constants es)
  | [] => rfl
  | e :: es => by
    rw [renameAll, resolveAll, resolveAll, resolve_rename hf constants e]
    refine mapOutcome_bind fun v => ?_
    rw [resolveAll_rename hf constants es]
    exact mapOutcome_bind fun _ => rfl

theorem resolveFields_rename (hf : Function.Injective f) (constants : Table Value) :
    ∀ (before : Table Value) (fields : List (Binding Expr)),
      resolveFields options (constants.rename f) before (renameFields f fields) =
        mapOutcome (Error.rename f) id (resolveFields options constants before fields)
  | before, [] => rfl
  | before, ⟨name, span, e⟩ :: fields => by
    rw [renameFields, resolveFields, resolveFields]
    -- A name that comes again in a struct is reported as it is: it is no constant's.
    split
    · rfl
    · rw [resolve_rename hf constants e]
      exact mapOutcome_bind fun v => resolveFields_rename hf constants _ fields

end

end Expr

namespace Program

theorem declare_rename (hf : Function.Injective f) (constants : Table Value) (d : Binding Expr) :
    declare options (constants.rename f) (renameDeclaration f d) =
      mapOutcome (Error.rename f) (Table.rename f) (declare options constants d) := by
  rw [declare, declare, renameDeclaration, Expr.resolve_rename hf]
  refine mapOutcome_bind fun v => ?_
  rw [Table.contains_rename hf]
  split
  · rfl
  · exact congrArg Except.ok (constants.rename_insert hf d.name v).symm

/-- **Names of constants are labels.** With other names for the constants, different ones for
different ones, a program has the same main value and the same constants in the same order under
the other names; or it fails for the same name at the same place, which has the other name if it is
a constant's and is what it was if it is a field's. -/
theorem evaluate_rename (hf : Function.Injective f) (options : Options) (p : Program) :
    (p.rename f).evaluate options =
      mapOutcome (Error.rename f) (Evaluation.rename f) (p.evaluate options) := by
  have hdeclarations : (p.declarations.map (renameDeclaration f)).foldlM (declare options) {} =
      mapOutcome (Error.rename f) (Table.rename f) (p.declarations.foldlM (declare options) {}) :=
    mapOutcome_foldlM (declare_rename hf) p.declarations {}
  rw [evaluate, evaluate, rename, hdeclarations]
  refine mapOutcome_bind fun constants => ?_
  rw [Expr.resolve_rename hf]
  exact mapOutcome_bind fun _ => rfl

/-- Two constants that exchange their names, one of which is also the name of a field. -/
theorem evaluate_rename_swap : Function.Injective (Equiv.swap "x" "y") ∧
    (rename (Equiv.swap "x" "y") ⟨[⟨"x", {}, .number .nan⟩,
      ⟨"y", {}, .struct [⟨"x", {}, .reference "x" {}⟩]⟩], .reference "y" {}⟩).evaluate {} =
      .ok ⟨.struct ⟨[("x", .number .nan)]⟩,
        ⟨[("y", .number .nan), ("x", .struct ⟨[("x", .number .nan)]⟩)]⟩⟩ := by
  refine ⟨(Equiv.swap "x" "y").injective, ?_⟩
  rw [evaluate_rename (Equiv.swap "x" "y").injective]
  rfl

end Program

end ConstLang
