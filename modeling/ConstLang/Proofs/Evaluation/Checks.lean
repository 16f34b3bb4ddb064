/-
What evaluation checks. `Program.checks` lists what has to hold of the names in a program, in the
order in which it is looked at; it is read off the program and nothing is evaluated for it.
`Decides` says that the outcome of a computation is the one that a list of checks asks for: a
result if all of them hold, and otherwise the error of the first one that does not. It holds of
whole programs because it holds of their parts and lists are appended where computations are
sequenced, `Decides.bind`. `evaluate_firstFailing`: evaluation reports the first failing check.
-/
import ConstLang.Proofs.Evaluation.Inlining

namespace ConstLang

/-- What has to hold of a name where it stands, and the names that this depends on. -/
inductive Check
  /-- A reference is to one of the constants that are declared before. -/
  | reference (name : String) (span : Span) (declared : List String)
  /-- A field is none of those that come before it in its struct. -/
  | field (name : String) (span : Span) (before : List String)
  /-- A declared constant is none of those that are declared before. -/
  | constant (name : String) (span : Span) (declared : List String)

namespace Check

def Holds : Check → Prop
  | reference name _ declared => name ∈ declared
  | field name _ before => name ∉ before
  | constant name _ declared => name ∉ declared

instance : DecidablePred Holds := fun c =>
  match c with
  | reference name _ declared => inferInstanceAs (Decidable (name ∈ declared))
  | field name _ before => inferInstanceAs (Decidable (name ∉ before))
  | constant name _ declared => inferInstanceAs (Decidable (name ∉ declared))

/-- What is reported if the check does not hold. -/
def error : Check → Error
  | reference name span _ => .undefinedConstant name span
  | field name span _ => .duplicateKey name span
  | constant name span _ => .redeclaredConstant name span

/-- The first of some checks that does not hold. -/
def firstFailing? (checks : List Check) : Option Check := checks.find? fun c => ¬ c.Holds

end Check

open Check (firstFailing?)

theorem firstFailing?_eq_none_iff {checks : List Check} :
    firstFailing? checks = none ↔ ∀ c ∈ checks, c.Holds := by
  simp [firstFailing?]

theorem firstFailing?_eq_some_iff {checks : List Check} {c : Check} :
    firstFailing? checks = some c ↔
      ∃ before after, checks = before ++ c :: after ∧ (∀ b ∈ before, b.Holds) ∧ ¬ c.Holds := by
  simp only [firstFailing?, List.find?_eq_some_iff_append, decide_eq_true_eq, Bool.not_eq_true',
    decide_not, Bool.not_not]
  constructor
  · rintro ⟨hc, before, after, hsplit, hb⟩
    exact ⟨before, after, hsplit, hb, by simpa using hc⟩
  · rintro ⟨before, after, hsplit, hb, hc⟩
    exact ⟨by simpa using hc, before, after, hsplit, hb⟩

/-- The computation fails exactly if one of the checks does, with the error of the first one. -/
def Decides {α : Type} (checks : List Check) (x : Except Error α) : Prop :=
  ∀ err, x = .error err ↔ (firstFailing? checks).map Check.error = some err

namespace Decides

variable {α β : Type} {as bs : List Check}

theorem ok (a : α) : Decides [] (.ok a : Except Error α) := by
  simp [Decides, firstFailing?]

theorem iff_errorOf? {x : Except Error α} :
    Decides as x ↔ errorOf? x = (firstFailing? as).map Check.error := by
  simp only [Decides, eq_error_iff]
  exact ⟨Option.ext, fun h err => by rw [h]⟩

theorem bind {x : Except Error α} {f : α → Except Error β} (hx : Decides as x)
    (hf : ∀ a, x = .ok a → Decides bs (f a)) : Decides (as ++ bs) (x >>= f) := by
  have happend : firstFailing? (as ++ bs) = (firstFailing? as).or (firstFailing? bs) :=
    List.find?_append
  rw [iff_errorOf?, errorOf?_bind fun a ha => iff_errorOf?.mp (hf a ha), iff_errorOf?.mp hx,
    happend, Option.map_or]

/-- What is made of a result needs no further check. -/
theorem bind_pure {x : Except Error α} (hx : Decides as x) (f : α → β) :
    Decides as (x >>= fun a => pure (f a)) := by
  have h : Decides (as ++ []) (x >>= fun a => pure (f a)) := hx.bind fun a _ => ok (f a)
  rwa [List.append_nil] at h

/-- A check that is made in strict evaluation only comes in front of the ones that follow. -/
theorem ite {strict failed : Bool} {c : Check} {x : Except Error α}
    (hc : c.Holds ↔ failed = false) (hx : Decides bs x) :
    Decides ((if strict then [c] else []) ++ bs)
      (if strict && failed then .error c.error else x) := by
  cases strict with
  | false => simpa using hx
  | true =>
    cases failed with
    | false => simpa [Decides, firstFailing?, hc] using hx
    | true => simp [Decides, firstFailing?, hc]

end Decides

/-- The names are those in the table. -/
def Table.Lists {α : Type} (t : Table α) (names : List String) : Prop :=
  ∀ name, name ∈ t.keys ↔ name ∈ names

namespace Table.Lists

variable {α : Type} {t : Table α} {names : List String}

theorem empty : ({} : Table α).Lists [] := fun name => by simp [Table.keys]

theorem insert (h : t.Lists names) (name : String) (a : α) :
    (t.insert name a).Lists (names ++ [name]) := fun other => by
  rw [mem_keys_insert_iff, h other, List.mem_append, List.mem_singleton]

theorem get?_eq_none_iff (h : t.Lists names) (name : String) :
    t.get? name = none ↔ name ∉ names := by
  rw [← h name, ← contains_eq_false_iff, contains, Option.isSome_eq_false_iff,
    Option.isNone_iff_eq_none]

theorem notMem_iff (h : t.Lists names) (name : String) :
    name ∉ names ↔ t.contains name = false := by
  rw [← h name, contains_eq_false_iff]

end Table.Lists

namespace Expr

mutual

/-- What is checked in an expression behind some declarations. -/
def checks (options : Options) (declared : List String) : Expr → List Check
  | number _ => []
  | array elements => checksOfAll options declared elements
  | struct fields => checksOfFields options declared [] fields
  | reference name span => [.reference name span declared]

def checksOfAll (options : Options) (declared : List String) : List Expr → List Check
  | [] => []
  | e :: es => e.checks options declared ++ checksOfAll options declared es

/-- What is checked in the fields of a struct: of each one its name, if strict, then its value. -/
def checksOfFields (options : Options) (declared before : List String) :
    List (Binding Expr) → List Check
  | [] => []
  | ⟨name, span, e⟩ :: fields =>
    (if options.strict then [.field name span before] else []) ++
      (e.checks options declared ++ checksOfFields options declared (before ++ [name]) fields)

end

variable {options : Options} {constants : Table Value} {declared : List String}

mutual

/-- **Resolving** is decided by the checks of the expression. -/
theorem decides_resolve (hd : constants.Lists declared) :
    ∀ e : Expr, Decides (e.checks options declared) (e.resolve options constants)
  | .number x => .ok _
  | .array elements => by
    rw [checks, resolve]
    exact (decides_resolveAll hd elements).bind_pure _
  | .struct fields => by
    rw [checks, resolve]
    exact (decides_resolveFields hd .empty fields).bind_pure _
  | .reference name span => by
    have hnone := hd.get?_eq_none_iff name
    rw [checks, resolve]
    cases h : constants.get? name with
    | some v =>
      have hin : name ∈ declared := by simpa [h] using hnone
      simp [Decides, firstFailing?, Check.Holds, hin]
    | none =>
      have hout : name ∉ declared := hnone.mp h
      simp [Decides, firstFailing?, Check.Holds, Check.error, hout]

theorem decides_resolveAll (hd : constants.Lists declared) :
    ∀ es : List Expr, Decides (checksOfAll options declared es) (resolveAll options constants es)
  | [] => .ok _
  | e :: es => by
    rw [checksOfAll, resolveAll]
    exact (decides_resolve hd e).bind fun v _ => (decides_resolveAll hd es).bind_pure _

theorem decides_resolveFields (hd : constants.Lists declared) {before : Table Value}
    {names : List String} (hb : before.Lists names) :
    ∀ fields : List (Binding Expr), Decides (checksOfFields options declared names fields)
      (resolveFields options constants before fields)
  | [] => .ok _
  | ⟨name, span, e⟩ :: fields => by
    rw [checksOfFields, resolveFields]
    refine .ite (hb.notMem_iff name) ?_
    exact (decides_resolve hd e).bind fun v _ =>
      decides_resolveFields hd (hb.insert name v) fields

end

mutual

/-- A reference in an expression is checked. -/
theorem exists_check_of_mem_references {name : String} :
    ∀ e : Expr, name ∈ e.references →
      ∃ span, .reference name span declared ∈ e.checks options declared
  | .number x, h => by cases h
  | .array elements, h => exists_check_of_mem_referencesOfAll elements h
  | .struct fields, h => exists_check_of_mem_referencesOfFields fields h
  | .reference name' span, h => by
    obtain rfl := List.mem_singleton.mp h
    exact ⟨span, List.mem_singleton_self _⟩

theorem exists_check_of_mem_referencesOfAll {name : String} :
    ∀ es : List Expr, name ∈ referencesOfAll es →
      ∃ span, .reference name span declared ∈ checksOfAll options declared es
  | [], h => by cases h
  | e :: es, h => by
    rcases List.mem_append.mp h with h | h
    · obtain ⟨span, hm⟩ := exists_check_of_mem_references e h
      exact ⟨span, List.mem_append_left _ hm⟩
    · obtain ⟨span, hm⟩ := exists_check_of_mem_referencesOfAll es h
      exact ⟨span, List.mem_append_right _ hm⟩

theorem exists_check_of_mem_referencesOfFields {name : String} {before : List String} :
    ∀ fields : List (Binding Expr), name ∈ referencesOfFields fields →
      ∃ span, .reference name span declared ∈ checksOfFields options declared before fields
  | [], h => by cases h
  | ⟨label, place, e⟩ :: fields, h => by
    rw [checksOfFields]
    rcases List.mem_append.mp h with h | h
    · obtain ⟨span, hm⟩ := exists_check_of_mem_references e h
      exact ⟨span, List.mem_append_right _ (List.mem_append_left _ hm)⟩
    · obtain ⟨span, hm⟩ := exists_check_of_mem_referencesOfFields fields h
      exact ⟨span, List.mem_append_right _ (List.mem_append_right _ hm)⟩

end

end Expr

namespace Program

/-- What is checked in declarations behind others: of each one its value, then its name, if
strict. -/
def checksOfDeclarations (options : Options) (declared : List String) :
    List (Binding Expr) → List Check
  | [] => []
  | d :: ds =>
    (d.value.checks options declared ++
      if options.strict then [.constant d.name d.span declared] else []) ++
      checksOfDeclarations options (declared ++ [d.name]) ds

/-- What is checked in a program, in the order of evaluation. -/
def checks (options : Options) (p : Program) : List Check :=
  checksOfDeclarations options [] p.declarations ++
    p.main.checks options (p.declarations.map Binding.name)

variable {options : Options}

theorem decides_declare {constants : Table Value} {declared : List String}
    (hd : constants.Lists declared) (d : Binding Expr) :
    Decides (d.value.checks options declared ++
        if options.strict then [.constant d.name d.span declared] else [])
      (declare options constants d) := by
  rw [declare]
  refine (Expr.decides_resolve hd d.value).bind fun v _ => ?_
  rw [← List.append_nil (if options.strict then _ else _)]
  exact .ite (hd.notMem_iff d.name) (.ok _)

/-- **Declaring** is decided by the checks of the declarations. -/
theorem decides_foldlM (ds : List (Binding Expr)) {constants : Table Value}
    {declared : List String} (hd : constants.Lists declared) :
    Decides (checksOfDeclarations options declared ds) (ds.foldlM (declare options) constants) := by
  induction ds generalizing constants declared with
  | nil => exact .ok _
  | cons d ds ih =>
    rw [List.foldlM_cons, checksOfDeclarations]
    refine (decides_declare hd d).bind fun t ht => ih ?_
    obtain ⟨v, -, -, rfl⟩ := declare_eq_ok_iff.mp ht
    exact hd.insert d.name v

theorem decides_evaluate (options : Options) (p : Program) :
    Decides (p.checks options) (p.evaluate options) := by
  rw [checks, evaluate]
  refine (decides_foldlM p.declarations .empty).bind fun constants hc => ?_
  have hd : constants.Lists (p.declarations.map Binding.name) := fun name => by
    rw [mem_keys_foldlM_iff hc name]
    simp [Table.keys]
  exact (Expr.decides_resolve hd p.main).bind_pure _

theorem checksOfDeclarations_append (declared : List String) (ds es : List (Binding Expr)) :
    checksOfDeclarations options declared (ds ++ es) =
      checksOfDeclarations options declared ds ++
        checksOfDeclarations options (declared ++ ds.map Binding.name) es := by
  induction ds generalizing declared with
  | nil => simp [checksOfDeclarations]
  | cons d ds ih => simp [checksOfDeclarations, ih]

/-- **Evaluation reports the first failing check.** It gives a value exactly if all checks of the
program hold, and otherwise the error of the first one that does not, with the name and the place
that this one is about. So a constant cannot be referred to before it is declared, even if it
is declared later. -/
theorem evaluate_firstFailing (options : Options) (p : Program) :
    ((∃ e, p.evaluate options = .ok e) ↔ ∀ c ∈ p.checks options, c.Holds) ∧
    (∀ err, p.evaluate options = .error err ↔
      ∃ before c after, p.checks options = before ++ c :: after ∧
        (∀ b ∈ before, b.Holds) ∧ ¬ c.Holds ∧ c.error = err) ∧
    (∀ before d after name, p.declarations = before ++ d :: after →
      name ∈ d.value.references → name ∉ before.map Binding.name →
      ∃ err, p.evaluate options = .error err) := by
  have hdecides := decides_evaluate options p
  have hok : (∃ e, p.evaluate options = .ok e) ↔ ∀ c ∈ p.checks options, c.Holds := by
    rw [← firstFailing?_eq_none_iff]
    cases he : p.evaluate options with
    | ok e =>
      refine iff_of_true ⟨e, rfl⟩ ?_
      cases hc : firstFailing? (p.checks options) with
      | none => rfl
      | some c =>
        have := (hdecides c.error).mpr (by rw [hc]; rfl)
        rw [he] at this
        cases this
    | error err =>
      refine iff_of_false (by simp) fun hnone => ?_
      have := (hdecides err).mp he
      rw [hnone] at this
      cases this
  refine ⟨hok, fun err => ?_, fun before d after name hsplit hname hnew => ?_⟩
  · rw [hdecides err, Option.map_eq_some_iff]
    simp only [firstFailing?_eq_some_iff]
    constructor
    · rintro ⟨c, ⟨before, after, hsplit, hb, hc⟩, he⟩
      exact ⟨before, c, after, hsplit, hb, hc, he⟩
    · rintro ⟨before, c, after, hsplit, hb, hc, he⟩
      exact ⟨c, ⟨before, after, hsplit, hb, hc⟩, he⟩
  · cases he : p.evaluate options with
    | error err => exact ⟨err, rfl⟩
    | ok e =>
      obtain ⟨span, hm⟩ : ∃ span, .reference name span (before.map Binding.name) ∈
          d.value.checks options (before.map Binding.name) :=
        Expr.exists_check_of_mem_references d.value hname
      have hchecked : .reference name span (before.map Binding.name) ∈ p.checks options := by
        rw [checks, hsplit, checksOfDeclarations_append, checksOfDeclarations, List.nil_append]
        simp [hm]
      exact absurd (hok.mp ⟨e, he⟩ _ hchecked) hnew

/-- A repeated field is found before what is wrong with its value, if its name is looked at. -/
example (x : Binary64) (again place : Span) :
    let fields := [⟨"a", {}, .number x⟩, ⟨"a", again, .reference "b" place⟩]
    (⟨[], .struct fields⟩ : Program).evaluate { strict := true } = .error (.duplicateKey "a" again) ∧
      (⟨[], .struct fields⟩ : Program).evaluate {} = .error (.undefinedConstant "b" place) :=
  ⟨rfl, rfl⟩

end Program

end ConstLang
