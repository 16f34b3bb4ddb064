/-
Declarations in another order. What an expression comes to depends on the constants that it refers
to and on nothing else, `Expr.resolve_congr`. So two tables in which the same is looked up,
`Table.Agrees`, cannot be told apart by further declarations, which keep them so; and two
declarations next to each other, of different names, of which neither refers to the other, leave
such tables in either order. `evaluate_swap`: the program has the same value with the two swapped.
-/
import ConstLang.Proofs.Evaluation.Inlining
import Mathlib.Data.List.Nodup

namespace ConstLang

namespace Table

variable {α : Type} {t u : Table α}

/-- What is looked up in one table is what is looked up in the other. -/
def Agrees (t u : Table α) : Prop := ∀ name, t.get? name = u.get? name

theorem Agrees.insert (h : t.Agrees u) (name : String) (a : α) :
    (t.insert name a).Agrees (u.insert name a) := by
  intro other
  by_cases hn : name = other
  · subst hn
    rw [get?_insert_self, get?_insert_self]
  · rw [get?_insert_of_ne _ _ hn, get?_insert_of_ne _ _ hn, h other]

theorem Agrees.contains (h : t.Agrees u) (name : String) : t.contains name = u.contains name := by
  rw [Table.contains, Table.contains, h name]

/-- The order of two insertions of different names cannot be looked up. -/
theorem agrees_insert_swap (t : Table α) {name other : String} (a b : α) (hne : name ≠ other) :
    ((t.insert name a).insert other b).Agrees ((t.insert other b).insert name a) := by
  intro key
  by_cases hn : name = key
  · subst hn
    rw [get?_insert_of_ne _ _ hne.symm, get?_insert_self, get?_insert_self]
  · rw [get?_insert_of_ne _ _ hn]
    by_cases ho : other = key
    · subst ho
      rw [get?_insert_self, get?_insert_self]
    · rw [get?_insert_of_ne _ _ ho, get?_insert_of_ne _ _ ho, get?_insert_of_ne _ _ hn]

theorem mem_iff_get? {name : String} {a : α} (hd : t.keys.Nodup) :
    (name, a) ∈ t.entries ↔ t.get? name = some a := ⟨get?_of_mem hd, mem_of_get?⟩

/-- With distinct names, tables that agree have the same entries, in some order. -/
theorem Agrees.perm (h : t.Agrees u) (ht : t.keys.Nodup) (hu : u.keys.Nodup) :
    t.entries.Perm u.entries := by
  refine (List.perm_ext_iff_of_nodup (ht.of_map _) (hu.of_map _)).mpr fun f => ?_
  rw [mem_iff_get? ht, mem_iff_get? hu, h f.1]

end Table

namespace Expr

variable {options : Options} {t u : Table Value}

mutual

/-- **An expression depends on the constants it refers to**, and on no others. -/
theorem resolve_congr : ∀ e : Expr, (∀ name ∈ e.references, t.get? name = u.get? name) →
    e.resolve options t = e.resolve options u
  | .number x, h => rfl
  | .array elements, h => by simp only [resolve, resolveAll_congr elements h]
  | .struct fields, h => by simp only [resolve, resolveFields_congr {} fields h]
  | .reference name span, h => by rw [resolve, resolve, h name (List.mem_singleton_self name)]

theorem resolveAll_congr : ∀ es : List Expr,
    (∀ name ∈ referencesOfAll es, t.get? name = u.get? name) →
    resolveAll options t es = resolveAll options u es
  | [], h => rfl
  | e :: es, h => by
    obtain ⟨he, hes⟩ := List.forall_mem_append.mp h
    simp only [resolveAll, resolve_congr e he, resolveAll_congr es hes]

theorem resolveFields_congr : ∀ (before : Table Value) (fields : List (Binding Expr)),
    (∀ name ∈ referencesOfFields fields, t.get? name = u.get? name) →
    resolveFields options t before fields = resolveFields options u before fields
  | before, [], h => rfl
  | before, ⟨name, span, e⟩ :: fields, h => by
    obtain ⟨he, hfields⟩ := List.forall_mem_append.mp h
    simp only [resolveFields, resolve_congr e he,
      fun v => resolveFields_congr (before.insert name v) fields hfields]

end

/-- A constant that is not referred to may be given any value. -/
theorem resolve_insert_of_notMem (t : Table Value) {e : Expr} {name : String}
    (h : name ∉ e.references) (v : Value) :
    e.resolve options (t.insert name v) = e.resolve options t :=
  resolve_congr e fun _ hm => t.get?_insert_of_ne v fun he => h (he ▸ hm)

end Expr

namespace Program

variable {options : Options} {t u t' : Table Value} {d d' : Binding Expr}

theorem declare_agrees (h : t.Agrees u) (ht : declare options t d = .ok t') :
    ∃ u', declare options u d = .ok u' ∧ t'.Agrees u' := by
  obtain ⟨v, hv, hnew, rfl⟩ := declare_eq_ok_iff.mp ht
  rw [Expr.resolve_congr d.value fun name _ => h name] at hv
  rw [h.contains] at hnew
  exact ⟨_, declare_eq_ok_iff.mpr ⟨v, hv, hnew, rfl⟩, h.insert d.name v⟩

/-- **Tables that agree** stay so when the same is declared in both. -/
theorem foldlM_agrees {ds : List (Binding Expr)} (h : t.Agrees u)
    (ht : ds.foldlM (declare options) t = .ok t') :
    ∃ u', ds.foldlM (declare options) u = .ok u' ∧ t'.Agrees u' :=
  exists_foldlM_of_step (R := Table.Agrees) ht h fun _ _ _ _ _ h ht => declare_agrees h ht

/-- The declarations have different names, and neither refers to the other. -/
structure Independent (d d' : Binding Expr) : Prop where
  names : d.name ≠ d'.name
  left : d'.name ∉ d.value.references
  right : d.name ∉ d'.value.references

theorem Independent.symm (h : Independent d d') : Independent d' d := ⟨h.names.symm, h.right, h.left⟩

/-- A declaration that succeeds behind an independent one succeeds in front of it. -/
theorem declare_swap (h : Independent d d') (ht : declare options t d = .ok u)
    (hu : declare options u d' = .ok t') :
    ∃ u₁ u₂, declare options t d' = .ok u₁ ∧ declare options u₁ d = .ok u₂ ∧ t'.Agrees u₂ := by
  obtain ⟨v, hv, hnew, rfl⟩ := declare_eq_ok_iff.mp ht
  obtain ⟨v', hv', hnew', rfl⟩ := declare_eq_ok_iff.mp hu
  rw [Expr.resolve_insert_of_notMem t h.right] at hv'
  rw [Table.contains, Table.get?_insert_of_ne _ _ h.names] at hnew'
  refine ⟨_, _, declare_eq_ok_iff.mpr ⟨v', hv', hnew', rfl⟩, declare_eq_ok_iff.mpr
    ⟨v, ?_, ?_, rfl⟩, t.agrees_insert_swap v v' h.names⟩
  · rw [Expr.resolve_insert_of_notMem t h.left, hv]
  · rw [Table.contains, Table.get?_insert_of_ne _ _ h.names.symm]
    exact hnew

theorem foldlM_swap {before after : List (Binding Expr)} (h : Independent d d')
    (ht : (before ++ d :: d' :: after).foldlM (declare options) t = .ok t') :
    ∃ u', (before ++ d' :: d :: after).foldlM (declare options) t = .ok u' ∧ t'.Agrees u' := by
  simp only [List.foldlM_append, List.foldlM_cons, bind_eq_ok_iff] at ht ⊢
  obtain ⟨t₀, hbefore, t₁, hd, t₂, hd', hafter⟩ := ht
  obtain ⟨u₁, u₂, hu₁, hu₂, hagrees⟩ := declare_swap h hd hd'
  obtain ⟨u', hu', h'⟩ := foldlM_agrees hagrees hafter
  exact ⟨u', ⟨t₀, hbefore, u₁, hu₁, u₂, hu₂, hu'⟩, h'⟩

theorem exists_evaluate_swap {before after : List (Binding Expr)} {main : Expr} {e : Evaluation}
    (h : Independent d d') (he : evaluate options ⟨before ++ d :: d' :: after, main⟩ = .ok e) :
    ∃ e', evaluate options ⟨before ++ d' :: d :: after, main⟩ = .ok e' ∧ e'.value = e.value ∧
      e'.constants.Agrees e.constants ∧ e'.constants.entries.Perm e.constants.entries := by
  obtain ⟨hdecl, hmain⟩ := evaluate_eq_ok_iff.mp he
  obtain ⟨u, hu, hagrees⟩ := foldlM_swap h hdecl
  rw [Expr.resolve_congr main fun name _ => hagrees name] at hmain
  have hempty : ({} : Table Value).keys.Nodup := by simp [Table.keys]
  have hperm := hagrees.perm (nodup_keys_of_foldlM hempty hdecl) (nodup_keys_of_foldlM hempty hu)
  exact ⟨⟨e.value, u⟩, evaluate_eq_ok_iff.mpr ⟨hu, hmain⟩, rfl, fun name => (hagrees name).symm,
    hperm.symm⟩

/-- **Independent declarations commute.** Of two declarations next to each other, of different
names and of which neither refers to the other, it does not matter which one comes first: the
program has a value in both orders or in none, it is the same value, and the same constants are
in the table, though perhaps in another order. -/
theorem evaluate_swap {before after : List (Binding Expr)} {main : Expr} (options : Options)
    (hnames : d.name ≠ d'.name) (hleft : d'.name ∉ d.value.references)
    (hright : d.name ∉ d'.value.references) :
    ((∃ e, evaluate options ⟨before ++ d :: d' :: after, main⟩ = .ok e) ↔
      ∃ e', evaluate options ⟨before ++ d' :: d :: after, main⟩ = .ok e') ∧
    ∀ e e', evaluate options ⟨before ++ d :: d' :: after, main⟩ = .ok e →
      evaluate options ⟨before ++ d' :: d :: after, main⟩ = .ok e' →
      e'.value = e.value ∧ e'.constants.Agrees e.constants ∧
        e'.constants.entries.Perm e.constants.entries := by
  have h : Independent d d' := ⟨hnames, hleft, hright⟩
  refine ⟨⟨?_, ?_⟩, fun e e' he he' => ?_⟩
  · rintro ⟨e, he⟩
    obtain ⟨e', he', -⟩ := exists_evaluate_swap h he
    exact ⟨e', he'⟩
  · rintro ⟨e', he'⟩
    obtain ⟨e, he, -⟩ := exists_evaluate_swap h.symm he'
    exact ⟨e, he⟩
  · obtain ⟨e₁, he₁, hsame⟩ := exists_evaluate_swap h he
    rw [he', Except.ok.injEq] at he₁
    rwa [← he₁] at hsame

/-- A constant that is declared again further down, where it is made of both. -/
theorem evaluate_swap_redeclared : ∃ e e',
    evaluate {} ⟨[⟨"y", {}, .number .nan⟩] ++ ⟨"x", {}, .array [.reference "y" {}]⟩ ::
      ⟨"z", {}, .reference "y" {}⟩ :: [⟨"x", {}, .array [.reference "x" {}, .reference "z" {}]⟩],
      .reference "x" {}⟩ = .ok e ∧
    evaluate {} ⟨[⟨"y", {}, .number .nan⟩] ++ ⟨"z", {}, .reference "y" {}⟩ ::
      ⟨"x", {}, .array [.reference "y" {}]⟩ ::
      [⟨"x", {}, .array [.reference "x" {}, .reference "z" {}]⟩], .reference "x" {}⟩ = .ok e' ∧
    e.constants.keys = ["y", "x", "z"] ∧ e'.constants.keys = ["y", "z", "x"] ∧
    e'.value = e.value ∧ e'.constants.Agrees e.constants ∧
      e'.constants.entries.Perm e.constants.entries := by
  have h := @evaluate_swap ⟨"x", {}, .array [.reference "y" {}]⟩ ⟨"z", {}, .reference "y" {}⟩
    [⟨"y", {}, .number .nan⟩] [⟨"x", {}, .array [.reference "x" {}, .reference "z" {}]⟩]
    (.reference "x" {}) {} (by decide) (by decide) (by decide)
  exact ⟨_, _, rfl, rfl, rfl, rfl, h.2 _ _ rfl rfl⟩

end Program

end ConstLang
