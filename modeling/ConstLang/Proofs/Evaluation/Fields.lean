/-
The fields of a struct. They are gone through in order, `resolveFields_eq_foldlM`, as declarations
are, and so a struct has the names of its fields, each where it comes first, with the value of the
last field of that name. A field that a later one replaces must have a value all the same,
`exists_resolveFields_iff`. In a strict evaluation no name comes again, and the fields of the value
are those of the struct, one by one. `resolve_struct_repeated` puts this together.
-/
import ConstLang.Proofs.Evaluation.Insertion
import ConstLang.Proofs.Evaluation.Strictness
import Mathlib.Data.List.Forall2

namespace ConstLang

/-- A new name comes behind the others. -/
theorem Table.entries_insert_of_notMem {α : Type} {t : Table α} {name : String}
    (hn : name ∉ t.keys) (a : α) : (t.insert name a).entries = t.entries ++ [(name, a)] := by
  obtain ⟨entries⟩ := t
  simp only [insert, keys] at hn ⊢
  induction entries with
  | nil => rfl
  | cons entry rest ih =>
    rw [List.map_cons, List.mem_cons, not_or] at hn
    rw [insertEntry, if_neg fun he => hn.1 he.symm, ih hn.2, List.cons_append]

namespace Expr

variable {options : Options} {constants before after : Table Value}

/-- Adds the value of a field to the ones in front of it. -/
def resolveField (options : Options) (constants before : Table Value) (f : Binding Expr) :
    Except Error (Table Value) :=
  if options.strict && before.contains f.name then .error (.duplicateKey f.name f.span)
  else do return before.insert f.name (← f.value.resolve options constants)

/-- **The fields of a struct** are gone through one after the other. -/
theorem resolveFields_eq_foldlM (before : Table Value) (fields : List (Binding Expr)) :
    resolveFields options constants before fields =
      fields.foldlM (resolveField options constants) before := by
  induction fields generalizing before with
  | nil => rfl
  | cons f fields ih =>
    rw [resolveFields, List.foldlM_cons, resolveField]
    split
    · rfl
    · cases f.value.resolve options constants with
      | error e => rfl
      | ok v => exact ih (before.insert f.name v)

theorem inserts_resolveField : Inserts (resolveField options constants)
    fun _ f v => f.value.resolve options constants = .ok v := by
  intro t f t' h
  rw [resolveField] at h
  split at h
  · cases h
  · simpa only [bind_eq_ok_iff, pure_eq_ok_iff] using h

/-- **Fields have values** if each of them has one, also the ones that are replaced, and if no name
comes again that must not. -/
theorem exists_resolveFields_iff {fields : List (Binding Expr)} :
    (∃ after, resolveFields options constants before fields = .ok after) ↔
      (∀ f ∈ fields, ∃ v, f.value.resolve options constants = .ok v) ∧
        (options.strict = true → Fresh fields before) := by
  induction fields generalizing before with
  | nil => simp [resolveFields, Fresh]
  | cons f fields ih =>
    obtain ⟨name, span, e⟩ := f
    have hname : (options.strict && before.contains name) = false ↔
        (options.strict = true → name ∉ before.keys) := by
      rw [← Table.contains_eq_false_iff]
      cases options.strict <;> simp
    simp only [resolveFields_cons_eq_ok_iff, hname, List.forall_mem_cons]
    constructor
    · rintro ⟨after, hnew, v, hv, hafter⟩
      obtain ⟨hvalues, hfresh⟩ := ih.mp ⟨after, hafter⟩
      exact ⟨⟨⟨v, hv⟩, hvalues⟩, fun hs => (fresh_cons_iff v).mpr ⟨hnew hs, hfresh hs⟩⟩
    · rintro ⟨⟨⟨v, hv⟩, hvalues⟩, hfresh⟩
      have hrest := fun hs => (fresh_cons_iff v).mp (hfresh hs)
      obtain ⟨after, hafter⟩ := ih.mpr ⟨hvalues, fun hs => (hrest hs).2⟩
      exact ⟨after, fun hs => (hrest hs).1, v, hv, hafter⟩

/-- The entry of a field: its name, and the value of its expression. -/
def IsEntry (options : Options) (constants : Table Value) (f : Binding Expr)
    (entry : String × Value) : Prop :=
  entry.1 = f.name ∧ f.value.resolve options constants = .ok entry.2

/-- Fields of different names add an entry each. -/
theorem forall₂_isEntry_of_resolveFields {fields : List (Binding Expr)}
    (h : resolveFields options constants before fields = .ok after) (hd : Fresh fields before) :
    ∃ entries, after.entries = before.entries ++ entries ∧
      List.Forall₂ (IsEntry options constants) fields entries := by
  induction fields generalizing before with
  | nil =>
    cases h
    exact ⟨[], (List.append_nil _).symm, .nil⟩
  | cons f fields ih =>
    obtain ⟨-, v, hv, h⟩ := resolveFields_cons_eq_ok_iff.mp h
    obtain ⟨hnew, hrest⟩ := (fresh_cons_iff v).mp hd
    obtain ⟨entries, hentries, hall⟩ := ih h hrest
    refine ⟨(f.name, v) :: entries, ?_, .cons ⟨rfl, hv⟩ hall⟩
    rw [hentries, Table.entries_insert_of_notMem hnew, List.append_assoc, List.singleton_append]

/-- A struct has the names of its fields, each where it comes first. -/
theorem keys_resolveFields {fields : List (Binding Expr)}
    (h : resolveFields options constants {} fields = .ok after) :
    after.keys = (fields.map Binding.name).eraseDups := by
  rw [resolveFields_eq_foldlM] at h
  have hkeys : after.keys = ([] ++ fields.map Binding.name).eraseDups :=
    inserts_resolveField.keys_foldlM h rfl
  rwa [List.nil_append] at hkeys

/-- What stands for a name in a struct is the value of the last field of that name. -/
theorem get?_resolveFields_eq_some_iff {fields : List (Binding Expr)} {name : String} {v : Value}
    (h : resolveFields options constants {} fields = .ok after) :
    after.get? name = some v ↔
      ∃ front f back, fields = front ++ f :: back ∧ f.name = name ∧
        name ∉ back.map Binding.name ∧ f.value.resolve options constants = .ok v := by
  have hkeys := keys_resolveFields h
  rw [resolveFields_eq_foldlM] at h
  constructor
  · intro hv
    have hm : name ∈ fields.map Binding.name := by
      rw [← List.mem_eraseDups, ← hkeys, ← Table.contains_iff_mem_keys, Table.contains, hv]
      rfl
    obtain ⟨front, f, back, rfl, rfl, hn⟩ := exists_last_binding hm
    obtain ⟨-, w, -, hw, hget⟩ := inserts_resolveField.get?_foldlM_of_last h hn
    rw [hv, Option.some.injEq] at hget
    exact ⟨front, f, back, rfl, rfl, hn, hget ▸ hw⟩
  · rintro ⟨front, f, back, rfl, rfl, hn, hv⟩
    obtain ⟨-, w, -, hw, hget⟩ := inserts_resolveField.get?_foldlM_of_last h hn
    rw [hv, Except.ok.injEq] at hw
    rw [hget, hw]

/-- **A struct with names that come again.** It has a value exactly if each of its fields has one,
also a field that a later one replaces, and in strict evaluation if its names are distinct. The
value has the names of the fields in the order in which they first come, and for each name the
value of the last field of that name. With distinct names the fields and their values are those
of the struct, one by one. -/
theorem resolve_struct_repeated (options : Options) (constants : Table Value)
    (fields : List (Binding Expr)) :
    ((∃ v, (struct fields).resolve options constants = .ok v) ↔
      (∀ f ∈ fields, ∃ v, f.value.resolve options constants = .ok v) ∧
        (options.strict = true → (fields.map Binding.name).Nodup)) ∧
    ∀ v, (struct fields).resolve options constants = .ok v →
      ∃ t : Table Value, v = .struct t ∧
        t.keys = (fields.map Binding.name).eraseDups ∧ t.keys.Nodup ∧
        (∀ name w, t.get? name = some w ↔
          ∃ front f back, fields = front ++ f :: back ∧ f.name = name ∧
            name ∉ back.map Binding.name ∧ f.value.resolve options constants = .ok w) ∧
        ((fields.map Binding.name).Nodup →
          List.Forall₂ (IsEntry options constants) fields t.entries) := by
  constructor
  · rw [← fresh_empty_iff (β := Value), ← exists_resolveFields_iff]
    simp only [resolve_struct_eq_ok_iff]
    exact ⟨fun ⟨_, t, ht, _⟩ => ⟨t, ht⟩, fun ⟨t, ht⟩ => ⟨_, t, ht, rfl⟩⟩
  · intro v hv
    obtain ⟨t, ht, rfl⟩ := resolve_struct_eq_ok_iff.mp hv
    have hdistinct : t.keys.Nodup :=
      inserts_resolveField.nodup_keys_foldlM (resolveFields_eq_foldlM _ _ ▸ ht)
        (by simp [Table.keys])
    refine ⟨t, rfl, keys_resolveFields ht, hdistinct,
      fun name w => get?_resolveFields_eq_some_iff ht, fun hd => ?_⟩
    obtain ⟨entries, hentries, hall⟩ :=
      forall₂_isEntry_of_resolveFields ht (fresh_empty_iff.mpr hd)
    rwa [hentries, List.nil_append]

/-- The first field keeps its place, and it must have a value although it is replaced. -/
example (x y : Binary64) (place : Span) :
    (struct [⟨"a", {}, .number x⟩, ⟨"b", {}, .number y⟩, ⟨"a", {}, .number y⟩]).resolve {} {} =
      .ok (.struct ⟨[("a", .number y), ("b", .number y)]⟩) ∧
    (struct [⟨"a", {}, .reference "c" place⟩, ⟨"a", {}, .number y⟩]).resolve {} {} =
      .error (.undefinedConstant "c" place) :=
  ⟨rfl, rfl⟩

end Expr

end ConstLang
