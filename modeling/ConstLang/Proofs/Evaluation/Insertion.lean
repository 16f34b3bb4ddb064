/-
Loops that fill a table. Declarations and fields are gone through in order, and each one that does
not fail gives its name a value: such a step `Inserts`. Whatever the values are and whatever is
refused, the names that a loop leaves are those of the bindings, each where it comes first,
`Inserts.keys_foldlM`, and what stands for a name is the value of its last binding,
`Inserts.get?_foldlM_of_last`: what comes behind it changes other names only.
-/
import ConstLang.Program
import ConstLang.Table
import ConstLang.Proofs.Outcome

namespace ConstLang

/-- One more name counts if it is a new one. -/
theorem eraseDups_concat (names : List String) (name : String) :
    (names ++ [name]).eraseDups =
      if name ∈ names then names.eraseDups else names.eraseDups ++ [name] := by
  rw [List.eraseDups_append]
  by_cases h : name ∈ names <;> simp [List.removeAll, List.eraseDups_cons, h]

/-- A name that is bound has a last binding. -/
theorem exists_last_binding {α : Type} {bs : List (Binding α)} {name : String}
    (h : name ∈ bs.map Binding.name) :
    ∃ before b after, bs = before ++ b :: after ∧ b.name = name ∧
      name ∉ after.map Binding.name := by
  induction bs with
  | nil => cases h
  | cons b bs ih =>
    by_cases hbs : name ∈ bs.map Binding.name
    · obtain ⟨before, c, after, rfl, hc, hafter⟩ := ih hbs
      exact ⟨b :: before, c, after, rfl, hc, hafter⟩
    · rcases List.mem_cons.mp h with hb | hm
      · exact ⟨[], b, bs, rfl, hb.symm, hbs⟩
      · exact absurd hm hbs

/-- A step that can fail and otherwise gives the name of a binding one of its values. -/
def Inserts {α β ε : Type} (step : Table α → Binding β → Except ε (Table α))
    (IsValue : Table α → Binding β → α → Prop) : Prop :=
  ∀ t b t', step t b = .ok t' → ∃ a, IsValue t b a ∧ t.insert b.name a = t'

namespace Inserts

variable {α β ε : Type} {step : Table α → Binding β → Except ε (Table α)}
  {IsValue : Table α → Binding β → α → Prop} {t t' : Table α}

/-- **The names in the table** are those that are bound, each where it is bound first. -/
theorem keys_foldlM (hstep : Inserts step IsValue) {bs : List (Binding β)} {names : List String}
    (h : bs.foldlM step t = .ok t') (ht : t.keys = names.eraseDups) :
    t'.keys = (names ++ bs.map Binding.name).eraseDups := by
  induction bs generalizing t names with
  | nil =>
    cases h
    rw [ht, List.map_nil, List.append_nil]
  | cons b bs ih =>
    rw [List.foldlM_cons, bind_eq_ok_iff] at h
    obtain ⟨u, hu, h⟩ := h
    obtain ⟨a, -, rfl⟩ := hstep t b u hu
    have hinsert : (t.insert b.name a).keys = (names ++ [b.name]).eraseDups := by
      rw [Table.keys_insert, eraseDups_concat, ht]
      simp only [List.mem_eraseDups]
    rw [ih h hinsert, List.append_assoc, List.map_cons, List.singleton_append]

theorem nodup_keys_foldlM (hstep : Inserts step IsValue) {bs : List (Binding β)}
    (h : bs.foldlM step t = .ok t') (ht : t.keys.Nodup) : t'.keys.Nodup := by
  refine of_foldlM (P := fun u => u.keys.Nodup) h ht fun b _ u u' hu hd => ?_
  obtain ⟨a, -, rfl⟩ := hstep u b u' hu
  exact Table.nodup_keys_insert hd _ _

/-- A name that is not bound again keeps its value. -/
theorem get?_foldlM_of_notMem (hstep : Inserts step IsValue) {bs : List (Binding β)}
    {name : String} (h : bs.foldlM step t = .ok t') (hn : name ∉ bs.map Binding.name) :
    t'.get? name = t.get? name := by
  refine of_foldlM (P := fun u => u.get? name = t.get? name) h rfl fun b hb u u' hu hkeep => ?_
  obtain ⟨a, -, rfl⟩ := hstep u b u' hu
  have hne : b.name ≠ name := fun he => hn (he ▸ List.mem_map_of_mem hb)
  rw [Table.get?_insert_of_ne _ _ hne, hkeep]

/-- **What stands for a name** is the value of its last binding. -/
theorem get?_foldlM_of_last (hstep : Inserts step IsValue) {before after : List (Binding β)}
    {b : Binding β} (h : (before ++ b :: after).foldlM step t = .ok t')
    (hlast : b.name ∉ after.map Binding.name) :
    ∃ u a, before.foldlM step t = .ok u ∧ IsValue u b a ∧ t'.get? b.name = some a := by
  simp only [List.foldlM_append, List.foldlM_cons, bind_eq_ok_iff] at h
  obtain ⟨u, hu, v, hv, hafter⟩ := h
  obtain ⟨a, ha, rfl⟩ := hstep u b v hv
  refine ⟨u, a, hu, ha, ?_⟩
  rw [hstep.get?_foldlM_of_notMem hafter hlast, Table.get?_insert_self]

end Inserts

end ConstLang
