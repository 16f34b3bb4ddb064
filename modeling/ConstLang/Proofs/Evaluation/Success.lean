/-
When evaluation gives a value, and which: for each kind of expression, for a list of elements
or of fields, for a declaration and for a program, what its parts must have given. Further
theorems on evaluation use these and leave the definitions closed.
-/
import ConstLang.Evaluation
import ConstLang.Proofs.Evaluation.Insertion

namespace ConstLang

namespace Table

theorem mem_keys_insert_iff {α : Type} {t : Table α} {name other : String} {a : α} :
    other ∈ (t.insert name a).keys ↔ other ∈ t.keys ∨ other = name := by
  rw [keys_insert]
  split
  · next h => exact ⟨.inl, fun ho => ho.elim id fun he => he ▸ h⟩
  · simp

theorem contains_eq_false_iff {α : Type} {t : Table α} {name : String} :
    t.contains name = false ↔ name ∉ t.keys := by
  rw [← Bool.not_eq_true, contains_iff_mem_keys]

/-- With distinct names, every entry can be looked up. -/
theorem get?_of_mem {α : Type} {t : Table α} {name : String} {a : α} (hd : t.keys.Nodup)
    (hm : (name, a) ∈ t.entries) : t.get? name = some a := by
  obtain ⟨entries⟩ := t
  simp only [get?, keys] at hd hm ⊢
  induction entries with
  | nil => simp at hm
  | cons entry rest ih =>
    obtain ⟨key, b⟩ := entry
    simp only [List.map_cons, List.nodup_cons, List.mem_map, not_exists, not_and] at hd
    rcases List.mem_cons.mp hm with heq | hrest
    · obtain ⟨rfl, rfl⟩ := Prod.mk.inj heq
      simp
    · have hne : (name == key) = false := by
        rw [beq_eq_false_iff_ne]
        rintro rfl
        exact hd.1 (name, a) hrest rfl
      rw [List.lookup_cons, hne]
      exact ih hd.2 hrest

/-- What is looked up is an entry. -/
theorem mem_of_get? {α : Type} {t : Table α} {name : String} {a : α} (h : t.get? name = some a) :
    (name, a) ∈ t.entries := by
  obtain ⟨entries⟩ := t
  simp only [get?] at h ⊢
  induction entries with
  | nil => cases h
  | cons entry rest ih =>
    rw [List.lookup_cons] at h
    split at h
    · next hname =>
      cases h
      rw [beq_iff_eq.mp hname]
      exact List.mem_cons_self
    · exact List.mem_cons_of_mem _ (ih h)

/-- With distinct names, an insertion makes one entry and keeps those of other names. -/
theorem mem_entries_insert_iff {α : Type} {t : Table α} {name : String} {a : α} {f : String × α}
    (hd : t.keys.Nodup) :
    f ∈ (t.insert name a).entries ↔ f = (name, a) ∨ f ∈ t.entries ∧ f.1 ≠ name := by
  obtain ⟨entries⟩ := t
  simp only [insert, keys] at hd ⊢
  induction entries with
  | nil => simp [insertEntry]
  | cons entry rest ih =>
    obtain ⟨key, b⟩ := entry
    simp only [List.map_cons, List.nodup_cons, List.mem_map, not_exists, not_and] at hd
    obtain ⟨hkey, hrest⟩ := hd
    rw [insertEntry]
    split
    · next h =>
      subst h
      -- No other entry has the name, so what stays is what is not of that name.
      have hne : ∀ g ∈ rest, g.1 ≠ key := hkey
      rw [List.mem_cons, List.mem_cons]
      constructor
      · rintro (hf | hf)
        · exact .inl hf
        · exact .inr ⟨.inr hf, hne f hf⟩
      · rintro (hf | ⟨rfl | hf, hn⟩)
        · exact .inl hf
        · exact absurd rfl hn
        · exact .inr hf
    · next h =>
      rw [List.mem_cons, List.mem_cons, ih hrest]
      constructor
      · rintro (rfl | hf | ⟨hf, hn⟩)
        · exact .inr ⟨.inl rfl, h⟩
        · exact .inl hf
        · exact .inr ⟨.inr hf, hn⟩
      · rintro (hf | ⟨hf | hf, hn⟩)
        · exact .inr (.inl hf)
        · exact .inl hf
        · exact .inr (.inr ⟨hf, hn⟩)

theorem forall_mem_insert_iff {α : Type} {t : Table α} {name : String} {a : α}
    (hd : t.keys.Nodup) (P : String × α → Prop) :
    (∀ f ∈ (t.insert name a).entries, P f) ↔
      P (name, a) ∧ ∀ f ∈ t.entries, f.1 ≠ name → P f := by
  simp only [mem_entries_insert_iff hd, or_imp, forall_and, forall_eq, and_imp]

end Table

namespace Expr

variable {options : Options} {constants before after : Table Value} {v : Value}

theorem resolve_array_eq_ok_iff {elements : List Expr} :
    (array elements).resolve options constants = .ok v ↔
      ∃ vs, resolveAll options constants elements = .ok vs ∧ .array vs = v := by
  simp only [resolve, bind_eq_ok_iff, pure_eq_ok_iff]

theorem resolve_struct_eq_ok_iff {fields : List (Binding Expr)} :
    (struct fields).resolve options constants = .ok v ↔
      ∃ t, resolveFields options constants {} fields = .ok t ∧ .struct t = v := by
  simp only [resolve, bind_eq_ok_iff, pure_eq_ok_iff]

theorem resolve_reference_eq_ok_iff {name : String} {span : Span} :
    (reference name span).resolve options constants = .ok v ↔ constants.get? name = some v := by
  rw [resolve]
  cases constants.get? name <;> simp

theorem resolveAll_cons_eq_ok_iff {e : Expr} {es : List Expr} {vs : List Value} :
    resolveAll options constants (e :: es) = .ok vs ↔
      ∃ v, e.resolve options constants = .ok v ∧
        ∃ ws, resolveAll options constants es = .ok ws ∧ v :: ws = vs := by
  simp only [resolveAll, bind_eq_ok_iff, pure_eq_ok_iff]

theorem resolveFields_cons_eq_ok_iff {name : String} {span : Span} {e : Expr}
    {fields : List (Binding Expr)} :
    resolveFields options constants before (⟨name, span, e⟩ :: fields) = .ok after ↔
      (options.strict && before.contains name) = false ∧
        ∃ v, e.resolve options constants = .ok v ∧
          resolveFields options constants (before.insert name v) fields = .ok after := by
  rw [resolveFields]
  cases options.strict && before.contains name <;> simp [bind_eq_ok_iff]

end Expr

namespace Program

theorem declare_eq_ok_iff {options : Options} {constants after : Table Value} {d : Binding Expr} :
    declare options constants d = .ok after ↔
      ∃ v, d.value.resolve options constants = .ok v ∧
        (options.strict && constants.contains d.name) = false ∧
        constants.insert d.name v = after := by
  simp only [declare, bind_eq_ok_iff]
  cases options.strict && constants.contains d.name <;> simp

/-- A declaration that succeeds gives its name the value of its expression. -/
theorem inserts_declare {options : Options} :
    Inserts (declare options) fun t d v => d.value.resolve options t = .ok v := by
  intro t d t' h
  obtain ⟨v, hv, -, hinsert⟩ := declare_eq_ok_iff.mp h
  exact ⟨v, hv, hinsert⟩

theorem evaluate_eq_ok_iff {options : Options} {p : Program} {e : Evaluation} :
    p.evaluate options = .ok e ↔
      p.declarations.foldlM (declare options) {} = .ok e.constants ∧
        p.main.resolve options e.constants = .ok e.value := by
  obtain ⟨value, constants⟩ := e
  simp only [evaluate, bind_eq_ok_iff, pure_eq_ok_iff, Evaluation.mk.injEq]
  constructor
  · intro h
    obtain ⟨constants', hd, value', hv, rfl, rfl⟩ := h
    exact ⟨hd, hv⟩
  · intro h
    obtain ⟨hd, hv⟩ := h
    exact ⟨constants, hd, value, hv, rfl, rfl⟩

/-- The constants are those that are declared. -/
theorem mem_keys_foldlM_iff {options : Options} {ds : List (Binding Expr)}
    {constants after : Table Value} (h : ds.foldlM (declare options) constants = .ok after)
    (name : String) :
    name ∈ after.keys ↔ name ∈ constants.keys ∨ name ∈ ds.map Binding.name := by
  induction ds generalizing constants with
  | nil =>
    cases h
    simp
  | cons d ds ih =>
    rw [List.foldlM_cons, bind_eq_ok_iff] at h
    obtain ⟨t, ht, h⟩ := h
    obtain ⟨v, -, -, rfl⟩ := declare_eq_ok_iff.mp ht
    rw [ih h, Table.mem_keys_insert_iff, List.map_cons, List.mem_cons, or_assoc]

/-- The names of the constants stay distinct. -/
theorem nodup_keys_of_foldlM {options : Options} {ds : List (Binding Expr)}
    {constants after : Table Value} (hd : constants.keys.Nodup)
    (h : ds.foldlM (declare options) constants = .ok after) : after.keys.Nodup :=
  inserts_declare.nodup_keys_foldlM h hd

end Program

end ConstLang
