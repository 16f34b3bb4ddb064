/-
Declarations that nothing refers to. A declaration whose name is not referred to further down can be
taken out of a program: the tables of the two runs are then the same but for the name, `Table.SameBut`,
though the name may be declared before and again later, and stand at another place or not at all in
the second table. Further declarations keep the tables so, `declare_sameBut`, since what an expression
comes to depends on the constants it refers to. `evaluate_remove`: the value of the program stays, and
so do all other constants, in their order.
-/
import ConstLang.Proofs.Evaluation.Reordering

namespace ConstLang

namespace Table

variable {α : Type} {t u : Table α} {name other : String}

/-- The table without a name. -/
def erase (t : Table α) (name : String) : Table α := ⟨t.entries.filter fun f => f.1 != name⟩

theorem get?_erase_of_ne (t : Table α) (hne : other ≠ name) :
    (t.erase name).get? other = t.get? other := by
  obtain ⟨entries⟩ := t
  simp only [erase, get?]
  induction entries with
  | nil => rfl
  | cons entry rest ih =>
    obtain ⟨key, b⟩ := entry
    by_cases h : key = name
    · have hb : (other == key) = false := beq_eq_false_iff_ne.mpr (h ▸ hne)
      rw [List.filter_cons_of_neg (by simp [h]), List.lookup_cons, hb, ih]
    · rw [List.filter_cons_of_pos (by simp [h]), List.lookup_cons, List.lookup_cons, ih]

/-- What a name stands for has no part in the table without it. -/
theorem erase_insert_self (t : Table α) (name : String) (a : α) :
    (t.insert name a).erase name = t.erase name := by
  obtain ⟨entries⟩ := t
  simp only [insert, erase, mk.injEq]
  induction entries with
  | nil => simp [insertEntry]
  | cons entry rest ih =>
    by_cases h : entry.1 = name
    · simp [insertEntry, h]
    · simp [insertEntry, h, ih]

theorem erase_insert_of_ne (t : Table α) (a : α) (hne : other ≠ name) :
    (t.insert other a).erase name = (t.erase name).insert other a := by
  obtain ⟨entries⟩ := t
  simp only [insert, erase, mk.injEq]
  induction entries with
  | nil => simp [insertEntry, hne]
  | cons entry rest ih =>
    by_cases ho : entry.1 = other
    · simp [insertEntry, ho, hne]
    · by_cases hn : entry.1 = name
      · simp [insertEntry, hn, hne.symm, ih]
      · simp [insertEntry, ho, hn, ih]

/-- The tables are the same without the name, and the second one may lack it. -/
structure SameBut (name : String) (t u : Table α) : Prop where
  erase_eq : u.erase name = t.erase name
  mem_of_mem : name ∈ u.keys → name ∈ t.keys

namespace SameBut

theorem of_insert (t : Table α) (name : String) (a : α) : SameBut name (t.insert name a) t where
  erase_eq := (t.erase_insert_self name a).symm
  mem_of_mem hm := mem_keys_insert_iff.mpr (.inl hm)

theorem get?_eq (h : SameBut name t u) (hne : other ≠ name) : u.get? other = t.get? other := by
  rw [← u.get?_erase_of_ne hne, h.erase_eq, t.get?_erase_of_ne hne]

/-- A new name of the first table is a new name of the second one. -/
theorem contains_eq_false (h : SameBut name t u) (ht : t.contains other = false) :
    u.contains other = false := by
  by_cases hne : other = name
  · subst hne
    rw [contains_eq_false_iff] at ht ⊢
    exact fun hm => ht (h.mem_of_mem hm)
  · rwa [contains, h.get?_eq hne]

theorem insert (h : SameBut name t u) (other : String) (a : α) :
    SameBut name (t.insert other a) (u.insert other a) where
  erase_eq := by
    by_cases hne : other = name
    · subst hne
      rw [erase_insert_self, erase_insert_self, h.erase_eq]
    · rw [erase_insert_of_ne _ _ hne, erase_insert_of_ne _ _ hne, h.erase_eq]
  mem_of_mem hm := mem_keys_insert_iff.mpr ((mem_keys_insert_iff.mp hm).imp_left h.mem_of_mem)

end SameBut

end Table

namespace Expr

/-- An expression cannot tell the tables apart without referring to the name. -/
theorem resolve_sameBut {options : Options} {name : String} {t u : Table Value}
    (h : t.SameBut name u) {e : Expr} (he : name ∉ e.references) :
    e.resolve options u = e.resolve options t :=
  resolve_congr e fun _ hm => h.get?_eq fun hn => he (hn ▸ hm)

end Expr

namespace Program

variable {options : Options} {name : String} {t u t' : Table Value} {d : Binding Expr}

/-- A declaration that does not refer to the name keeps the tables the same without it. -/
theorem declare_sameBut (hd : name ∉ d.value.references) (h : t.SameBut name u)
    (ht : declare options t d = .ok t') :
    ∃ u', declare options u d = .ok u' ∧ t'.SameBut name u' := by
  obtain ⟨v, hv, hnew, rfl⟩ := declare_eq_ok_iff.mp ht
  rw [← Expr.resolve_sameBut h hd] at hv
  have hnew' : (options.strict && u.contains d.name) = false := by
    rw [Bool.and_eq_false_imp] at hnew ⊢
    exact fun hs => h.contains_eq_false (hnew hs)
  exact ⟨_, declare_eq_ok_iff.mpr ⟨v, hv, hnew', rfl⟩, h.insert d.name v⟩

/-- **A declaration that nothing refers to can be removed.** If no later declaration and not the
main value refers to its name, the program without it has the same main value, and for every other
name the table has the same entry, in the same order. -/
theorem evaluate_remove {before after : List (Binding Expr)} {main : Expr} {e : Evaluation}
    (h : evaluate options ⟨before ++ d :: after, main⟩ = .ok e)
    (hafter : ∀ b ∈ after, d.name ∉ b.value.references) (hmain : d.name ∉ main.references) :
    ∃ e', evaluate options ⟨before ++ after, main⟩ = .ok e' ∧ e'.value = e.value ∧
      (∀ name, name ≠ d.name → e'.constants.get? name = e.constants.get? name) ∧
      e'.constants.erase d.name = e.constants.erase d.name := by
  obtain ⟨hdecl, hvalue⟩ := evaluate_eq_ok_iff.mp h
  simp only [List.foldlM_append, List.foldlM_cons, bind_eq_ok_iff] at hdecl
  obtain ⟨t, hbefore, t₁, hd, hrest⟩ := hdecl
  obtain ⟨v, -, -, rfl⟩ := declare_eq_ok_iff.mp hd
  obtain ⟨u, hu, hsame⟩ := exists_foldlM_of_step (R := Table.SameBut d.name) hrest
    (.of_insert t d.name v) fun b hb _ _ _ hs hb' => declare_sameBut (hafter b hb) hs hb'
  have hdecl' : (before ++ after).foldlM (declare options) {} = .ok u := by
    rw [List.foldlM_append, hbefore]
    exact hu
  rw [← Expr.resolve_sameBut hsame hmain] at hvalue
  exact ⟨⟨e.value, u⟩, evaluate_eq_ok_iff.mpr ⟨hdecl', hvalue⟩, rfl, fun name => hsame.get?_eq,
    hsame.erase_eq⟩

/-- A constant that is declared three times: what refers to it stands in front of the second
declaration, which can go. -/
theorem evaluate_remove_redeclared : ∃ e e',
    evaluate {} ⟨[⟨"x", {}, .number .nan⟩, ⟨"y", {}, .reference "x" {}⟩] ++
      ⟨"x", {}, .array [.reference "x" {}]⟩ ::
      [⟨"z", {}, .reference "y" {}⟩, ⟨"x", {}, .array [.reference "z" {}, .reference "y" {}]⟩],
      .reference "z" {}⟩ = .ok e ∧
    evaluate {} ⟨[⟨"x", {}, .number .nan⟩, ⟨"y", {}, .reference "x" {}⟩] ++
      [⟨"z", {}, .reference "y" {}⟩, ⟨"x", {}, .array [.reference "z" {}, .reference "y" {}]⟩],
      .reference "z" {}⟩ = .ok e' ∧
    e.constants.keys = ["x", "y", "z"] ∧ e'.value = e.value ∧
    (∀ name, name ≠ "x" → e'.constants.get? name = e.constants.get? name) ∧
    e'.constants.erase "x" = e.constants.erase "x" := by
  obtain ⟨e, he, hkeys⟩ : ∃ e, evaluate {} ⟨[⟨"x", {}, .number .nan⟩, ⟨"y", {}, .reference "x" {}⟩] ++
      ⟨"x", {}, .array [.reference "x" {}]⟩ ::
      [⟨"z", {}, .reference "y" {}⟩, ⟨"x", {}, .array [.reference "z" {}, .reference "y" {}]⟩],
      .reference "z" {}⟩ = .ok e ∧ e.constants.keys = ["x", "y", "z"] := ⟨_, rfl, rfl⟩
  obtain ⟨e', he', hsame⟩ := evaluate_remove he (by decide) (by decide)
  exact ⟨e, e', he, he', hkeys, hsame⟩

end Program

end ConstLang
