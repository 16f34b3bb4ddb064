/-
The constants behind an evaluation. The table has the declared names in the order in which they
first come, `keys_foldlM`, and what stands for a name is the value of its last declaration, made of
the constants in front of that declaration, `get?_foldlM_of_last`. A name that is declared again
keeps its place, and of the table the one value is changed, `Table.entries_insert_of_mem`; so
constants that were made of the old value stay what they are. `evaluate_constants` puts this
together for programs.
-/
import ConstLang.Proofs.Evaluation.Success

namespace ConstLang

namespace Table

/-- A new value for an old name changes the entry of the name, where it stands. -/
theorem entries_insert_of_mem {α : Type} {t : Table α} {name : String} (hd : t.keys.Nodup)
    (hn : name ∈ t.keys) (a : α) :
    (t.insert name a).entries = t.entries.map fun f => if f.1 = name then (name, a) else f := by
  obtain ⟨entries⟩ := t
  simp only [insert, keys] at hd hn ⊢
  induction entries with
  | nil => cases hn
  | cons entry rest ih =>
    obtain ⟨key, b⟩ := entry
    rw [List.map_cons, List.nodup_cons] at hd
    rw [List.map_cons, List.mem_cons] at hn
    by_cases h : key = name
    · -- No other entry has the name, so the rest of the table stays.
      subst h
      have hne : ∀ f ∈ rest, f.1 ≠ key := fun f hf he => hd.1 (List.mem_map.mpr ⟨f, hf, he⟩)
      have hrest : (rest.map fun f => if f.1 = key then (key, a) else f) = rest.map id :=
        List.map_congr_left fun f hf => if_neg (hne f hf)
      rw [insertEntry, if_pos rfl, List.map_cons, if_pos rfl, hrest, List.map_id]
    · have hm : name ∈ rest.map Prod.fst := hn.resolve_left fun he => h he.symm
      rw [insertEntry, if_neg h, ih hd.2 hm, List.map_cons, if_neg h]

end Table

namespace Program

variable {options : Options} {t t' : Table Value}

/-- **The names of the constants** are those that are declared, each where it is declared first. -/
theorem keys_foldlM {ds : List (Binding Expr)} {names : List String}
    (h : ds.foldlM (declare options) t = .ok t') (ht : t.keys = names.eraseDups) :
    t'.keys = (names ++ ds.map Binding.name).eraseDups :=
  inserts_declare.keys_foldlM h ht

/-- What a declaration finds in front of it, what it adds, and what comes behind it. -/
theorem foldlM_append_cons_eq_ok_iff {before after : List (Binding Expr)} {d : Binding Expr} :
    (before ++ d :: after).foldlM (declare options) t = .ok t' ↔
      ∃ u, before.foldlM (declare options) t = .ok u ∧
        ∃ v, d.value.resolve options u = .ok v ∧
          (options.strict && u.contains d.name) = false ∧
          after.foldlM (declare options) (u.insert d.name v) = .ok t' := by
  simp only [List.foldlM_append, List.foldlM_cons, bind_eq_ok_iff, declare_eq_ok_iff]
  constructor
  · rintro ⟨u, hu, -, ⟨v, hv, hnew, rfl⟩, h⟩
    exact ⟨u, hu, v, hv, hnew, h⟩
  · rintro ⟨u, hu, v, hv, hnew, h⟩
    exact ⟨u, hu, _, ⟨v, hv, hnew, rfl⟩, h⟩

/-- What stands for a name behind its last declaration is the value of that declaration. -/
theorem get?_foldlM_of_last {before after : List (Binding Expr)} {d : Binding Expr}
    (h : (before ++ d :: after).foldlM (declare options) {} = .ok t)
    (hlast : d.name ∉ after.map Binding.name) :
    ∃ v u, evaluate options ⟨before, d.value⟩ = .ok ⟨v, u⟩ ∧ t.get? d.name = some v := by
  obtain ⟨u, v, hu, hv, hget⟩ := inserts_declare.get?_foldlM_of_last h hlast
  exact ⟨v, u, evaluate_eq_ok_iff.mpr ⟨hu, hv⟩, hget⟩

/-- **A name that is declared again** gets another value in the place it has; the other constants
stay what they are. -/
theorem evaluate_redeclared {before after : List (Binding Expr)} {d : Binding Expr}
    (h : (before ++ d :: after).foldlM (declare options) {} = .ok t)
    (hd : d.name ∈ before.map Binding.name) :
    ∃ v u, evaluate options ⟨before, d.value⟩ = .ok ⟨v, u⟩ ∧
      evaluate options ⟨before ++ [d], .reference d.name d.span⟩ =
        .ok ⟨v, ⟨u.entries.map fun f => if f.1 = d.name then (d.name, v) else f⟩⟩ := by
  obtain ⟨u, hu, v, hv, hnew, -⟩ := foldlM_append_cons_eq_ok_iff.mp h
  have hdistinct : u.keys.Nodup := nodup_keys_of_foldlM (by simp [Table.keys]) hu
  have hm : d.name ∈ u.keys := (mem_keys_foldlM_iff hu d.name).mpr (.inr hd)
  have hdeclared : (before ++ [d]).foldlM (declare options) {} = .ok (u.insert d.name v) :=
    foldlM_append_cons_eq_ok_iff.mpr ⟨u, hu, v, hv, hnew, rfl⟩
  refine ⟨v, u, evaluate_eq_ok_iff.mpr ⟨hu, hv⟩, ?_⟩
  rw [← Table.entries_insert_of_mem hdistinct hm v]
  refine evaluate_eq_ok_iff.mpr ⟨hdeclared, ?_⟩
  exact Expr.resolve_reference_eq_ok_iff.mpr (Table.get?_insert_self u d.name v)

/-- **The table of constants.** Its names are the declared ones, each once, in the order in which
they are first declared. What stands for a name is the main value of the declarations in front of
its last declaration, with the value of that declaration as the main value. If a name is declared
again, its value is replaced where it stands, and nothing else in the table changes. -/
theorem evaluate_constants {p : Program} {e : Evaluation} (h : p.evaluate options = .ok e) :
    e.constants.keys = (p.declarations.map Binding.name).eraseDups ∧ e.constants.keys.Nodup ∧
    (∀ name v, e.constants.get? name = some v ↔
      ∃ before d after t, p.declarations = before ++ d :: after ∧ d.name = name ∧
        name ∉ after.map Binding.name ∧ evaluate options ⟨before, d.value⟩ = .ok ⟨v, t⟩) ∧
    ∀ before d after, p.declarations = before ++ d :: after → d.name ∈ before.map Binding.name →
      ∃ v t, evaluate options ⟨before, d.value⟩ = .ok ⟨v, t⟩ ∧
        evaluate options ⟨before ++ [d], .reference d.name d.span⟩ =
          .ok ⟨v, ⟨t.entries.map fun f => if f.1 = d.name then (d.name, v) else f⟩⟩ := by
  obtain ⟨hdecl, -⟩ := evaluate_eq_ok_iff.mp h
  have hkeys : e.constants.keys = ([] ++ p.declarations.map Binding.name).eraseDups :=
    keys_foldlM hdecl rfl
  rw [List.nil_append] at hkeys
  have hdistinct : e.constants.keys.Nodup := nodup_keys_of_foldlM (by simp [Table.keys]) hdecl
  refine ⟨hkeys, hdistinct, fun name v => ⟨fun hv => ?_, ?_⟩,
    fun before d after hsplit hd => evaluate_redeclared (hsplit ▸ hdecl) hd⟩
  · have hm : name ∈ p.declarations.map Binding.name := by
      rw [← List.mem_eraseDups, ← hkeys, ← Table.contains_iff_mem_keys, Table.contains, hv]
      rfl
    obtain ⟨before, d, after, hsplit, rfl, hlast⟩ := exists_last_binding hm
    obtain ⟨w, t, he, hw⟩ := get?_foldlM_of_last (hsplit ▸ hdecl) hlast
    rw [hv, Option.some.injEq] at hw
    exact ⟨before, d, after, t, hsplit, rfl, hlast, hw ▸ he⟩
  · rintro ⟨before, d, after, t, hsplit, rfl, hlast, he⟩
    obtain ⟨w, u, he', hw⟩ := get?_foldlM_of_last (hsplit ▸ hdecl) hlast
    rw [he] at he'
    cases he'
    exact hw

/-- A constant that is declared again, made of its old value, and another one that was made of the
old value before. -/
theorem evaluate_constants_redeclared : ∃ e,
    evaluate {} ⟨[⟨"x", {}, .number .nan⟩, ⟨"y", {}, .reference "x" {}⟩,
      ⟨"x", {}, .array [.reference "x" {}]⟩], .reference "y" {}⟩ = .ok e ∧
    e.constants.keys = ["x", "y", "x"].eraseDups ∧
    e.constants.get? "x" = some (.array [.number .nan]) ∧
    e.constants.get? "y" = some (.number .nan) := by
  obtain ⟨e, he⟩ : ∃ e, evaluate {} ⟨[⟨"x", {}, .number .nan⟩, ⟨"y", {}, .reference "x" {}⟩,
      ⟨"x", {}, .array [.reference "x" {}]⟩], .reference "y" {}⟩ = .ok e := ⟨_, rfl⟩
  obtain ⟨hkeys, -, hget, -⟩ := evaluate_constants he
  refine ⟨e, he, hkeys, (hget "x" _).mpr ?_, (hget "y" _).mpr ?_⟩
  · exact ⟨[⟨"x", {}, .number .nan⟩, ⟨"y", {}, .reference "x" {}⟩], _, [], _, rfl, rfl,
      by decide, rfl⟩
  · exact ⟨[⟨"x", {}, .number .nan⟩], ⟨"y", {}, .reference "x" {}⟩, _, _, rfl, rfl, by decide, rfl⟩

end Program

end ConstLang
