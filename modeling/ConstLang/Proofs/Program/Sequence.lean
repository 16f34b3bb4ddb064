/-
The outcomes of putting items together. The last item decides first: if it is no value, there is
said to be no program (`ofItems_eq_emptyProgram_iff`), also where a value stands further up. Only
behind that it matters that a value stands too early, `ofItems_eq_structural_iff`. So the contract,
by which a program is empty if no value is among its items, is kept exactly where a value that is
among them comes last, `ofItems_outcomes`.
-/
import ConstLang.Proofs.Program.Demands

namespace ConstLang

namespace Program

variable {items : List Item}

/-- What is asked of putting items together: they are empty if there is no value, faulty if a value
stands in front of another item, and else the program of the declarations and the value. -/
structure KeepsContract (items : List Item) : Prop where
  empty : ofItems items = .error .emptyProgram ↔ ∀ e, .value e ∉ items
  structural : (∃ fault, ofItems items = .error (.structural fault)) ↔
    ∃ before e after, items = before ++ .value e :: after ∧ after ≠ []
  program : ∀ p, ofItems items = .ok p ↔
    items = p.declarations.map .declaration ++ [.value p.main]

/-- Nothing is empty but what has no value at its end. -/
theorem ofItems_eq_emptyProgram_iff :
    ofItems items = .error .emptyProgram ↔ ∀ e, items.getLast? ≠ some (.value e) := by
  rcases List.eq_nil_or_concat' items with rfl | ⟨before, last, rfl⟩
  · exact iff_of_true rfl (by simp)
  rw [List.getLast?_concat]
  cases last with
  | declaration d =>
    rw [ofItems_concat_declaration]
    simp
  | value main =>
    refine iff_of_false (fun h => ?_) (fun h => h main rfl)
    obtain ⟨h, -⟩ := ofItems_concat_value_eq_error_iff.mp h
    cases h

/-- A value is too early only in front of another one that is the last item. -/
theorem ofItems_eq_structural_iff {fault : StructuralFault} :
    ofItems items = .error (.structural fault) ↔ fault = .valueBeforeMain ∧
      ∃ before main, items = before ++ [.value main] ∧ ∃ e, .value e ∈ before := by
  rcases List.eq_nil_or_concat' items with rfl | ⟨before, last, rfl⟩
  · exact iff_of_false nofun (by simp)
  cases last with
  | declaration d =>
    rw [ofItems_concat_declaration]
    simp
  | value main =>
    rw [ofItems_concat_value_eq_error_iff]
    simp

/-- Nothing else goes wrong. -/
theorem ofItems_error_cases {e : Error} (h : ofItems items = .error e) :
    e = .emptyProgram ∨ e = .structural .valueBeforeMain := by
  rcases List.eq_nil_or_concat' items with rfl | ⟨before, last, rfl⟩
  · cases h
    exact .inl rfl
  cases last with
  | declaration d =>
    rw [ofItems_concat_declaration] at h
    cases h
    exact .inl rfl
  | value main =>
    exact .inr (ofItems_concat_value_eq_error_iff.mp h).1

/-- A value stands in front of another item if it is in front of the last one. -/
theorem exists_value_before_iff {before : List Item} {last : Item} :
    (∃ front e after, before ++ [last] = front ++ .value e :: after ∧ after ≠ []) ↔
      ∃ e, .value e ∈ before := by
  constructor
  · intro h
    obtain ⟨front, e, after, h, hne⟩ := h
    obtain ⟨after, last', rfl⟩ := (List.eq_nil_or_concat' after).resolve_left hne
    refine ⟨e, ?_⟩
    rw [← List.cons_append, ← List.append_assoc] at h
    rw [(List.append_inj' h rfl).1]
    simp
  · intro h
    obtain ⟨e, hm⟩ := h
    obtain ⟨front, after, rfl⟩ := List.append_of_mem hm
    exact ⟨front, e, after ++ [last], by simp, by simp⟩

theorem exists_structural_iff {before : List Item} {main : Expr} :
    (∃ fault, ofItems (before ++ [.value main]) = .error (.structural fault)) ↔
      ∃ e, .value e ∈ before := by
  simp only [ofItems_concat_value_eq_error_iff, Error.structural.injEq, exists_and_right,
    exists_eq, true_and]

/-- **The contract is kept** if and only if the last item is a value, or none is. -/
theorem keepsContract_iff : KeepsContract items ↔
    ((∃ e, .value e ∈ items) → ∃ e, items.getLast? = some (.value e)) := by
  constructor
  · intro h hvalue
    obtain ⟨e, hm⟩ := hvalue
    by_contra hlast
    exact h.empty.mp (ofItems_eq_emptyProgram_iff.mpr (not_exists.mp hlast)) e hm
  · intro h
    refine ⟨?_, ?_, fun p => ofItems_eq_ok_iff⟩
    · rw [ofItems_eq_emptyProgram_iff, ← not_exists, ← not_exists, not_iff_not]
      exact ⟨fun ⟨e, he⟩ => ⟨e, List.mem_of_getLast? he⟩, h⟩
    · by_cases hm : ∃ e, .value e ∈ items
      · obtain ⟨main, hlast⟩ := h hm
        obtain ⟨before, rfl⟩ := List.getLast?_eq_some_iff.mp hlast
        rw [exists_structural_iff, exists_value_before_iff]
      · refine iff_of_false ?_ ?_
        · intro hfault
          obtain ⟨fault, hf⟩ := hfault
          obtain ⟨-, before, main, rfl, -⟩ := ofItems_eq_structural_iff.mp hf
          exact hm ⟨main, by simp⟩
        · intro hearly
          obtain ⟨before, e, after, rfl, -⟩ := hearly
          exact hm ⟨e, by simp⟩

/-- **What becomes of items**, whatever they are. -/
theorem ofItems_outcomes (items : List Item) :
    (ofItems items = .error .emptyProgram ↔ ∀ e, items.getLast? ≠ some (.value e)) ∧
    (∀ fault, ofItems items = .error (.structural fault) ↔ fault = .valueBeforeMain ∧
      ∃ before main, items = before ++ [.value main] ∧ ∃ e, .value e ∈ before) ∧
    (∀ p, ofItems items = .ok p ↔ items = p.declarations.map .declaration ++ [.value p.main]) ∧
    (∀ e, ofItems items = .error e → e = .emptyProgram ∨ e = .structural .valueBeforeMain) ∧
    (KeepsContract items ↔
      ((∃ e, .value e ∈ items) → ∃ e, items.getLast? = some (.value e))) :=
  ⟨ofItems_eq_emptyProgram_iff, fun _ => ofItems_eq_structural_iff, fun _ => ofItems_eq_ok_iff,
    fun _ => ofItems_error_cases, keepsContract_iff⟩

/-- A value with a declaration behind it is said to be no program, as if there were no value. -/
theorem ofItems_value_declaration :
    ofItems [.value (.number (.ofBits 0x3ff0000000000000)),
        .declaration ⟨"x", {}, .number (.ofBits 0x3ff0000000000000)⟩] = .error .emptyProgram ∧
      ¬ KeepsContract [.value (.number (.ofBits 0x3ff0000000000000)),
        .declaration ⟨"x", {}, .number (.ofBits 0x3ff0000000000000)⟩] := by
  refine ⟨rfl, fun h => ?_⟩
  exact h.empty.mp rfl (.number (.ofBits 0x3ff0000000000000)) (by simp)

end Program

end ConstLang
