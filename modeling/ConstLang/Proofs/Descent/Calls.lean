/-
More calls never change what a routine comes to, unless the calls were used up: `value_refines`, and
one like it for every routine. So a routine that has calls enough comes to one result.
-/
import ConstLang.Proofs.Descent

namespace ConstLang

namespace Descent

variable {α β : Type} {limit : Nat}

/-- The second routine comes to what the first one comes to, wherever that has calls enough. -/
def Refines (m m' : Routine α) : Prop := ∀ t, (∃ t', m t = .error .outOfCalls t') ∨ m t = m' t

theorem Refines.refl (m : Routine α) : Refines m m := fun _ => .inr rfl

theorem Refines.trans {m m' m'' : Routine α} (h : Refines m m') (h' : Refines m' m'') :
    Refines m m'' := fun t => by
  rcases h t with hout | heq
  · exact .inl hout
  · rw [heq]
    exact h' t

theorem Refines.bind {m m' : Routine α} {f f' : α → Routine β} (hm : Refines m m')
    (hf : ∀ a, Refines (f a) (f' a)) : Refines (m >>= f) (m' >>= f') := fun t => by
  change (∃ t', EStateM.bind m f t = _) ∨ EStateM.bind m f t = EStateM.bind m' f' t
  unfold EStateM.bind
  rcases hm t with ⟨t', hout⟩ | heq
  · exact .inl ⟨t', by rw [hout]⟩
  · rw [← heq]
    cases m t with
    | ok a t₁ => exact hf a t₁
    | error stop t₁ => exact .inr rfl

/-- What a routine does first need not be refined. -/
theorem Refines.behind {f f' : α → Routine β} (m : Routine α) (hf : ∀ a, Refines (f a) (f' a)) :
    Refines (m >>= f) (m >>= f') := (Refines.refl m).bind hf

theorem Refines.thenPure {m m' : Routine α} (f : α → β) (hm : Refines m m') :
    Refines (m >>= fun a => pure (f a)) (m' >>= fun a => pure (f a)) :=
  hm.bind fun _ => .refl _

/-- One call more is as good as many more. -/
theorem Refines.le {m : Nat → Routine α} (h : ∀ calls, Refines (m calls) (m (calls + 1)))
    {calls calls' : Nat} (hle : calls ≤ calls') : Refines (m calls) (m calls') := by
  induction hle with
  | refl => exact .refl _
  | step _ ih => exact ih.trans (h _)

/-! ## The routines -/

mutual

theorem value_refines : ∀ calls, Refines (value limit calls) (value limit (calls + 1))
  | 0 => fun t => .inl ⟨t, rfl⟩
  | calls + 1 => by
    rw [value, value]
    refine .behind _ fun s => ?_
    cases s.current.kind with
    | openBracket => exact array_refines calls
    | structWord => exact struct_refines calls
    | number | openReference | name | isWord | closeBracket | openBrace | closeBrace | comma
    | equals | closeReference | endOfInput => exact .refl _

theorem array_refines : ∀ calls, Refines (array limit calls) (array limit (calls + 1))
  | 0 => fun t => .inl ⟨t, rfl⟩
  | calls + 1 => by
    rw [array, array]
    refine .behind _ fun _ => .bind (value_refines calls) fun _ => ?_
    exact .bind (elements_refines calls) fun _ => .refl _

theorem elements_refines : ∀ calls, Refines (elements limit calls) (elements limit (calls + 1))
  | 0 => fun t => .inl ⟨t, rfl⟩
  | calls + 1 => by
    rw [elements, elements]
    refine .behind _ fun s => ?_
    split
    · exact .refl _
    · exact .bind (value_refines calls) fun _ => .thenPure _ (elements_refines calls)

theorem struct_refines : ∀ calls, Refines (struct limit calls) (struct limit (calls + 1))
  | 0 => fun t => .inl ⟨t, rfl⟩
  | calls + 1 => by
    rw [struct, struct]
    refine .behind _ fun _ => .behind _ fun _ => ?_
    exact .bind (body_refines calls) fun _ => .refl _

theorem body_refines : ∀ calls, Refines (body limit calls) (body limit (calls + 1))
  | 0 => fun t => .inl ⟨t, rfl⟩
  | calls + 1 => by
    rw [body, body]
    refine .behind _ fun s => ?_
    split
    · exact .refl _
    · exact .bind (field_refines calls) fun _ => .thenPure _ (fields_refines calls)

theorem fields_refines : ∀ calls, Refines (fields limit calls) (fields limit (calls + 1))
  | 0 => fun t => .inl ⟨t, rfl⟩
  | calls + 1 => by
    rw [fields, fields]
    refine .behind _ fun s => ?_
    split
    · refine .behind _ fun _ => .bind (field_refines calls) fun _ => ?_
      exact .thenPure _ (fields_refines calls)
    · exact .refl _

theorem field_refines : ∀ calls, Refines (field limit calls) (field limit (calls + 1))
  | 0 => fun t => .inl ⟨t, rfl⟩
  | calls + 1 => by
    rw [field, field]
    exact .behind _ fun _ => .behind _ fun _ => .thenPure _ (value_refines calls)

end

theorem declaration_refines (calls : Nat) :
    Refines (declaration limit calls) (declaration limit (calls + 1)) := by
  rw [declaration, declaration]
  exact .behind _ fun _ => .behind _ fun _ => .thenPure _ (value_refines calls)

theorem items_refines : ∀ calls, Refines (items limit calls) (items limit (calls + 1))
  | 0 => fun t => .inl ⟨t, rfl⟩
  | calls + 1 => by
    rw [items, items]
    refine .behind _ fun s => ?_
    cases s.current.kind with
    | endOfInput => exact .refl _
    | name => exact .bind (declaration_refines calls) fun _ => .thenPure _ (items_refines calls)
    | number | isWord | structWord | openBracket | closeBracket | openBrace | closeBrace | comma
    | equals | openReference | closeReference =>
      exact .bind (value_refines calls) fun _ => .refl _

end Descent

end ConstLang
