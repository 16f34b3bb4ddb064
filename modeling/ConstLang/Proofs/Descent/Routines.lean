/-
What every routine of reading by descent yields, in any state that reading may come to. A routine
for a rule of the grammar that gives something has gone further on, and has closed as much as it has
opened; a loop has not gone back. Calls enough are two for each byte that is left, and a few more:
a routine that calls another one in the same state calls none of its own kind there.
-/
import ConstLang.Proofs.Descent.Moves

namespace ConstLang

namespace Descent

variable {limit bytes : Nat} {enough : Prop} {t : Trace}

/-! ## The moves -/

theorem bump_further (ht : t.Sound limit bytes) (hk : t.now.current.kind ≠ .endOfInput) :
    Yields limit bytes enough (fun _ s => Further t.now s) (fun _ => True) (bump t) :=
  (bump_yields ht fun _ _ _ => trivial).mono fun _ _ ⟨_, hp, hd⟩ => ht.now.further hk hp hd

theorem expect_further {kind : Token.Kind} {fault : SyntaxFault} (ht : t.Sound limit bytes)
    (hk : kind ≠ .endOfInput) :
    Yields limit bytes enough (fun _ s => Further t.now s) (fun _ => True)
      (expect kind fault t) :=
  expect_yields ht (fun h => bump_further ht (h ▸ hk)) fun _ => trivial

theorem start_further {kind : Token.Kind} {wanted : String} (ht : t.Sound limit bytes)
    (hk : kind ≠ .endOfInput) :
    Yields limit bytes enough (fun _ s => Further t.now s) (fun _ => True)
      (start kind wanted t) :=
  expect_further ht hk

theorem openWith_yields {kind : Token.Kind} {wanted : String} (ht : t.Sound limit bytes)
    (hk : kind ≠ .endOfInput) :
    Yields limit bytes enough
      (fun _ s => t.now.offset < s.offset ∧ s.depth = t.now.depth + 1) (fun _ => True)
      (openWith limit kind wanted t) := by
  refine .bind (enter_yields ht fun _ => trivial) fun _ t₁ h₁ ⟨hs₁, _⟩ => ?_
  refine (start_further h₁ hk).mono fun _ s hm => ?_
  rw [hs₁] at hm
  exact ⟨hm.offset_lt, hm.depth_eq⟩

theorem leave_shallower {depth : Nat} (ht : t.Sound limit bytes) (hd : t.now.depth = depth + 1) :
    Yields limit bytes enough (fun _ s => s.offset = t.now.offset ∧ s.depth = depth)
      (fun _ => True) (leave t) := by
  refine (leave_yields ht hd).mono fun _ s hs => ?_
  rw [hs]
  exact ⟨rfl, rfl⟩

/-! ## The routines -/

theorem reference_yields (ht : t.Sound limit bytes) :
    Yields limit bytes enough (fun _ s => Further t.now s) (fun _ => True) (reference t) := by
  refine .bind (start_further ht (by decide)) fun _ t₁ h₁ hm₁ => ?_
  refine .bind (expect_further h₁ (by decide)) fun _ t₂ h₂ hm₂ => ?_
  refine .bind (expect_further h₂ (by decide)) fun _ t₃ h₃ hm₃ => .pure h₃ ?_
  exact (hm₁.trans hm₂).trans hm₃

mutual

theorem value_yields : ∀ (calls : Nat) {t : Trace}, t.Sound limit bytes →
    Yields limit bytes (2 * (bytes - t.now.offset) + 2 ≤ calls) (fun _ s => Further t.now s)
      (fun _ => True) (value limit calls t)
  | 0, t, ht => .outOfCalls ht (by omega)
  | calls + 1, t, ht => by
    rw [value, now_bind]
    cases hk : t.now.current.kind with
    | number =>
      exact .bind (bump_further ht (by simp [hk])) fun _ t₁ h₁ hm₁ => .pure h₁ hm₁
    -- What is called stands in the same place, and needs one call less than a value.
    | openBracket => exact (array_yields calls ht).of_enough (by omega)
    | structWord => exact (struct_yields calls ht).of_enough (by omega)
    | openReference => exact reference_yields ht
    | name | isWord | closeBracket | openBrace | closeBrace | comma | equals | closeReference
    | endOfInput => exact refuse_yields ht trivial

theorem array_yields : ∀ (calls : Nat) {t : Trace}, t.Sound limit bytes →
    Yields limit bytes (2 * (bytes - t.now.offset) + 1 ≤ calls) (fun _ s => Further t.now s)
      (fun _ => True) (array limit calls t)
  | 0, t, ht => .outOfCalls ht (by omega)
  | calls + 1, t, ht => by
    rw [array]
    refine .bind (openWith_yields ht (by decide)) fun _ t₁ h₁ ⟨hlt₁, hd₁⟩ => ?_
    have hle₁ := h₁.now.offset_le
    refine .bind ((value_yields calls h₁).of_enough (by omega)) fun _ t₂ h₂ hm₂ => ?_
    have hlt₂ := hm₂.offset_lt
    have hle₂ := h₂.now.offset_le
    refine .bind ((elements_yields calls h₂).of_enough (by omega))
      fun _ t₃ h₃ ⟨hle₃, hd₃, hk₃⟩ => ?_
    refine .bind (bump_further h₃ (by simp [hk₃])) fun _ t₄ h₄ hm₄ => ?_
    have hlt₄ := hm₄.offset_lt
    have hd₄ : t₄.now.depth = t.now.depth + 1 := by
      rw [hm₄.depth_eq, hd₃, hm₂.depth_eq, hd₁]
    refine .bind (leave_shallower h₄ hd₄) fun _ t₅ h₅ ⟨ho₅, hd₅⟩ => .pure h₅ ⟨?_, hd₅⟩
    omega

theorem elements_yields : ∀ (calls : Nat) {t : Trace}, t.Sound limit bytes →
    Yields limit bytes (2 * (bytes - t.now.offset) + 3 ≤ calls)
      (fun _ s => t.now.offset ≤ s.offset ∧ s.depth = t.now.depth ∧
        s.current.kind = .closeBracket)
      (fun _ => True) (elements limit calls t)
  | 0, t, ht => .outOfCalls ht (by omega)
  | calls + 1, t, ht => by
    rw [elements, now_bind]
    split
    · next hk => exact .pure ht ⟨Nat.le_refl _, rfl, hk⟩
    · refine .bind ((value_yields calls ht).of_enough (by omega)) fun _ t₁ h₁ hm₁ => ?_
      -- The value takes up a byte, so there is less left for the next turn.
      have hlt₁ := hm₁.offset_lt
      have hle₁ := h₁.now.offset_le
      refine .bind ((elements_yields calls h₁).of_enough (by omega))
        fun _ t₂ h₂ ⟨hle₂, hd₂, hk₂⟩ => .pure h₂ ⟨by omega, hd₂.trans hm₁.depth_eq, hk₂⟩

theorem struct_yields : ∀ (calls : Nat) {t : Trace}, t.Sound limit bytes →
    Yields limit bytes (2 * (bytes - t.now.offset) + 1 ≤ calls) (fun _ s => Further t.now s)
      (fun _ => True) (struct limit calls t)
  | 0, t, ht => .outOfCalls ht (by omega)
  | calls + 1, t, ht => by
    rw [struct]
    refine .bind (openWith_yields ht (by decide)) fun _ t₁ h₁ ⟨hlt₁, hd₁⟩ => ?_
    refine .bind (expect_further h₁ (by decide)) fun _ t₂ h₂ hm₂ => ?_
    have hlt₂ := hm₂.offset_lt
    have hle₂ := h₂.now.offset_le
    refine .bind ((body_yields calls h₂).of_enough (by omega)) fun _ t₃ h₃ ⟨hle₃, hd₃⟩ => ?_
    refine .bind (expect_further h₃ (by decide)) fun _ t₄ h₄ hm₄ => ?_
    have hlt₄ := hm₄.offset_lt
    have hd₄ : t₄.now.depth = t.now.depth + 1 := by
      rw [hm₄.depth_eq, hd₃, hm₂.depth_eq, hd₁]
    refine .bind (leave_shallower h₄ hd₄) fun _ t₅ h₅ ⟨ho₅, hd₅⟩ => .pure h₅ ⟨?_, hd₅⟩
    omega

theorem body_yields : ∀ (calls : Nat) {t : Trace}, t.Sound limit bytes →
    Yields limit bytes (2 * (bytes - t.now.offset) + 2 ≤ calls)
      (fun _ s => t.now.offset ≤ s.offset ∧ s.depth = t.now.depth)
      (fun _ => True) (body limit calls t)
  | 0, t, ht => .outOfCalls ht (by omega)
  | calls + 1, t, ht => by
    rw [body, now_bind]
    split
    · exact .pure ht ⟨Nat.le_refl _, rfl⟩
    · refine .bind ((field_yields calls ht).of_enough (by omega)) fun _ t₁ h₁ hm₁ => ?_
      have hlt₁ := hm₁.offset_lt
      have hle₁ := h₁.now.offset_le
      refine .bind ((fields_yields calls h₁).of_enough (by omega))
        fun _ t₂ h₂ ⟨hle₂, hd₂⟩ => .pure h₂ ⟨by omega, hd₂.trans hm₁.depth_eq⟩

theorem fields_yields : ∀ (calls : Nat) {t : Trace}, t.Sound limit bytes →
    Yields limit bytes (2 * (bytes - t.now.offset) + 1 ≤ calls)
      (fun _ s => t.now.offset ≤ s.offset ∧ s.depth = t.now.depth)
      (fun _ => True) (fields limit calls t)
  | 0, t, ht => .outOfCalls ht (by omega)
  | calls + 1, t, ht => by
    rw [fields, now_bind]
    split
    · next hk =>
      refine .bind (bump_further ht (by simp [hk])) fun _ t₁ h₁ hm₁ => ?_
      have hlt₁ := hm₁.offset_lt
      have hle₁ := h₁.now.offset_le
      refine .bind ((field_yields calls h₁).of_enough (by omega)) fun _ t₂ h₂ hm₂ => ?_
      have hlt₂ := hm₂.offset_lt
      have hle₂ := h₂.now.offset_le
      refine .bind ((fields_yields calls h₂).of_enough (by omega))
        fun _ t₃ h₃ ⟨hle₃, hd₃⟩ => .pure h₃ ⟨by omega, ?_⟩
      rw [hd₃, hm₂.depth_eq, hm₁.depth_eq]
    · exact .pure ht ⟨Nat.le_refl _, rfl⟩

theorem field_yields : ∀ (calls : Nat) {t : Trace}, t.Sound limit bytes →
    Yields limit bytes (2 * (bytes - t.now.offset) + 1 ≤ calls) (fun _ s => Further t.now s)
      (fun _ => True) (field limit calls t)
  | 0, t, ht => .outOfCalls ht (by omega)
  | calls + 1, t, ht => by
    rw [field]
    refine .bind (expect_further ht (by decide)) fun _ t₁ h₁ hm₁ => ?_
    refine .bind (expect_further h₁ (by decide)) fun _ t₂ h₂ hm₂ => ?_
    have hlt := (hm₁.trans hm₂).offset_lt
    have hle₂ := h₂.now.offset_le
    refine .bind ((value_yields calls h₂).of_enough (by omega)) fun _ t₃ h₃ hm₃ => .pure h₃ ?_
    exact (hm₁.trans hm₂).trans hm₃

end

theorem declaration_yields (calls : Nat) (ht : t.Sound limit bytes) :
    Yields limit bytes (2 * (bytes - t.now.offset) + 2 ≤ calls) (fun _ s => Further t.now s)
      (fun _ => True) (declaration limit calls t) := by
  refine .bind (start_further ht (by decide)) fun _ t₁ h₁ hm₁ => ?_
  refine .bind (expect_further h₁ (by decide)) fun _ t₂ h₂ hm₂ => ?_
  have hlt := (hm₁.trans hm₂).offset_lt
  have hle₂ := h₂.now.offset_le
  refine .bind ((value_yields calls h₂).of_enough (by omega)) fun _ t₃ h₃ hm₃ => .pure h₃ ?_
  exact (hm₁.trans hm₂).trans hm₃

theorem items_yields : ∀ (calls : Nat) {t : Trace}, t.Sound limit bytes →
    Yields limit bytes (2 * (bytes - t.now.offset) + 3 ≤ calls)
      (fun _ s => s.depth = t.now.depth) (fun _ => True) (items limit calls t)
  | 0, t, ht => .outOfCalls ht (by omega)
  | calls + 1, t, ht => by
    rw [items, now_bind]
    cases hk : t.now.current.kind with
    | endOfInput => exact .pure ht rfl
    | name =>
      refine .bind ((declaration_yields calls ht).of_enough (by omega)) fun _ t₁ h₁ hm₁ => ?_
      have hlt₁ := hm₁.offset_lt
      have hle₁ := h₁.now.offset_le
      refine .bind ((items_yields calls h₁).of_enough (by omega)) fun _ t₂ h₂ hd₂ => .pure h₂ ?_
      exact hd₂.trans hm₁.depth_eq
    | number | isWord | structWord | openBracket | closeBracket | openBrace | closeBrace | comma
    | equals | openReference | closeReference =>
      refine .bind ((value_yields calls ht).of_enough (by omega)) fun _ t₁ h₁ hm₁ => ?_
      refine .bind (expect_yields h₁ (fun _ => bump_yields h₁ fun _ _ _ => trivial)
        fun _ => trivial) fun _ t₂ h₂ ⟨_, _, hd₂⟩ => .pure h₂ (hd₂.trans hm₁.depth_eq)

end Descent

end ConstLang
