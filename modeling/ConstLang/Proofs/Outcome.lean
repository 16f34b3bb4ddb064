/-
Computations that may fail. A sequence of them succeeds if each of them does, `bind_eq_ok_iff`, and
fails with the first error, `bind_eq_error_iff`; what one step of a loop keeps, the loop keeps,
`of_foldlM`, and two loops stay related if their steps do, `exists_foldlM_of_step`. `errorOf?` forgets
the value of a computation and keeps its error, so that the first error of a sequence can be computed,
`errorOf?_bind`. `mapOutcome` maps the value and the error of a computation at once.
-/

namespace ConstLang

section

variable {ε α β : Type}

theorem bind_eq_ok_iff {x : Except ε α} {f : α → Except ε β} {b : β} :
    (x >>= f) = .ok b ↔ ∃ a, x = .ok a ∧ f a = .ok b := by
  cases x with
  | error e => simp [bind, Except.bind]
  | ok a => simp [bind, Except.bind]

@[simp] theorem pure_eq_ok_iff {a b : α} : (pure a : Except ε α) = .ok b ↔ a = b := by
  simp [pure, Except.pure]

theorem bind_eq_error_iff {x : Except ε α} {f : α → Except ε β} {e : ε} :
    (x >>= f) = .error e ↔ x = .error e ∨ ∃ a, x = .ok a ∧ f a = .error e := by
  cases x with
  | error e' => simp [bind, Except.bind]
  | ok a => simp [bind, Except.bind]

/-- A mapped error is an error still. -/
theorem mapError_eq_ok_iff {ε' : Type} {f : ε → ε'} {x : Except ε α} {a : α} :
    x.mapError f = .ok a ↔ x = .ok a := by
  cases x with
  | error e => constructor <;> intro h <;> cases h
  | ok b => constructor <;> intro h <;> cases h <;> rfl

theorem pure_ne_error {a : α} {e : ε} : (pure a : Except ε α) ≠ .error e := by
  simp [pure, Except.pure]

/-- What holds of the result for each element holds of all results. -/
theorem forall_mem_of_mapM {f : α → Except ε β} {P : β → Prop} {as : List α} {bs : List β}
    (h : as.mapM f = .ok bs) (hf : ∀ a ∈ as, ∀ b, f a = .ok b → P b) : ∀ b ∈ bs, P b := by
  induction as generalizing bs with
  | nil =>
    cases h
    simp
  | cons a as ih =>
    simp only [List.mapM_cons, bind_eq_ok_iff, pure_eq_ok_iff] at h
    obtain ⟨b, hb, bs, hbs, rfl⟩ := h
    obtain ⟨ha, has⟩ := List.forall_mem_cons.mp hf
    exact List.forall_mem_cons.mpr ⟨ha b hb, ih hbs has⟩

/-- What each step of a loop keeps holds behind the loop. -/
theorem of_foldlM {f : β → α → Except ε β} {P : β → Prop} {as : List α} {before after : β}
    (h : as.foldlM f before = .ok after) (hb : P before)
    (hf : ∀ a ∈ as, ∀ b b', f b a = .ok b' → P b → P b') : P after := by
  induction as generalizing before with
  | nil =>
    cases h
    exact hb
  | cons a as ih =>
    rw [List.foldlM_cons, bind_eq_ok_iff] at h
    obtain ⟨b, hab, h⟩ := h
    obtain ⟨ha, has⟩ := List.forall_mem_cons.mp hf
    exact ih h (ha before b hab hb) has

/-- A loop that succeeds, and another one that does not fail in steps that begin in related states
and leads to related states then: the other one succeeds too, and they end in related states. -/
theorem exists_foldlM_of_step {γ : Type} {f : β → α → Except ε β} {g : γ → α → Except ε γ}
    {R : β → γ → Prop} {as : List α} {b b' : β} {c : γ} (h : as.foldlM f b = .ok b') (hR : R b c)
    (hstep : ∀ a ∈ as, ∀ b b' c, R b c → f b a = .ok b' → ∃ c', g c a = .ok c' ∧ R b' c') :
    ∃ c', as.foldlM g c = .ok c' ∧ R b' c' := by
  induction as generalizing b c with
  | nil =>
    cases h
    exact ⟨c, rfl, hR⟩
  | cons a as ih =>
    rw [List.foldlM_cons, bind_eq_ok_iff] at h
    obtain ⟨b₁, hb₁, h⟩ := h
    obtain ⟨ha, has⟩ := List.forall_mem_cons.mp hstep
    obtain ⟨c₁, hc₁, hR₁⟩ := ha b b₁ c hR hb₁
    obtain ⟨c', hc', hR'⟩ := ih h hR₁ has
    exact ⟨c', by rw [List.foldlM_cons, hc₁]; exact hc', hR'⟩

end

/-! ## First errors -/

/-- The error of a computation that fails. -/
def errorOf? {ε α : Type} : Except ε α → Option ε
  | .error e => some e
  | .ok _ => none

section

variable {ε α β : Type} {x : Except ε α}

theorem eq_error_iff {e : ε} : x = .error e ↔ errorOf? x = some e := by
  cases x <;> simp [errorOf?]

theorem exists_ok_iff : (∃ a, x = .ok a) ↔ errorOf? x = none := by
  cases x <;> simp [errorOf?]

/-- The second part of a sequence is asked for an error if the first one has none. -/
theorem errorOf?_bind {f : α → Except ε β} {e? : Option ε}
    (h : ∀ a, x = .ok a → errorOf? (f a) = e?) : errorOf? (x >>= f) = (errorOf? x).or e? := by
  cases x with
  | error e => rfl
  | ok a => exact h a rfl

theorem errorOf?_bind_pure (f : α → β) :
    errorOf? (x >>= fun a => pure (f a)) = errorOf? x := by
  cases x <;> rfl

theorem errorOf?_mapM (f : α → Except ε β) (as : List α) :
    errorOf? (as.mapM f) = as.findSome? fun a => errorOf? (f a) := by
  induction as with
  | nil => rfl
  | cons a as ih =>
    rw [List.mapM_cons, errorOf?_bind fun b _ => (errorOf?_bind_pure _).trans ih,
      List.findSome?_cons]
    cases errorOf? (f a) <;> rfl

end

/-! ## Mapped outcomes -/

/-- Both outcomes of a computation, mapped. -/
def mapOutcome {ε δ α β : Type} (onError : ε → δ) (onOk : α → β) : Except ε α → Except δ β
  | .error e => .error (onError e)
  | .ok a => .ok (onOk a)

section

variable {ε δ α β α' β' : Type} {onError : ε → δ}

theorem mapOutcome_eq_ok_iff {onOk : α → α'} {x : Except ε α} {a' : α'} :
    mapOutcome onError onOk x = .ok a' ↔ ∃ a, x = .ok a ∧ onOk a = a' := by
  cases x <;> simp [mapOutcome]

/-- Mapped computations may be sequenced first and mapped then. -/
theorem mapOutcome_bind {onOk : α → α'} {onOk' : β → β'} {next : α → Except ε β}
    {next' : α' → Except δ β'} {x : Except ε α}
    (h : ∀ a, next' (onOk a) = mapOutcome onError onOk' (next a)) :
    mapOutcome onError onOk x >>= next' = mapOutcome onError onOk' (x >>= next) := by
  cases x with
  | error e => rfl
  | ok a => exact h a

theorem mapOutcome_foldlM {onState : β → β'} {onItem : α → α'} {step : β → α → Except ε β}
    {step' : β' → α' → Except δ β'}
    (h : ∀ b a, step' (onState b) (onItem a) = mapOutcome onError onState (step b a))
    (items : List α) (b : β) :
    (items.map onItem).foldlM step' (onState b) =
      mapOutcome onError onState (items.foldlM step b) := by
  induction items generalizing b with
  | nil => rfl
  | cons a items ih =>
    rw [List.map_cons, List.foldlM_cons, List.foldlM_cons, h]
    exact mapOutcome_bind ih

theorem mapOutcome_mapM {onItem : α → α'} {onResult : β → β'} {f : α → Except ε β}
    {f' : α' → Except δ β'} (h : ∀ a, f' (onItem a) = mapOutcome onError onResult (f a))
    (items : List α) :
    (items.map onItem).mapM f' = mapOutcome onError (List.map onResult) (items.mapM f) := by
  induction items with
  | nil => rfl
  | cons a items ih =>
    rw [List.map_cons, List.mapM_cons, List.mapM_cons, h]
    refine mapOutcome_bind fun b => ?_
    rw [ih]
    exact mapOutcome_bind fun _ => rfl

end

end ConstLang
