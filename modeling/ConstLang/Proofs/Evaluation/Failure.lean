/-
Why an evaluation fails. Whatever the options, an expression or a program that has no value is
refused for one of its own names, at the place of that name: `pointsInto_of_evaluate`. The
proof follows the evaluation, and an error comes out of it as it came up in a part.
-/
import ConstLang.Proofs.Evaluation.Success
import ConstLang.Proofs.Program.FromTree

namespace ConstLang

/-- The error is about a name of a program, and carries the name with its place. -/
def Error.PointsAt (e : Error) (l : Label) : Prop :=
  e = .undefinedConstant l.name l.span ∨ e = .duplicateKey l.name l.span ∨
    e = .redeclaredConstant l.name l.span

/-- The error points at one of some labels. -/
def Error.PointsInto (e : Error) (labels : List Label) : Prop := ∃ l ∈ labels, e.PointsAt l

namespace Error.PointsInto

variable {e : Error} {ls ms : List Label}

theorem append_left (h : e.PointsInto ls) : e.PointsInto (ls ++ ms) := by
  obtain ⟨l, hm, hl⟩ := h
  exact ⟨l, List.mem_append_left _ hm, hl⟩

theorem append_right (h : e.PointsInto ms) : e.PointsInto (ls ++ ms) := by
  obtain ⟨l, hm, hl⟩ := h
  exact ⟨l, List.mem_append_right _ hm, hl⟩

theorem cons {l : Label} (h : e.PointsInto ls) : e.PointsInto (l :: ls) := by
  obtain ⟨l', hm, hl⟩ := h
  exact ⟨l', List.mem_cons_of_mem _ hm, hl⟩

end Error.PointsInto

namespace Expr

variable {options : Options} {constants : Table Value} {err : Error}

mutual

/-- An expression is refused for a name in it. -/
theorem pointsInto_of_resolve : ∀ e : Expr, e.resolve options constants = .error err →
    err.PointsInto e.labels
  | .number x, h => by cases h
  | .array elements, h => by
    rw [resolve, bind_eq_error_iff] at h
    rcases h with h | ⟨vs, -, h⟩
    · exact pointsInto_of_resolveAll elements h
    · exact absurd h pure_ne_error
  | .struct fields, h => by
    rw [resolve, bind_eq_error_iff] at h
    rcases h with h | ⟨t, -, h⟩
    · exact pointsInto_of_resolveFields fields h
    · exact absurd h pure_ne_error
  | .reference name span, h => by
    rw [resolve] at h
    split at h
    · cases h
    · cases h
      exact ⟨⟨name, span⟩, List.mem_singleton_self _, .inl rfl⟩

theorem pointsInto_of_resolveAll : ∀ es : List Expr,
    resolveAll options constants es = .error err → err.PointsInto (labelsOfAll es)
  | [], h => by cases h
  | e :: es, h => by
    rw [resolveAll, bind_eq_error_iff] at h
    rcases h with h | ⟨v, -, h⟩
    · exact (pointsInto_of_resolve e h).append_left
    rw [bind_eq_error_iff] at h
    rcases h with h | ⟨vs, -, h⟩
    · exact (pointsInto_of_resolveAll es h).append_right
    · exact absurd h pure_ne_error

theorem pointsInto_of_resolveFields : ∀ (fields : List (Binding Expr)) {before : Table Value},
    resolveFields options constants before fields = .error err →
    err.PointsInto (labelsOfBindings fields)
  | [], before, h => by cases h
  | ⟨name, span, e⟩ :: fields, before, h => by
    rw [resolveFields] at h
    split at h
    · cases h
      exact ⟨⟨name, span⟩, List.mem_cons_self, .inr (.inl rfl)⟩
    rw [bind_eq_error_iff] at h
    rcases h with h | ⟨v, -, h⟩
    · exact (pointsInto_of_resolve e h).append_left.cons
    · exact (pointsInto_of_resolveFields fields h).append_right.cons

end

end Expr

namespace Program

variable {options : Options} {err : Error}

theorem pointsInto_of_declare {constants : Table Value} {d : Binding Expr}
    (h : declare options constants d = .error err) :
    err.PointsInto (⟨d.name, d.span⟩ :: d.value.labels) := by
  rw [declare, bind_eq_error_iff] at h
  rcases h with h | ⟨v, -, h⟩
  · exact (Expr.pointsInto_of_resolve d.value h).cons
  · split at h
    · cases h
      exact ⟨_, List.mem_cons_self, .inr (.inr rfl)⟩
    · exact absurd h pure_ne_error

theorem pointsInto_of_foldlM {ds : List (Binding Expr)} {constants : Table Value}
    (h : ds.foldlM (declare options) constants = .error err) :
    err.PointsInto (Expr.labelsOfBindings ds) := by
  induction ds generalizing constants with
  | nil => exact absurd h pure_ne_error
  | cons d ds ih =>
    rw [List.foldlM_cons, bind_eq_error_iff] at h
    rw [Expr.labelsOfBindings, ← List.cons_append]
    rcases h with h | ⟨t, -, h⟩
    · exact (pointsInto_of_declare h).append_left
    · exact (ih h).append_right

/-- **A program is refused for a name in it.** -/
theorem pointsInto_of_evaluate {p : Program} (h : p.evaluate options = .error err) :
    err.PointsInto p.labels := by
  rw [evaluate, bind_eq_error_iff] at h
  rcases h with h | ⟨t, -, h⟩
  · exact (pointsInto_of_foldlM h).append_left
  rw [bind_eq_error_iff] at h
  rcases h with h | ⟨v, -, h⟩
  · exact (Expr.pointsInto_of_resolve p.main h).append_right
  · exact absurd h pure_ne_error

end Program

end ConstLang
