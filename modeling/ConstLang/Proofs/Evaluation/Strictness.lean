/-
Strict against lenient evaluation. `Restricts` relates their outcomes: the strict one is the
lenient one, or it refuses a name that comes again. It holds of whole programs because it holds
of their parts and is kept by sequencing, `Restricts.bind`. `evaluate_strict_iff_lenient`: strict
evaluation gives the same values, to exactly the programs in which no name comes again.
-/
import ConstLang.Proofs.Evaluation.Success

namespace ConstLang

/-- Only a strict evaluation reports such an error: a name comes again. -/
def Error.IsRepetition (e : Error) : Prop :=
  ∃ name span, e = .duplicateKey name span ∨ e = .redeclaredConstant name span

/-- The first outcome is the second one, or a repetition is refused. -/
def Restricts {α : Type} (strict lenient : Except Error α) : Prop :=
  strict = lenient ∨ ∃ e : Error, e.IsRepetition ∧ strict = .error e

namespace Restricts

variable {α β : Type}

theorem refl (x : Except Error α) : Restricts x x := .inl rfl

theorem of_duplicateKey (name : String) (span : Span) (x : Except Error α) :
    Restricts (.error (.duplicateKey name span)) x := .inr ⟨_, ⟨name, span, .inl rfl⟩, rfl⟩

theorem of_redeclaredConstant (name : String) (span : Span) (x : Except Error α) :
    Restricts (.error (.redeclaredConstant name span)) x := .inr ⟨_, ⟨name, span, .inr rfl⟩, rfl⟩

theorem bind {x y : Except Error α} {f g : α → Except Error β} (h : Restricts x y)
    (hf : ∀ a, Restricts (f a) (g a)) : Restricts (x >>= f) (y >>= g) := by
  rcases h with rfl | ⟨e, he, rfl⟩
  · cases x with
    | error e => exact .refl _
    | ok a => exact hf a
  · exact .inr ⟨e, he, rfl⟩

end Restricts

/-- The names of the bindings are distinct, and none of them is in the table. -/
def Fresh {α β : Type} (bindings : List (Binding α)) (t : Table β) : Prop :=
  (bindings.map Binding.name).Nodup ∧ ∀ b ∈ bindings, b.name ∉ t.keys

theorem fresh_cons_iff {α β : Type} {b : Binding α} {bs : List (Binding α)} {t : Table β} (v : β) :
    Fresh (b :: bs) t ↔ b.name ∉ t.keys ∧ Fresh bs (t.insert b.name v) := by
  simp only [Fresh, List.map_cons, List.nodup_cons, List.forall_mem_cons, List.mem_map,
    Table.mem_keys_insert_iff, not_or]
  constructor
  · intro h
    obtain ⟨⟨hb, hd⟩, hname, hbs⟩ := h
    exact ⟨hname, hd, fun c hc => ⟨hbs c hc, fun he => hb ⟨c, hc, he⟩⟩⟩
  · intro h
    obtain ⟨hname, hd, hbs⟩ := h
    refine ⟨⟨?_, hd⟩, hname, fun c hc => (hbs c hc).1⟩
    rintro ⟨c, hc, he⟩
    exact (hbs c hc).2 he

theorem fresh_empty_iff {α β : Type} {bindings : List (Binding α)} :
    Fresh bindings ({} : Table β) ↔ (bindings.map Binding.name).Nodup := by
  simp [Fresh, Table.keys]

namespace Expr

/-- No struct in the expression has two fields of one name. -/
inductive DistinctKeys : Expr → Prop
  | number (x : Binary64) : DistinctKeys (.number x)
  | array {elements : List Expr} (he : ∀ e ∈ elements, DistinctKeys e) :
      DistinctKeys (.array elements)
  | struct {fields : List (Binding Expr)} (hd : (fields.map Binding.name).Nodup)
      (hf : ∀ f ∈ fields, DistinctKeys f.value) : DistinctKeys (.struct fields)
  | reference (name : String) (span : Span) : DistinctKeys (.reference name span)

section

variable (constants : Table Value)

mutual

/-- Strict resolving restricts lenient resolving. -/
theorem restricts_resolve :
    ∀ e : Expr, Restricts (e.resolve ⟨true⟩ constants) (e.resolve ⟨false⟩ constants)
  | .number _ => .refl _
  | .array elements => (restricts_resolveAll elements).bind fun _ => .refl _
  | .struct fields => (restricts_resolveFields {} fields).bind fun _ => .refl _
  | .reference _ _ => .refl _

theorem restricts_resolveAll :
    ∀ es : List Expr,
      Restricts (resolveAll ⟨true⟩ constants es) (resolveAll ⟨false⟩ constants es)
  | [] => .refl _
  | e :: es =>
    (restricts_resolve e).bind fun _ => (restricts_resolveAll es).bind fun _ => .refl _

theorem restricts_resolveFields :
    ∀ (before : Table Value) (fields : List (Binding Expr)),
      Restricts (resolveFields ⟨true⟩ constants before fields)
        (resolveFields ⟨false⟩ constants before fields)
  | before, [] => .refl _
  | before, ⟨name, span, e⟩ :: fields => by
    simp only [resolveFields, Bool.true_and, Bool.false_and, Bool.false_eq_true, if_false]
    -- A key is looked at in front of its value: a repetition hides what is wrong with the value.
    split
    · exact .of_duplicateKey name span _
    · exact (restricts_resolve e).bind fun v =>
        restricts_resolveFields (before.insert name v) fields

end

mutual

/-- Where no key comes again, there is nothing to refuse. -/
theorem resolve_strict_eq : ∀ e : Expr, e.DistinctKeys →
    e.resolve ⟨true⟩ constants = e.resolve ⟨false⟩ constants
  | .number x, h => rfl
  | .array elements, h => by
    cases h with
    | array he => simp only [resolve, resolveAll_strict_eq elements he]
  | .struct fields, h => by
    cases h with
    | struct hd hf =>
      simp only [resolve, resolveFields_strict_eq {} fields (fresh_empty_iff.mpr hd) hf]
  | .reference name span, h => rfl

theorem resolveAll_strict_eq : ∀ es : List Expr, (∀ e ∈ es, e.DistinctKeys) →
    resolveAll ⟨true⟩ constants es = resolveAll ⟨false⟩ constants es
  | [], h => rfl
  | e :: es, h => by
    obtain ⟨he, hes⟩ := List.forall_mem_cons.mp h
    simp only [resolveAll, resolve_strict_eq e he, resolveAll_strict_eq es hes]

theorem resolveFields_strict_eq : ∀ (before : Table Value) (fields : List (Binding Expr)),
    Fresh fields before → (∀ f ∈ fields, f.value.DistinctKeys) →
    resolveFields ⟨true⟩ constants before fields = resolveFields ⟨false⟩ constants before fields
  | before, [], hd, h => rfl
  | before, ⟨name, span, e⟩ :: fields, hd, h => by
    obtain ⟨he, hfields⟩ := List.forall_mem_cons.mp h
    have hrest := fun v => ((fresh_cons_iff v).mp hd).2
    have hnew : before.contains name = false :=
      Table.contains_eq_false_iff.mpr (hd.2 _ List.mem_cons_self)
    simp only [resolveFields, hnew, Bool.and_false, resolve_strict_eq e he,
      fun v => resolveFields_strict_eq (before.insert name v) fields (hrest v) hfields]

end

mutual

/-- What resolves strictly has no key that comes again. -/
theorem distinctKeys_of_resolve : ∀ (e : Expr) {v : Value},
    e.resolve ⟨true⟩ constants = .ok v → e.DistinctKeys
  | .number x, v, h => .number x
  | .array elements, v, h => by
    obtain ⟨vs, hvs, -⟩ := resolve_array_eq_ok_iff.mp h
    exact .array (distinctKeys_of_resolveAll elements hvs)
  | .struct fields, v, h => by
    obtain ⟨t, ht, -⟩ := resolve_struct_eq_ok_iff.mp h
    obtain ⟨hd, hf⟩ := distinctKeys_of_resolveFields fields ht
    exact .struct (fresh_empty_iff.mp hd) hf
  | .reference name span, v, h => .reference name span

theorem distinctKeys_of_resolveAll : ∀ (es : List Expr) {vs : List Value},
    resolveAll ⟨true⟩ constants es = .ok vs → ∀ e ∈ es, e.DistinctKeys
  | [], vs, h => by simp
  | e :: es, vs, h => by
    obtain ⟨v, hv, ws, hws, -⟩ := resolveAll_cons_eq_ok_iff.mp h
    exact List.forall_mem_cons.mpr
      ⟨distinctKeys_of_resolve e hv, distinctKeys_of_resolveAll es hws⟩

theorem distinctKeys_of_resolveFields : ∀ (fields : List (Binding Expr))
    {before after : Table Value}, resolveFields ⟨true⟩ constants before fields = .ok after →
    Fresh fields before ∧ ∀ f ∈ fields, f.value.DistinctKeys
  | [], before, after, h => by simp [Fresh]
  | ⟨name, span, e⟩ :: fields, before, after, h => by
    obtain ⟨hnew, v, hv, hs⟩ := resolveFields_cons_eq_ok_iff.mp h
    rw [Bool.true_and, Table.contains_eq_false_iff] at hnew
    obtain ⟨hd, hf⟩ := distinctKeys_of_resolveFields fields hs
    exact ⟨(fresh_cons_iff v).mpr ⟨hnew, hd⟩,
      List.forall_mem_cons.mpr ⟨distinctKeys_of_resolve e hv, hf⟩⟩

end

end

end Expr

namespace Program

/-- No name is declared twice, and no struct has two fields of one name. -/
structure DistinctNames (p : Program) : Prop where
  declared : (p.declarations.map Binding.name).Nodup
  values : ∀ d ∈ p.declarations, d.value.DistinctKeys
  main : p.main.DistinctKeys

theorem restricts_declare (constants : Table Value) (d : Binding Expr) :
    Restricts (declare ⟨true⟩ constants d) (declare ⟨false⟩ constants d) := by
  refine (Expr.restricts_resolve constants d.value).bind fun v => ?_
  -- A constant's name is looked at only when it has a value.
  simp only [Bool.true_and, Bool.false_and, Bool.false_eq_true, if_false]
  split
  · exact .of_redeclaredConstant d.name d.span _
  · exact .refl _

theorem restricts_foldlM (ds : List (Binding Expr)) (constants : Table Value) :
    Restricts (ds.foldlM (declare ⟨true⟩) constants) (ds.foldlM (declare ⟨false⟩) constants) := by
  induction ds generalizing constants with
  | nil => exact .refl _
  | cons d ds ih =>
    rw [List.foldlM_cons, List.foldlM_cons]
    exact (restricts_declare constants d).bind ih

theorem restricts_evaluate (p : Program) : Restricts (p.evaluate ⟨true⟩) (p.evaluate ⟨false⟩) :=
  (restricts_foldlM p.declarations {}).bind fun constants =>
    (Expr.restricts_resolve constants p.main).bind fun _ => .refl _

theorem foldlM_strict_eq {ds : List (Binding Expr)} {constants : Table Value}
    (hd : Fresh ds constants) (hv : ∀ d ∈ ds, d.value.DistinctKeys) :
    ds.foldlM (declare ⟨true⟩) constants = ds.foldlM (declare ⟨false⟩) constants := by
  induction ds generalizing constants with
  | nil => rfl
  | cons d ds ih =>
    obtain ⟨hdv, hdsv⟩ := List.forall_mem_cons.mp hv
    have hnew : constants.contains d.name = false :=
      Table.contains_eq_false_iff.mpr (hd.2 d List.mem_cons_self)
    simp only [List.foldlM_cons, declare, hnew, Bool.and_false, Bool.false_eq_true, if_false,
      Expr.resolve_strict_eq constants d.value hdv]
    cases d.value.resolve ⟨false⟩ constants with
    | error e => rfl
    | ok v => exact ih ((fresh_cons_iff v).mp hd).2 hdsv

theorem evaluate_strict_eq {p : Program} (h : p.DistinctNames) :
    p.evaluate ⟨true⟩ = p.evaluate ⟨false⟩ := by
  simp only [evaluate, foldlM_strict_eq (fresh_empty_iff.mpr h.declared) h.values,
    fun constants => Expr.resolve_strict_eq constants p.main h.main]

theorem distinctKeys_of_foldlM {ds : List (Binding Expr)} {constants after : Table Value}
    (h : ds.foldlM (declare ⟨true⟩) constants = .ok after) :
    Fresh ds constants ∧ ∀ d ∈ ds, d.value.DistinctKeys := by
  induction ds generalizing constants with
  | nil => simp [Fresh]
  | cons d ds ih =>
    rw [List.foldlM_cons, bind_eq_ok_iff] at h
    obtain ⟨t, ht, h⟩ := h
    obtain ⟨v, hv, hnew, rfl⟩ := declare_eq_ok_iff.mp ht
    rw [Bool.true_and, Table.contains_eq_false_iff] at hnew
    obtain ⟨hd, hds⟩ := ih h
    exact ⟨(fresh_cons_iff v).mpr ⟨hnew, hd⟩,
      List.forall_mem_cons.mpr ⟨Expr.distinctKeys_of_resolve constants d.value hv, hds⟩⟩

theorem distinctNames_of_evaluate {p : Program} {e : Evaluation}
    (h : p.evaluate ⟨true⟩ = .ok e) : p.DistinctNames := by
  obtain ⟨hdecl, hmain⟩ := evaluate_eq_ok_iff.mp h
  obtain ⟨hd, hv⟩ := distinctKeys_of_foldlM hdecl
  exact ⟨fresh_empty_iff.mp hd, hv, Expr.distinctKeys_of_resolve _ p.main hmain⟩

/-- **Strictness only refuses.** A strict evaluation gives what a lenient one gives if no name
comes again, and nothing else. A constant that is missing in the strict evaluation is missing
in the lenient one; what is wrong in the lenient one is wrong in the strict one, unless a name
that comes again is met before. Without such a name the two agree, also in their errors. -/
theorem evaluate_strict_iff_lenient (p : Program) :
    (∀ e, p.evaluate ⟨true⟩ = .ok e ↔ p.evaluate ⟨false⟩ = .ok e ∧ p.DistinctNames) ∧
    (∀ name span, p.evaluate ⟨true⟩ = .error (.undefinedConstant name span) →
      p.evaluate ⟨false⟩ = .error (.undefinedConstant name span)) ∧
    (∀ u, p.evaluate ⟨false⟩ = .error u →
      ∃ u', p.evaluate ⟨true⟩ = .error u' ∧ (u' = u ∨ u'.IsRepetition)) ∧
    (p.DistinctNames → p.evaluate ⟨true⟩ = p.evaluate ⟨false⟩) := by
  refine ⟨fun e => ⟨fun h => ?_, fun h => ?_⟩, fun name span h => ?_, fun u h => ?_,
    evaluate_strict_eq⟩
  · have hdistinct := distinctNames_of_evaluate h
    exact ⟨evaluate_strict_eq hdistinct ▸ h, hdistinct⟩
  · rw [evaluate_strict_eq h.2]
    exact h.1
  · rcases p.restricts_evaluate with heq | ⟨e, ⟨name', span', he⟩, herr⟩
    · exact heq ▸ h
    · rw [h] at herr
      rcases he with rfl | rfl <;> cases herr
  · rcases p.restricts_evaluate with heq | ⟨e, he, herr⟩
    · exact ⟨u, heq.trans h, .inl rfl⟩
    · exact ⟨e, herr, .inr he⟩

end Program

end ConstLang
