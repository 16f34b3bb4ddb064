/-
What `==` on values means. A struct looks up each of its fields in the other one; where names are
distinct, that both have as many fields makes this a matching of all fields with all fields,
`equal_iff_matches`. Hence equality is symmetric (`equal_comm`) and does not depend on the order of
fields anywhere (`equal_of_reorders`). It is transitive, and a value equals itself if no NaN stands
in it, `equal_self_iff`.
-/
import Mathlib.Data.List.Forall2
import Mathlib.Data.List.Perm.Subperm
import ConstLang.Proofs.Binary64.Rational
import ConstLang.Proofs.Provenance

namespace ConstLang

namespace Value

/-- Two values match: numbers that are equal as numbers, arrays whose elements are related one by
one, or structs whose fields, in some order of the second one's, have the same names and related
values one by one. -/
inductive Matches (R : Value → Value → Prop) : Value → Value → Prop
  | number {x y : Binary64} (h : x.Equals y) : Matches R (.number x) (.number y)
  | array {us vs : List Value} (h : List.Forall₂ R us vs) : Matches R (.array us) (.array vs)
  | struct {fs gs : Table Value} {matched : List (String × Value)}
      (hp : matched.Perm gs.entries)
      (h : List.Forall₂ (fun f g => f.1 = g.1 ∧ R f.2 g.2) fs.entries matched) :
      Matches R (.struct fs) (.struct gs)

/-- The second value is the first one with the fields of one struct, at some depth, in another
order. -/
inductive Reorders : Value → Value → Prop
  | fields {fs gs : Table Value} (h : fs.entries.Perm gs.entries) :
      Reorders (.struct fs) (.struct gs)
  | element {before after : List Value} {u v : Value} (h : Reorders u v) :
      Reorders (.array (before ++ u :: after)) (.array (before ++ v :: after))
  | field {before after : List (String × Value)} {name : String} {u v : Value}
      (h : Reorders u v) :
      Reorders (.struct ⟨before ++ (name, u) :: after⟩) (.struct ⟨before ++ (name, v) :: after⟩)

/-! ## By shape -/

theorem equalAll_iff {us vs : List Value} :
    equalAll us vs ↔ List.Forall₂ (fun u v => u.equal v = true) us vs := by
  induction us generalizing vs with
  | nil => cases vs <;> simp [equalAll]
  | cons u us ih => cases vs <;> simp [equalAll, ih]

theorem fieldsEqual_iff {fs : List (String × Value)} {gs : Table Value} :
    fieldsEqual fs gs ↔ ∀ f ∈ fs, ∃ v, gs.get? f.1 = some v ∧ f.2.equal v := by
  induction fs with
  | nil => simp [fieldsEqual]
  | cons f fs ih =>
    rw [fieldsEqual, Bool.and_eq_true, ih, List.forall_mem_cons]
    refine and_congr_left fun _ => ?_
    cases gs.get? f.1 <;> simp

/-- How two values are found equal: structs have as many fields, and each field of the first one is
looked up in the second one. -/
inductive Agrees : Value → Value → Prop
  | number {x y : Binary64} (h : x.Equals y) : Agrees (.number x) (.number y)
  | array {us vs : List Value} (h : List.Forall₂ (fun u v => u.equal v = true) us vs) :
      Agrees (.array us) (.array vs)
  | struct {fs gs : Table Value} (hs : fs.size = gs.size)
      (h : ∀ f ∈ fs.entries, ∃ v, gs.get? f.1 = some v ∧ f.2.equal v) :
      Agrees (.struct fs) (.struct gs)

theorem equal_iff_agrees {a b : Value} : a.equal b ↔ a.Agrees b := by
  constructor
  · intro h
    cases a <;> cases b <;> simp only [equal, Bool.and_eq_true, beq_iff_eq] at h
    case number.number x y => exact .number (Binary64.equal_iff_equals.mp h)
    case array.array us vs => exact .array (equalAll_iff.mp h)
    case struct.struct fs gs => exact .struct h.1 (fieldsEqual_iff.mp h.2)
    all_goals cases h
  · intro h
    cases h with
    | number h =>
      rw [equal]
      exact Binary64.equal_iff_equals.mpr h
    | array h =>
      rw [equal]
      exact equalAll_iff.mpr h
    | struct hs h =>
      rw [equal, Bool.and_eq_true, beq_iff_eq]
      exact ⟨hs, fieldsEqual_iff.mpr h⟩

/-! ## Matching fields -/

/-- Related lists are related through what their members are related through. -/
theorem forall₂_comp {α β γ : Type} {R : α → β → Prop} {S : β → γ → Prop} {T : α → γ → Prop}
    {as : List α} {bs : List β} {cs : List γ} (hab : List.Forall₂ R as bs)
    (hbc : List.Forall₂ S bs cs) (h : ∀ a ∈ as, ∀ b c, R a b → S b c → T a c) :
    List.Forall₂ T as cs := by
  induction hab generalizing cs with
  | nil =>
    cases hbc
    exact .nil
  | cons hR _ ih =>
    cases hbc with
    | cons hS hbc =>
      obtain ⟨hhead, htail⟩ := List.forall_mem_cons.mp h
      exact .cons (hhead _ _ hR hS) (ih hbc htail)

theorem exists_of_forall₂ {α β : Type} {R : α → β → Prop} {as : List α} {bs : List β}
    (h : List.Forall₂ R as bs) : (∀ a ∈ as, ∃ b ∈ bs, R a b) ∧ ∀ b ∈ bs, ∃ a ∈ as, R a b := by
  induction h with
  | nil => simp
  | @cons a b as bs hab _ ih =>
    simp only [List.forall_mem_cons, List.exists_mem_cons_iff]
    exact ⟨⟨.inl hab, fun a ha => .inr (ih.1 a ha)⟩, .inl hab, fun b hb => .inr (ih.2 b hb)⟩

/-- The field of a struct that a field of another one is compared with. -/
def partner (gs : Table Value) (f : String × Value) : String × Value :=
  (f.1, (gs.get? f.1).getD f.2)

theorem partner_of_get? {gs : Table Value} {f : String × Value} {v : Value}
    (h : gs.get? f.1 = some v) : partner gs f = (f.1, v) := by
  rw [partner, h, Option.getD_some]

/-- **Looking fields up is matching them.** The fields that are found have distinct names, as those
have that are looked up; there are as many of them as there are fields, so they are all of these. -/
theorem exists_matched {fs gs : Table Value} (hd : fs.keys.Nodup) (hs : fs.size = gs.size)
    (h : ∀ f ∈ fs.entries, ∃ v, gs.get? f.1 = some v ∧ f.2.equal v) :
    ∃ matched, matched.Perm gs.entries ∧
      List.Forall₂ (fun f g => f.1 = g.1 ∧ f.2.equal g.2 = true) fs.entries matched := by
  have hnodup : (fs.entries.map (partner gs)).Nodup := by
    refine .of_map Prod.fst ?_
    rw [List.map_map]
    exact hd
  have hsubset : fs.entries.map (partner gs) ⊆ gs.entries := by
    intro g hg
    obtain ⟨f, hf, rfl⟩ := List.mem_map.mp hg
    obtain ⟨v, hv, -⟩ := h f hf
    rw [partner_of_get? hv]
    exact Table.mem_of_get? hv
  have hlength : gs.entries.length ≤ (fs.entries.map (partner gs)).length := by
    rw [List.length_map]
    exact hs.ge
  refine ⟨_, (hnodup.subperm hsubset).perm_of_length_le hlength, ?_⟩
  rw [List.forall₂_map_right_iff, List.forall₂_same]
  intro f hf
  obtain ⟨v, hv, he⟩ := h f hf
  rw [partner_of_get? hv]
  exact ⟨rfl, he⟩

/-- **Equal values match.** -/
theorem equal_iff_matches {a b : Value} (ha : a.WellFormed) (hb : b.WellFormed) :
    a.equal b ↔ Matches (fun u v => u.equal v = true) a b := by
  rw [equal_iff_agrees]
  constructor
  · intro h
    cases h with
    | number h => exact .number h
    | array h => exact .array h
    | struct hs h =>
      cases ha with
      | struct hd _ =>
        obtain ⟨matched, hp, hmatched⟩ := exists_matched hd hs h
        exact .struct hp hmatched
  · intro h
    cases h with
    | number h => exact .number h
    | array h => exact .array h
    | struct hp h =>
      cases hb with
      | struct hd _ =>
        refine .struct (h.length_eq.trans hp.length_eq) fun f hf => ?_
        obtain ⟨g, hg, hname, he⟩ := (exists_of_forall₂ h).1 f hf
        exact ⟨g.2, hname ▸ Table.get?_of_mem hd (hp.mem_iff.mp hg), he⟩

/-! ## Symmetry, transitivity, reflexivity -/

/-- **Equality is symmetric** where names are distinct. -/
theorem equal_symm {a : Value} (ha : a.WellFormed) {b : Value} (hab : a.equal b) : b.equal a := by
  induction a using Value.induction generalizing b with
  | number x =>
    cases equal_iff_agrees.mp hab with
    | number h => exact equal_iff_agrees.mpr (.number h.symm)
  | array us ih =>
    cases ha with
    | array hwf =>
      cases equal_iff_agrees.mp hab with
      | array h =>
        have hsymm : ∀ u ∈ us, ∀ v, u.equal v → v.equal u :=
          fun u hu v he => ih u hu (hwf u hu) he
        have hflip := ((List.forall₂_and_left _ _).mpr ⟨hsymm, h⟩).imp fun u v he => he.1 v he.2
        exact equal_iff_agrees.mpr (.array hflip.flip)
  | struct fs ih =>
    cases ha with
    | struct hd hwf =>
      cases equal_iff_agrees.mp hab with
      | struct hs h =>
        obtain ⟨matched, hp, hmatched⟩ := exists_matched hd hs h
        refine equal_iff_agrees.mpr (.struct hs.symm fun g hg => ?_)
        obtain ⟨f, hf, hname, he⟩ := (exists_of_forall₂ hmatched).2 g (hp.mem_iff.mpr hg)
        exact ⟨f.2, hname ▸ Table.get?_of_mem hd hf, ih f hf (hwf f hf) he⟩

theorem equal_comm {a b : Value} (ha : a.WellFormed) (hb : b.WellFormed) :
    a.equal b = b.equal a :=
  Bool.eq_iff_iff.mpr ⟨equal_symm ha, equal_symm hb⟩

/-- **Equality is transitive.** -/
theorem equal_trans {a b c : Value} (hab : a.equal b) (hbc : b.equal c) : a.equal c := by
  induction a using Value.induction generalizing b c with
  | number x =>
    cases equal_iff_agrees.mp hab with
    | number hxy =>
      cases equal_iff_agrees.mp hbc with
      | number hyz => exact equal_iff_agrees.mpr (.number (hxy.trans hyz))
  | array us ih =>
    cases equal_iff_agrees.mp hab with
    | array huv =>
      cases equal_iff_agrees.mp hbc with
      | array hvw =>
        have huw := forall₂_comp huv hvw fun u hu _ _ huv hvw => ih u hu huv hvw
        exact equal_iff_agrees.mpr (.array huw)
  | struct fs ih =>
    cases equal_iff_agrees.mp hab with
    | struct hsfg hfg =>
      cases equal_iff_agrees.mp hbc with
      | struct hsgk hgk =>
        refine equal_iff_agrees.mpr (.struct (hsfg.trans hsgk) fun f hf => ?_)
        obtain ⟨v, hv, huv⟩ := hfg f hf
        obtain ⟨w, hw, hvw⟩ := hgk (f.1, v) (Table.mem_of_get? hv)
        exact ⟨w, hw, ih f hf huv hvw⟩

theorem holds_number_iff {x y : Binary64} : Holds x (.number y) ↔ x = y := by
  constructor
  · intro h
    cases h
    rfl
  · intro h
    subst h
    exact .number

theorem holds_array_iff {x : Binary64} {vs : List Value} :
    Holds x (.array vs) ↔ ∃ v ∈ vs, v.Holds x := by
  constructor
  · intro h
    cases h with
    | array hm hv => exact ⟨_, hm, hv⟩
  · intro h
    obtain ⟨v, hm, hv⟩ := h
    exact .array hm hv

theorem holds_struct_iff {x : Binary64} {fs : Table Value} :
    Holds x (.struct fs) ↔ ∃ f ∈ fs.entries, f.2.Holds x := by
  constructor
  · intro h
    cases h with
    | struct hm hv => exact ⟨_, hm, hv⟩
  · intro h
    obtain ⟨f, hm, hv⟩ := h
    exact .struct hm hv

/-- **A value equals itself** if and only if no NaN stands in it. -/
theorem equal_self_iff {a : Value} (ha : a.WellFormed) :
    a.equal a ↔ ∀ x, a.Holds x → x.isNaN = false := by
  induction a using Value.induction with
  | number x =>
    rw [equal, Binary64.equal_iff_equals, Binary64.equals_self_iff]
    simp [holds_number_iff]
  | array vs ih =>
    cases ha with
    | array hwf =>
      rw [equal, equalAll_iff, List.forall₂_same]
      simp only [holds_array_iff]
      constructor
      · intro h x hx
        obtain ⟨v, hm, hv⟩ := hx
        exact (ih v hm (hwf v hm)).mp (h v hm) x hv
      · intro h v hm
        exact (ih v hm (hwf v hm)).mpr fun x hv => h x ⟨v, hm, hv⟩
  | struct fs ih =>
    cases ha with
    | struct hd hwf =>
      rw [equal, Bool.and_eq_true, beq_iff_eq, fieldsEqual_iff]
      simp only [holds_struct_iff]
      constructor
      · intro h x hx
        obtain ⟨f, hm, hf⟩ := hx
        obtain ⟨v, hv, he⟩ := h.2 f hm
        obtain rfl : f.2 = v := Option.some.inj ((Table.get?_of_mem hd hm).symm.trans hv)
        exact (ih f hm (hwf f hm)).mp he x hf
      · refine fun h => ⟨rfl, fun f hm => ⟨f.2, Table.get?_of_mem hd hm, ?_⟩⟩
        exact (ih f hm (hwf f hm)).mpr fun x hf => h x ⟨f, hm, hf⟩

/-! ## Order of fields -/

theorem Reorders.symm {a b : Value} (h : a.Reorders b) : b.Reorders a := by
  induction h with
  | fields hp => exact .fields hp.symm
  | element _ ih => exact .element ih
  | field _ ih => exact .field ih

/-- Reordering fields makes no name come twice. -/
theorem Reorders.wellFormed {a b : Value} (h : a.Reorders b) (ha : a.WellFormed) :
    b.WellFormed := by
  induction h with
  | fields hp =>
    cases ha with
    | struct hd hwf =>
      exact .struct ((hp.map Prod.fst).nodup_iff.mp hd) fun f hf => hwf f (hp.mem_iff.mpr hf)
  | element h ih =>
    cases ha with
    | array hwf =>
      simp only [List.forall_mem_append, List.forall_mem_cons] at hwf
      refine .array ?_
      simp only [List.forall_mem_append, List.forall_mem_cons]
      exact ⟨hwf.1, ih hwf.2.1, hwf.2.2⟩
  | field h ih =>
    cases ha with
    | struct hd hwf =>
      simp only [List.forall_mem_append, List.forall_mem_cons] at hwf
      refine .struct (by simpa [Table.keys] using hd) ?_
      simp only [List.forall_mem_append, List.forall_mem_cons]
      exact ⟨hwf.1, ih hwf.2.1, hwf.2.2⟩

/-- What equals a value equals it with its fields in another order. -/
theorem Reorders.equal_of_equal {a a' b : Value} (h : a.Reorders a') (hab : a.equal b) :
    a'.equal b := by
  induction h generalizing b with
  | fields hp =>
    cases equal_iff_agrees.mp hab with
    | struct hs hfg =>
      refine equal_iff_agrees.mpr (.struct (hp.length_eq.symm.trans hs) fun f hf => ?_)
      exact hfg f (hp.mem_iff.mpr hf)
  | @element before after u v h ih =>
    cases equal_iff_agrees.mp hab with
    | @array _ ws huv =>
      have hrefl : ∀ vs : List Value,
          List.Forall₂ (fun v u => ∀ w, u.equal w = true → v.equal w = true) vs vs :=
        fun vs => List.forall₂_same.mpr fun v _ w hw => hw
      have hstep := List.rel_append (hrefl before) (.cons (fun w => ih) (hrefl after))
      exact equal_iff_agrees.mpr (.array (forall₂_comp hstep huv fun _ _ _ w h hw => h w hw))
  | @field before after name u v h ih =>
    cases equal_iff_agrees.mp hab with
    | struct hs hfg =>
      simp only [List.forall_mem_append, List.forall_mem_cons] at hfg
      obtain ⟨hbefore, ⟨w, hw, hu⟩, hafter⟩ := hfg
      refine equal_iff_agrees.mpr (.struct (by simpa [Table.size] using hs) ?_)
      simp only [List.forall_mem_append, List.forall_mem_cons]
      exact ⟨hbefore, ⟨w, hw, ih hu⟩, hafter⟩

theorem Reorders.equal_eq {a a' : Value} (h : a.Reorders a') (b : Value) :
    a'.equal b = a.equal b :=
  Bool.eq_iff_iff.mpr ⟨h.symm.equal_of_equal, h.equal_of_equal⟩

section

variable {a a' b b' : Value}

theorem wellFormed_of_reorders (h : Relation.ReflTransGen Reorders a a') (ha : a.WellFormed) :
    a'.WellFormed := by
  induction h with
  | refl => exact ha
  | tail _ h ih => exact h.wellFormed ih

theorem equal_left_of_reorders (h : Relation.ReflTransGen Reorders a a') (b : Value) :
    a'.equal b = a.equal b := by
  induction h with
  | refl => rfl
  | tail _ h ih => rw [h.equal_eq, ih]

/-- **The order of fields has no part in equality**, on either side. -/
theorem equal_of_reorders (ha : a.WellFormed) (hb : b.WellFormed)
    (haa : Relation.ReflTransGen Reorders a a') (hbb : Relation.ReflTransGen Reorders b b') :
    a'.equal b' = a.equal b :=
  calc a'.equal b'
    _ = a.equal b' := equal_left_of_reorders haa b'
    _ = b'.equal a := equal_comm ha (wellFormed_of_reorders hbb hb)
    _ = b.equal a := equal_left_of_reorders hbb a
    _ = a.equal b := equal_comm hb ha

end

/-- **Equality up to the order of fields.** Two values are equal if they match: as numbers, element
by element, or field by field in some order. So equality is symmetric and transitive, holds of a
value with itself unless a NaN stands in it, and is not changed by reordering fields at any depth. -/
theorem equal_up_to_order {a b : Value} (ha : a.WellFormed) (hb : b.WellFormed) :
    (a.equal b ↔ Matches (fun u v => u.equal v = true) a b) ∧
    (a.equal b = b.equal a) ∧
    (∀ c : Value, a.equal b → b.equal c → a.equal c) ∧
    (a.equal a ↔ ∀ x, a.Holds x → x.isNaN = false) ∧
    ∀ a' b', Relation.ReflTransGen Reorders a a' → Relation.ReflTransGen Reorders b b' →
      a'.equal b' = a.equal b :=
  ⟨equal_iff_matches ha hb, equal_comm ha hb, fun _ => equal_trans, equal_self_iff ha,
    fun _ _ => equal_of_reorders ha hb⟩

/-- A zero and a negative zero, with the fields in two orders. -/
theorem equal_up_to_order_zeros :
    Matches (fun u v => u.equal v = true)
      (.struct ⟨[("x", .number (.ofBits 0)), ("y", .array [])]⟩)
      (.struct ⟨[("y", .array []), ("x", .number (.ofBits 0x8000000000000000))]⟩) ∧
    equal (.struct ⟨[("y", .array []), ("x", .number (.ofBits 0x8000000000000000))]⟩)
      (.struct ⟨[("x", .number (.ofBits 0)), ("y", .array [])]⟩) := by
  have ha : WellFormed (.struct ⟨[("x", .number (.ofBits 0)), ("y", .array [])]⟩) :=
    .struct (by decide) (by simp [WellFormed.number, WellFormed.array])
  have hb : WellFormed
      (.struct ⟨[("y", .array []), ("x", .number (.ofBits 0x8000000000000000))]⟩) :=
    .struct (by decide) (by simp [WellFormed.number, WellFormed.array])
  obtain ⟨hmatches, hcomm, -⟩ := equal_up_to_order ha hb
  have hequal : equal (.struct ⟨[("x", .number (.ofBits 0)), ("y", .array [])]⟩)
      (.struct ⟨[("y", .array []), ("x", .number (.ofBits 0x8000000000000000))]⟩) := by
    decide +kernel
  exact ⟨hmatches.mp hequal, hcomm ▸ hequal⟩

end Value

end ConstLang
