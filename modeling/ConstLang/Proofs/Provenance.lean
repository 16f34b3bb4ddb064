/-
What a compiled value is made of. `Value.MadeOf tokens` says that no array is empty, that the keys
of a struct are distinct, and that every key and every number is read from one of the tokens,
at every depth. Trees read off such expressions (`Expr.madeOf_ofTree`), resolving keeps the property,
also where it copies a constant into a container (`Expr.madeOf_resolve`), and so do declarations,
`Program.madeOf_foldlM`. What the tokens of a text are spelled like then holds of every value:
`compile_madeOf`.
-/
import ConstLang.Proofs.Evaluation.Success
import ConstLang.Proofs.Json.RoundTrip
import ConstLang.Proofs.Places
import ConstLang.Proofs.Program.Success

namespace ConstLang

/-! ## Names and numbers of tokens -/

/-- The name is the text of a name token. -/
def IsNameOf (tokens : List Token) (name : String) : Prop :=
  ∃ t ∈ tokens, t.kind = .name ∧ t.text = name

/-- The number is read from the text of a number token. -/
def IsNumberOf (tokens : List Token) (x : Binary64) : Prop :=
  ∃ t ∈ tokens, t.kind = .number ∧ Numeral.read t.text = .ok x

/-- Letters and underscores, at least one, that are no keyword; in JSON nothing is escaped. -/
structure IsPlain (name : String) : Prop where
  ne_empty : name ≠ ""
  isWordChar : ∀ c ∈ name.toList, isWordChar c
  ne_is : name ≠ "is"
  ne_struct : name ≠ "struct"
  writeString_eq : Json.writeString name = '"' :: (name.toList ++ ['"'])

/-- No character of a word is escaped: all of them are behind the control characters, and neither
a quote nor a backslash is one. -/
theorem Json.escape_of_isWordChar {c : Char} (hc : ConstLang.isWordChar c) : escape c = [c] := by
  have hcontrol : ¬ c.toNat < 0x20 := by
    intro hlt
    have hle : c.val < 'A'.val := UInt32.lt_iff_toNat_lt.mpr (Nat.lt_trans hlt (by decide))
    simp only [ConstLang.isWordChar, Bool.or_eq_true, beq_iff_eq, Char.isAlpha] at hc
    rcases hc with rfl | hupper | hlower
    · exact absurd hlt (by decide)
    · exact absurd (of_decide_eq_true hupper).1 (UInt32.not_le.mpr hle)
    · have hge := of_decide_eq_true (Bool.and_eq_true_iff.mp hlower).1
      exact absurd (UInt32.le_trans (by decide) hge) (UInt32.not_le.mpr hle)
  refine escape_eq_self_iff.mpr ⟨?_, ?_, hcontrol⟩
  all_goals
    rintro rfl
    exact absurd hc (by decide)

theorem Json.writeString_of_isWordChar {name : String}
    (h : ∀ c ∈ name.toList, ConstLang.isWordChar c) :
    writeString name = '"' :: (name.toList ++ ['"']) := by
  have hescape : name.toList.flatMap escape = name.toList.flatMap fun c => [c] :=
    List.flatMap_congr fun c hc => escape_of_isWordChar (h c hc)
  rw [writeString, hescape, List.flatMap_singleton']

section

variable {text : String}

/-- The names of a text are plain. -/
theorem isPlain_of_isNameOf {name : String} (h : IsNameOf (TokenStream.ofText text).tokens name) :
    IsPlain name := by
  obtain ⟨t, hm, hk, rfl⟩ := h
  obtain ⟨front, x, back, hspells, ht, -⟩ := exists_split_of_mem_tokens hm
  have htext : t.text.toList = x := by
    rw [ht]
    exact String.toList_ofList
  rw [hk] at hspells
  subst htext
  cases hspells with
  | name hne hx his hstruct =>
    exact ⟨fun h => hne (by rw [h]; rfl), hx, fun h => his (by rw [h]; rfl),
      fun h => hstruct (by rw [h]; rfl), Json.writeString_of_isWordChar hx⟩

/-- Rounding to nearest gives a number or infinity. -/
theorem Binary64.magnitude_ofRatio_le (s : Bool) (n d : Nat) :
    (ofRatio s n d).magnitude ≤ infinityMagnitude := Nat.min_le_right _ _

/-- A number that a text writes has no sign, and is infinite if it is not finite: it is no NaN. -/
theorem unsigned_of_isNumberOf {x : Binary64} (h : IsNumberOf (TokenStream.ofText text).tokens x) :
    x.negative = false ∧ x.isNaN = false ∧ (x.isFinite = false ↔ x = .infinity false) := by
  obtain ⟨t, hm, hk, hx⟩ := h
  obtain ⟨front, y, back, hspells, ht, -⟩ := exists_split_of_mem_tokens hm
  rw [hk] at hspells
  cases hspells with
  | @number whole fraction hw hne hf =>
    have htext : t.text = String.ofList (whole ++ '.' :: fraction) := by rw [ht]; rfl
    rw [htext, Numeral.read_pointed hw hf hne] at hx
    obtain rfl := Except.ok.inj hx
    have hle := Binary64.magnitude_ofRatio_le false
      (Numeral.ofDigits (whole ++ fraction) * Nat.pow 10 (-(fraction.length : Int)).toNat)
      (Nat.pow 10 (- -(fraction.length : Int)).toNat)
    refine ⟨rfl, decide_eq_false (Nat.not_lt.mpr hle), fun hfin => ?_, fun h => by rw [h]; rfl⟩
    exact Binary64.ext rfl (Nat.le_antisymm hle (Nat.not_lt.mp (of_decide_eq_false hfin)))

end

/-! ## Expressions -/

/-- What an expression says is read from tokens, and none of its arrays is empty. -/
inductive Expr.MadeOf (tokens : List Token) : Expr → Prop
  | number {x : Binary64} (hx : IsNumberOf tokens x) : MadeOf tokens (.number x)
  | array {elements : List Expr} (hne : elements ≠ []) (he : ∀ e ∈ elements, MadeOf tokens e) :
      MadeOf tokens (.array elements)
  | struct {fields : List (Binding Expr)} (hn : ∀ f ∈ fields, IsNameOf tokens f.name)
      (hf : ∀ f ∈ fields, MadeOf tokens f.value) : MadeOf tokens (.struct fields)
  | reference {name : String} {span : Span} : MadeOf tokens (.reference name span)

namespace Expr

variable {tokens : List Token}

mutual

/-- **The expression of a tree** is made of the tokens of the tree. -/
theorem madeOf_ofTree : ∀ (tree : Tree) {e : Expr}, ofTree tree = .ok e →
    (∀ t ∈ tree.leaves, t ∈ tokens) → e.MadeOf tokens
  | .number token, e, h, hl => by
    obtain ⟨x, hx, rfl⟩ := ofTree_number_eq_ok_iff.mp h
    exact .number ⟨token, hl token List.mem_cons_self, Token.toNumber_eq_ok_iff.mp hx⟩
  | .array opening elements closing, e, h, hl => by
    obtain ⟨hne, es, hes, rfl⟩ := ofTree_array_eq_ok_iff.mp h
    simp only [Tree.leaves, List.forall_mem_cons, List.forall_mem_append] at hl
    obtain ⟨hnonempty, hall⟩ := madeOf_ofTrees elements hes hl.2.1
    exact .array (hnonempty hne) hall
  | .struct keyword opening fields closing, e, h, hl => by
    obtain ⟨bs, hbs, rfl⟩ := ofTree_struct_eq_ok_iff.mp h
    simp only [Tree.leaves, List.forall_mem_cons, List.forall_mem_append] at hl
    obtain ⟨hn, hf⟩ := madeOf_ofFields fields hbs hl.2.2.1
    exact .struct hn hf
  | .reference opening name closing, e, h, hl => by
    obtain ⟨label, -, rfl⟩ := ofTree_reference_eq_ok_iff.mp h
    exact .reference

theorem madeOf_ofTrees : ∀ (trees : List Tree) {es : List Expr}, ofTrees trees = .ok es →
    (∀ t ∈ Tree.leavesOfAll trees, t ∈ tokens) →
      (trees ≠ [] → es ≠ []) ∧ ∀ e ∈ es, e.MadeOf tokens
  | [], es, h, hl => by
    cases h
    exact ⟨fun hne => absurd rfl hne, by simp⟩
  | tree :: trees, es, h, hl => by
    obtain ⟨e, he, es', hes, rfl⟩ := ofTrees_cons_eq_ok_iff.mp h
    obtain ⟨hltree, hltrees⟩ := List.forall_mem_append.mp hl
    refine ⟨fun _ => List.cons_ne_nil _ _, List.forall_mem_cons.mpr ⟨?_, ?_⟩⟩
    · exact madeOf_ofTree tree he hltree
    · exact (madeOf_ofTrees trees hes hltrees).2

theorem madeOf_ofFields : ∀ (fields : List (Tree.Field Tree)) {bs : List (Binding Expr)},
    ofFields fields = .ok bs → (∀ t ∈ Tree.leavesOfFields fields, t ∈ tokens) →
      (∀ b ∈ bs, IsNameOf tokens b.name) ∧ ∀ b ∈ bs, b.value.MadeOf tokens
  | [], bs, h, hl => by
    cases h
    simp
  | ⟨comma, name, equals, value⟩ :: fields, bs, h, hl => by
    obtain ⟨label, hlabel, e, he, bs', hbs, rfl⟩ := ofFields_cons_eq_ok_iff.mp h
    simp only [Tree.leavesOfFields, List.forall_mem_append, List.forall_mem_cons] at hl
    obtain ⟨-, hname, -, hlvalue, hlfields⟩ := hl
    obtain ⟨hn, hf⟩ := madeOf_ofFields fields hbs hlfields
    exact ⟨List.forall_mem_cons.mpr ⟨⟨name, hname, Token.toName_eq_ok_iff.mp hlabel⟩, hn⟩,
      List.forall_mem_cons.mpr ⟨madeOf_ofTree value he hlvalue, hf⟩⟩

end

end Expr

/-! ## Values -/

/-- A value without empty arrays and without repeated keys, all of it read from tokens. -/
inductive Value.MadeOf (tokens : List Token) : Value → Prop
  | number {x : Binary64} (hx : IsNumberOf tokens x) : MadeOf tokens (.number x)
  | array {elements : List Value} (hne : elements ≠ []) (he : ∀ v ∈ elements, MadeOf tokens v) :
      MadeOf tokens (.array elements)
  | struct {fields : Table Value} (hd : fields.keys.Nodup)
      (hn : ∀ f ∈ fields.entries, IsNameOf tokens f.1)
      (hf : ∀ f ∈ fields.entries, MadeOf tokens f.2) : MadeOf tokens (.struct fields)

namespace Value

variable {tokens : List Token} {t : Table Value} {name : String} {v : Value}

theorem madeOf_empty : (Value.struct {}).MadeOf tokens :=
  .struct List.nodup_nil (by simp) (by simp)

theorem MadeOf.insert (ht : (Value.struct t).MadeOf tokens) (hname : IsNameOf tokens name)
    (hv : v.MadeOf tokens) : (Value.struct (t.insert name v)).MadeOf tokens := by
  cases ht with
  | struct hd hn hf =>
    refine .struct (Table.nodup_keys_insert hd name v) ?_ ?_
    · exact (Table.forall_mem_insert_iff hd _).mpr ⟨hname, fun f hm _ => hn f hm⟩
    · exact (Table.forall_mem_insert_iff hd _).mpr ⟨hv, fun f hm _ => hf f hm⟩

theorem MadeOf.get (ht : (Value.struct t).MadeOf tokens) (h : t.get? name = some v) :
    v.MadeOf tokens := by
  cases ht with
  | struct hd hn hf => exact hf _ (Table.mem_of_get? h)

end Value

namespace Expr

variable {tokens : List Token} {options : Options} {constants : Table Value}

mutual

/-- **Resolving** makes a value of the same tokens, if the constants are made of them. -/
theorem madeOf_resolve (hc : (Value.struct constants).MadeOf tokens) :
    ∀ (e : Expr) {v : Value}, e.MadeOf tokens → e.resolve options constants = .ok v →
      v.MadeOf tokens
  | .number x, v, he, h => by
    cases he with
    | number hx =>
      cases h
      exact .number hx
  | .array elements, v, he, h => by
    obtain ⟨vs, hvs, rfl⟩ := resolve_array_eq_ok_iff.mp h
    cases he with
    | array hne hes =>
      obtain ⟨hnonempty, hall⟩ := madeOf_resolveAll hc elements hes hvs
      exact .array (hnonempty hne) hall
  | .struct fields, v, he, h => by
    obtain ⟨t, ht, rfl⟩ := resolve_struct_eq_ok_iff.mp h
    cases he with
    | struct hn hf => exact madeOf_resolveFields hc fields hn hf Value.madeOf_empty ht
  | .reference name span, v, he, h => hc.get (resolve_reference_eq_ok_iff.mp h)

theorem madeOf_resolveAll (hc : (Value.struct constants).MadeOf tokens) :
    ∀ (es : List Expr) {vs : List Value}, (∀ e ∈ es, e.MadeOf tokens) →
      resolveAll options constants es = .ok vs →
      (es ≠ [] → vs ≠ []) ∧ ∀ v ∈ vs, v.MadeOf tokens
  | [], vs, he, h => by
    cases h
    exact ⟨fun hne => absurd rfl hne, by simp⟩
  | e :: es, vs, he, h => by
    obtain ⟨v, hv, ws, hws, rfl⟩ := resolveAll_cons_eq_ok_iff.mp h
    obtain ⟨he, hes⟩ := List.forall_mem_cons.mp he
    refine ⟨fun _ => List.cons_ne_nil _ _, List.forall_mem_cons.mpr ⟨?_, ?_⟩⟩
    · exact madeOf_resolve hc e he hv
    · exact (madeOf_resolveAll hc es hes hws).2

theorem madeOf_resolveFields (hc : (Value.struct constants).MadeOf tokens) :
    ∀ (fields : List (Binding Expr)) {before after : Table Value},
      (∀ f ∈ fields, IsNameOf tokens f.name) → (∀ f ∈ fields, f.value.MadeOf tokens) →
      (Value.struct before).MadeOf tokens →
      resolveFields options constants before fields = .ok after →
      (Value.struct after).MadeOf tokens
  | [], before, after, hn, hf, hb, h => by
    cases h
    exact hb
  | ⟨name, span, e⟩ :: fields, before, after, hn, hf, hb, h => by
    obtain ⟨-, v, hv, h⟩ := resolveFields_cons_eq_ok_iff.mp h
    obtain ⟨hname, hn⟩ := List.forall_mem_cons.mp hn
    obtain ⟨he, hf⟩ := List.forall_mem_cons.mp hf
    exact madeOf_resolveFields hc fields hn hf (hb.insert hname (madeOf_resolve hc e he hv)) h

end

end Expr

/-! ## Programs -/

namespace Program

/-- What a program says is read from tokens, and none of its arrays is empty. -/
structure MadeOf (tokens : List Token) (p : Program) : Prop where
  names : ∀ d ∈ p.declarations, IsNameOf tokens d.name
  values : ∀ d ∈ p.declarations, d.value.MadeOf tokens
  main : p.main.MadeOf tokens

variable {tokens : List Token} {options : Options}

def Item.MadeOf (tokens : List Token) : Item → Prop
  | declaration d => IsNameOf tokens d.name ∧ d.value.MadeOf tokens
  | value e => e.MadeOf tokens

theorem Item.madeOf_ofTree {item : Tree.Item} {i : Item} (h : ofTree item = .ok i)
    (hl : ∀ t ∈ item.leaves, t ∈ tokens) : i.MadeOf tokens := by
  cases item with
  | declaration name isWord tree =>
    obtain ⟨label, hlabel, e, he, rfl⟩ := Item.ofTree_declaration_eq_ok_iff.mp h
    simp only [Tree.Item.leaves, List.forall_mem_cons] at hl
    obtain ⟨hname, -, hltree⟩ := hl
    exact ⟨⟨name, hname, Token.toName_eq_ok_iff.mp hlabel⟩, Expr.madeOf_ofTree tree he hltree⟩
  | value tree =>
    obtain ⟨e, he, rfl⟩ := Item.ofTree_value_eq_ok_iff.mp h
    exact Expr.madeOf_ofTree tree he hl

theorem madeOf_ofTrees {items : List Tree.Item} {p : Program} (h : ofTrees items = .ok p)
    (hl : ∀ t ∈ Tree.Item.leavesOfAll items, t ∈ tokens) : p.MadeOf tokens := by
  have hmade := forall_mem_of_mapM (ofTrees_eq_ok_iff.mp h) fun item hm i hi =>
    Item.madeOf_ofTree hi fun t ht => hl t (List.mem_flatMap_of_mem hm ht)
  rw [List.forall_mem_append, List.forall_mem_map, List.forall_mem_singleton] at hmade
  exact ⟨fun d hd => (hmade.1 d hd).1, fun d hd => (hmade.1 d hd).2, hmade.2⟩

/-- **Declaring constants** keeps the table made of the tokens. -/
theorem madeOf_foldlM {ds : List (Binding Expr)} {constants after : Table Value}
    (hc : (Value.struct constants).MadeOf tokens) (hn : ∀ d ∈ ds, IsNameOf tokens d.name)
    (hv : ∀ d ∈ ds, d.value.MadeOf tokens)
    (h : ds.foldlM (declare options) constants = .ok after) :
    (Value.struct after).MadeOf tokens := by
  refine of_foldlM (P := fun t => (Value.struct t).MadeOf tokens) h hc fun d hm t t' ht hc => ?_
  obtain ⟨v, hd, -, rfl⟩ := declare_eq_ok_iff.mp ht
  exact hc.insert (hn d hm) (Expr.madeOf_resolve hc d.value (hv d hm) hd)

theorem MadeOf.evaluate {p : Program} {e : Evaluation} (hp : p.MadeOf tokens)
    (h : p.evaluate options = .ok e) :
    e.value.MadeOf tokens ∧ (Value.struct e.constants).MadeOf tokens := by
  obtain ⟨hdecl, hmain⟩ := evaluate_eq_ok_iff.mp h
  have hc := madeOf_foldlM Value.madeOf_empty hp.names hp.values hdecl
  exact ⟨Expr.madeOf_resolve hc p.main hp.main hmain, hc⟩

end Program

/-! ## Null in the JSON text -/

/-- The number is the value or, at some depth, an element or a field of it. -/
inductive Value.Holds (x : Binary64) : Value → Prop
  | number : Holds x (.number x)
  | array {elements : List Value} {v : Value} (hm : v ∈ elements) (hv : Holds x v) :
      Holds x (.array elements)
  | struct {fields : Table Value} {f : String × Value} (hm : f ∈ fields.entries)
      (hv : Holds x f.2) : Holds x (.struct fields)

theorem Value.MadeOf.isNumberOf {tokens : List Token} {x : Binary64} {v : Value}
    (hv : v.MadeOf tokens) (hx : v.Holds x) : IsNumberOf tokens x := by
  induction hx with
  | number =>
    cases hv with
    | number hx => exact hx
  | array hm _ ih =>
    cases hv with
    | array _ he => exact ih (he _ hm)
  | struct hm _ ih =>
    cases hv with
    | struct _ _ hf => exact ih (hf _ hm)

namespace Json

/-- A null is the document or, at some depth, an element or a member of it. -/
inductive Document.HasNull : Document → Prop
  | null : HasNull .null
  | array {elements : List Document} {d : Document} (hm : d ∈ elements) (hd : HasNull d) :
      HasNull (.array elements)
  | object {members : List (String × Document)} {m : String × Document} (hm : m ∈ members)
      (hd : HasNull m.2) : HasNull (.object members)

open Document

theorem ofElements_eq_map (vs : List Value) : ofElements vs = vs.map ofValue := by
  induction vs with
  | nil => rfl
  | cons v vs ih => rw [ofElements, ih, List.map_cons]

theorem ofFields_eq_map (fs : List (String × Value)) :
    ofFields fs = fs.map fun f => (f.1, ofValue f.2) := by
  induction fs with
  | nil => rfl
  | cons f fs ih => rw [ofFields, ih, List.map_cons]

theorem exists_of_hasNull_ofValue {v : Value} (h : (ofValue v).HasNull) :
    ∃ x, v.Holds x ∧ x.isFinite = false := by
  induction v using Value.induction with
  | number x =>
    rw [ofValue, ofNumber] at h
    split at h
    · cases h
    · next hx => exact ⟨x, .number, Bool.eq_false_iff.mpr hx⟩
  | array vs ih =>
    rw [ofValue, ofElements_eq_map] at h
    cases h with
    | array hm hd =>
      obtain ⟨v, hv, rfl⟩ := List.mem_map.mp hm
      obtain ⟨x, hx, hfin⟩ := ih v hv hd
      exact ⟨x, .array hv hx, hfin⟩
  | struct t ih =>
    obtain ⟨fs⟩ := t
    rw [ofValue, ofFields_eq_map] at h
    cases h with
    | object hm hd =>
      obtain ⟨f, hf, rfl⟩ := List.mem_map.mp hm
      obtain ⟨x, hx, hfin⟩ := ih f hf hd
      exact ⟨x, .struct hf hx, hfin⟩

theorem hasNull_ofValue {v : Value} {x : Binary64} (h : v.Holds x) (hx : x.isFinite = false) :
    (ofValue v).HasNull := by
  induction h with
  | number =>
    rw [ofValue, ofNumber, if_neg (Bool.eq_false_iff.mp hx)]
    exact .null
  | array hm _ ih =>
    rw [ofValue, ofElements_eq_map]
    exact .array (List.mem_map_of_mem hm) ih
  | @struct fields f hm _ ih =>
    obtain ⟨fs⟩ := fields
    rw [ofValue, ofFields_eq_map]
    exact .object (List.mem_map_of_mem hm) ih

end Json

/-! ## Compiled values -/

/-- **A compiled value is made of the tokens of its text.** The value and the constants have no
empty array and no repeated key; each key, and each name of a constant, is the text of a name
token, plain letters that JSON need not escape; each number is read from a number token, without
a sign and no NaN. So null stands in the JSON text only for a number that is written in the text
and too large. -/
theorem compile_madeOf {options : Options} {text : String} {e : Evaluation}
    (h : compile options text = .ok e) :
    ∃ tokens last, tokenize text = .ok (tokens ++ [last]) ∧
      e.value.MadeOf tokens ∧ (Value.struct e.constants).MadeOf tokens ∧
      (∀ name, IsNameOf tokens name → IsPlain name) ∧
      (∀ x, IsNumberOf tokens x →
        x.negative = false ∧ x.isNaN = false ∧ (x.isFinite = false ↔ x = .infinity false)) ∧
      ∀ v, v = e.value ∨ v ∈ e.constants.entries.map Prod.snd →
        ∃ d : Json.Document, (∀ layout, Json.Document.read (v.toJson layout) = some d) ∧
          (d.HasNull ↔ v.Holds (.infinity false)) ∧
          (d.HasNull → IsNumberOf tokens (.infinity false)) := by
  rw [compile, bind_eq_ok_iff] at h
  obtain ⟨p, hp, he⟩ := h
  obtain ⟨items, hparse, hprogram⟩ := Program.ofText_eq_ok_iff.mp hp
  obtain ⟨-, hleaves, last, hending⟩ := derivation_of_parse hparse
  have htokens := (tokenize_eq_ok_iff text _ last).mpr ⟨rfl, hending⟩
  have hmade := Program.madeOf_ofTrees hprogram fun t hm => hleaves ▸ hm
  obtain ⟨hvalue, hconstants⟩ := hmade.evaluate he
  refine ⟨_, last, htokens, hvalue, hconstants, fun name => isPlain_of_isNameOf,
    fun x => unsigned_of_isNumberOf, fun v hv => ⟨.ofValue v, Json.read_toJson_eq v, ?_⟩⟩
  have hv : v.MadeOf (TokenStream.ofText text).tokens := by
    rcases hv with rfl | hm
    · exact hvalue
    · obtain ⟨f, hf, rfl⟩ := List.mem_map.mp hm
      cases hconstants with
      | struct _ _ hall => exact hall f hf
  have hnull : (Json.Document.ofValue v).HasNull ↔ v.Holds (.infinity false) := by
    refine ⟨fun hd => ?_, fun hx => Json.hasNull_ofValue hx rfl⟩
    obtain ⟨x, hx, hfin⟩ := Json.exists_of_hasNull_ofValue hd
    rwa [(unsigned_of_isNumberOf (hv.isNumberOf hx)).2.2.mp hfin] at hx
  exact ⟨hnull, fun hd => hv.isNumberOf (hnull.mp hd)⟩

/-- A key that comes again, and a constant that is declared again and stands in an array. -/
theorem compile_overwritten_madeOf : ∃ e tokens last,
    compile {} "x is .5 x is [!(x)] struct \x7bk = 2.0, is_ = [!(x)], k = !(x)\x7d" = .ok e ∧
    e.value.toJson .compact = "\x7b\"k\":[0.5],\"is_\":[[0.5]]\x7d" ∧
    tokenize "x is .5 x is [!(x)] struct \x7bk = 2.0, is_ = [!(x)], k = !(x)\x7d" =
      .ok (tokens ++ [last]) ∧
    e.value.MadeOf tokens ∧ (Value.struct e.constants).MadeOf tokens := by
  have hjson : (compile {} "x is .5 x is [!(x)] struct \x7bk = 2.0, is_ = [!(x)], k = !(x)\x7d").map
      (·.value.toJson .compact) = .ok "\x7b\"k\":[0.5],\"is_\":[[0.5]]\x7d" := by
    decide +kernel
  cases h : compile {} "x is .5 x is [!(x)] struct \x7bk = 2.0, is_ = [!(x)], k = !(x)\x7d" with
  | error e =>
    rw [h] at hjson
    cases hjson
  | ok e =>
    rw [h] at hjson
    obtain ⟨tokens, last, ht, hvalue, hconstants, -⟩ := compile_madeOf h
    exact ⟨e, tokens, last, rfl, Except.ok.inj hjson, ht, hvalue, hconstants⟩

end ConstLang
