/-
JSON text says what the value does. `Json.Represents` relates a value to the documents that
say the same: elements and fields in order, a finite number as a number that reads back, what
is not finite as null. `read_toJson`: a strict reader takes the text of a value, in both
layouts, for one such document.
-/
import ConstLang.Proofs.Json.Tokens

namespace ConstLang

namespace Json

mutual

/-- The document says what the value does. -/
inductive Represents : Value → Document → Prop
  /-- A number is not written as a whole number. -/
  | number {x : Binary64} {text : List Char} : x.isFinite →
      Numeral.read (String.ofList text) = .ok x → '.' ∈ text ∨ 'e' ∈ text →
      Represents (.number x) (.number text)
  | null {x : Binary64} : x.isFinite = false → Represents (.number x) .null
  | array {vs : List Value} {ds : List Document} : RepresentsAll vs ds →
      Represents (.array vs) (.array ds)
  | struct {fs : List (String × Value)} {ms : List (String × Document)} :
      RepresentsFields fs ms → Represents (.struct ⟨fs⟩) (.object ms)

inductive RepresentsAll : List Value → List Document → Prop
  | nil : RepresentsAll [] []
  | cons {v : Value} {d : Document} {vs : List Value} {ds : List Document} :
      Represents v d → RepresentsAll vs ds → RepresentsAll (v :: vs) (d :: ds)

inductive RepresentsFields : List (String × Value) → List (String × Document) → Prop
  | nil : RepresentsFields [] []
  | cons {name : String} {v : Value} {d : Document} {fs : List (String × Value)}
      {ms : List (String × Document)} :
      Represents v d → RepresentsFields fs ms → RepresentsFields ((name, v) :: fs) ((name, d) :: ms)

end

/-! ## The document of a value -/

mutual

def Document.ofValue : Value → Document
  | .number x => .ofNumber x
  | .array vs => .array (ofElements vs)
  | .struct ⟨fs⟩ => .object (ofFields fs)

def Document.ofElements : List Value → List Document
  | [] => []
  | v :: vs => ofValue v :: ofElements vs

def Document.ofFields : List (String × Value) → List (String × Document)
  | [] => []
  | (name, v) :: fs => (name, ofValue v) :: ofFields fs

end

open Document

mutual

theorem represents_ofValue : ∀ v, Represents v (ofValue v)
  | .number x => by
    rw [ofValue, ofNumber]
    split
    · next hx => exact .number hx (Numeral.read_write hx) (mem_write hx)
    · next hx => exact .null (Bool.eq_false_iff.mpr hx)
  | .array vs => .array (representsAll_ofElements vs)
  | .struct ⟨fs⟩ => .struct (representsFields_ofFields fs)

theorem representsAll_ofElements : ∀ vs, RepresentsAll vs (ofElements vs)
  | [] => .nil
  | v :: vs => .cons (represents_ofValue v) (representsAll_ofElements vs)

theorem representsFields_ofFields : ∀ fs, RepresentsFields fs (ofFields fs)
  | [] => .nil
  | (_, v) :: fs => .cons (represents_ofValue v) (representsFields_ofFields fs)

end

/-! ## Keys -/

theorem map_fst_ofFields (fs : List (String × Value)) :
    (ofFields fs).map Prod.fst = fs.map Prod.fst := by
  induction fs with
  | nil => rfl
  | cons f fs ih => rw [ofFields, List.map_cons, List.map_cons, ih]

theorem distinctKeys_array_iff {ds : List Document} :
    DistinctKeys (.array ds) ↔ ∀ d ∈ ds, d.DistinctKeys :=
  ⟨fun | .array h => h, .array⟩

theorem distinctKeys_object_iff {ms : List (String × Document)} :
    DistinctKeys (.object ms) ↔ (ms.map Prod.fst).Nodup ∧ ∀ m ∈ ms, m.2.DistinctKeys :=
  ⟨fun | .object hk h => ⟨hk, h⟩, fun ⟨hk, h⟩ => .object hk h⟩

mutual

theorem distinctKeys_ofValue_iff : ∀ v, (ofValue v).DistinctKeys ↔ v.WellFormed
  | .number x => by
    have hd : (ofNumber x).DistinctKeys := by
      unfold ofNumber
      split
      · exact .number _
      · exact .null
    exact iff_of_true hd (.number x)
  | .array vs => by
    rw [ofValue, distinctKeys_array_iff, distinctKeys_ofElements_iff vs]
    exact ⟨.array, fun | .array h => h⟩
  | .struct ⟨fs⟩ => by
    rw [ofValue, distinctKeys_object_iff, map_fst_ofFields, distinctKeys_ofFields_iff fs]
    exact ⟨fun ⟨hk, h⟩ => .struct hk h, fun | .struct hk h => ⟨hk, h⟩⟩

theorem distinctKeys_ofElements_iff :
    ∀ vs, (∀ d ∈ ofElements vs, d.DistinctKeys) ↔ ∀ v ∈ vs, v.WellFormed
  | [] => by simp [ofElements]
  | v :: vs => by
    rw [ofElements, List.forall_mem_cons, List.forall_mem_cons, distinctKeys_ofValue_iff v,
      distinctKeys_ofElements_iff vs]

theorem distinctKeys_ofFields_iff :
    ∀ fs, (∀ m ∈ ofFields fs, m.2.DistinctKeys) ↔ ∀ f ∈ fs, f.2.WellFormed
  | [] => by simp [ofFields]
  | (name, v) :: fs => by
    rw [ofFields, List.forall_mem_cons, List.forall_mem_cons, distinctKeys_ofValue_iff v,
      distinctKeys_ofFields_iff fs]

end

/-! ## Reading -/

namespace Reader

mutual

/-- **The tokens of a value are read as its document**, whatever is open around it. -/
theorem foldlM_valueTokens : ∀ (v : Value) (gaps : List Gap) (rest : List Token),
    (valueTokens v rest).foldlM step ⟨gaps, .document⟩ =
      rest.foldlM step ⟨gaps, .behind (ofValue v)⟩
  | .number x, gaps, rest => by
    have hs : step ⟨gaps, .document⟩ (.word (writeNumber x)) =
        some ⟨gaps, .behind (ofNumber x)⟩ := by
      rw [step, word?_writeNumber]
      rfl
    rw [valueTokens, List.foldlM_cons, hs]
    rfl
  | .array [], gaps, rest => rfl
  | .array (v :: vs), gaps, rest => by
    have hv := foldlM_valueTokens v (.element [] :: gaps)
      (elementTokens vs (.mark .closeArray :: rest))
    rw [valueTokens]
    exact hv.trans (foldlM_elementTokens vs [] (ofValue v) gaps rest)
  | .struct ⟨[]⟩, gaps, rest => rfl
  | .struct ⟨(name, v) :: fs⟩, gaps, rest => by
    have hv := foldlM_valueTokens v (.member [] name :: gaps)
      (fieldTokens fs (.mark .closeObject :: rest))
    rw [valueTokens]
    exact hv.trans (foldlM_fieldTokens fs [] name (ofValue v) gaps rest)

theorem foldlM_elementTokens : ∀ (vs : List Value) (before : List Document) (d : Document)
    (gaps : List Gap) (rest : List Token),
    (elementTokens vs (.mark .closeArray :: rest)).foldlM step
        ⟨.element before :: gaps, .behind d⟩ =
      rest.foldlM step ⟨gaps, .behind (.array (before ++ d :: ofElements vs))⟩
  | [], before, d, gaps, rest => rfl
  | v :: vs, before, d, gaps, rest => by
    have hv := foldlM_valueTokens v (.element (before ++ [d]) :: gaps)
      (elementTokens vs (.mark .closeArray :: rest))
    have hvs := foldlM_elementTokens vs (before ++ [d]) (ofValue v) gaps rest
    rw [List.append_assoc] at hvs
    rw [elementTokens]
    exact hv.trans hvs

theorem foldlM_fieldTokens : ∀ (fs : List (String × Value)) (before : List (String × Document))
    (key : String) (d : Document) (gaps : List Gap) (rest : List Token),
    (fieldTokens fs (.mark .closeObject :: rest)).foldlM step
        ⟨.member before key :: gaps, .behind d⟩ =
      rest.foldlM step ⟨gaps, .behind (.object (before ++ (key, d) :: ofFields fs))⟩
  | [], before, key, d, gaps, rest => rfl
  | (name, v) :: fs, before, key, d, gaps, rest => by
    have hv := foldlM_valueTokens v (.member (before ++ [(key, d)]) name :: gaps)
      (fieldTokens fs (.mark .closeObject :: rest))
    have hfs := foldlM_fieldTokens fs (before ++ [(key, d)]) name (ofValue v) gaps rest
    rw [List.append_assoc] at hfs
    rw [fieldTokens]
    exact hv.trans hfs

end

end Reader

theorem read_toJson_eq (v : Value) (layout : Layout) :
    Document.read (v.toJson layout) = some (ofValue v) := by
  have hends : EndsWord [] := by
    intro c hc
    cases hc
  have ht : tokens? (write layout 0 v []) = some (valueTokens v []) := by
    rw [tokens?_write layout 0 v hends, tokens?]
    rfl
  rw [Document.read, Value.toJson, String.toList_ofList, ht, Option.bind_eq_bind, Option.bind_some,
    Reader.foldlM_valueTokens]
  rfl

/-- **JSON text reads back.** A strict reader takes the text of a value for one and the same
document in both layouts. It says what the value does, and its keys are as distinct as the
value's are. -/
theorem read_toJson (v : Value) :
    ∃ d : Document, (∀ layout, Document.read (v.toJson layout) = some d) ∧ Represents v d ∧
      (d.DistinctKeys ↔ v.WellFormed) :=
  ⟨ofValue v, read_toJson_eq v, represents_ofValue v, distinctKeys_ofValue_iff v⟩

end Json

end ConstLang
