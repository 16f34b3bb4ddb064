/-
The grammar, as rules on trees. `Tree.Derives` says that every token of a tree is of the kind
that its place asks for, `Tree.Item.Derivation` that items are declarations with at most one
value behind them; what a derivation says is read off with `leaves`.

`Sentence limit` are the kinds of the tokens of a whole text in which no more than `limit`
arrays and structs are open at once, `Viable limit` are what sentences start with, and
`Admits limit` is about one kind more, which may be the end of the input. The kinds decide:
tokens of the kinds that a derivation asks for have a derivation of the same shape,
`Item.exists_derivation`.
-/
import ConstLang.Tree

namespace ConstLang

namespace Tree

mutual

/-- A value by the rules of the grammar. -/
inductive Derives : Tree → Prop
  | number {token : Token} (ht : token.kind = .number) : Derives (.number token)
  | array {opening closing : Token} {elements : List Tree} (ho : opening.kind = .openBracket)
      (hne : elements ≠ []) (he : DerivesAll elements) (hc : closing.kind = .closeBracket) :
      Derives (.array opening elements closing)
  | struct {keyword opening closing : Token} {fields : List (Field Tree)}
      (hk : keyword.kind = .structWord) (ho : opening.kind = .openBrace)
      (hf : DerivesFields true fields) (hc : closing.kind = .closeBrace) :
      Derives (.struct keyword opening fields closing)
  | reference {opening name closing : Token} (ho : opening.kind = .openReference)
      (hn : name.kind = .name) (hc : closing.kind = .closeReference) :
      Derives (.reference opening name closing)

inductive DerivesAll : List Tree → Prop
  | nil : DerivesAll []
  | cons {tree : Tree} {trees : List Tree} (ht : Derives tree) (hs : DerivesAll trees) :
      DerivesAll (tree :: trees)

/-- Fields with a comma in front of each one but, if `first` holds, the first. -/
inductive DerivesFields : Bool → List (Field Tree) → Prop
  | nil {first : Bool} : DerivesFields first []
  | cons {first : Bool} {comma : Option Token} {name equals : Token} {value : Tree}
      {fields : List (Field Tree)}
      (hc : comma.map Token.kind = if first then none else some .comma)
      (hn : name.kind = .name) (he : equals.kind = .equals) (hv : Derives value)
      (hs : DerivesFields false fields) :
      DerivesFields first (⟨comma, name, equals, value⟩ :: fields)

end

theorem derivesAll_append {as bs : List Tree} (ha : DerivesAll as) (hb : DerivesAll bs) :
    DerivesAll (as ++ bs) := by
  induction as with
  | nil => exact hb
  | cons tree trees ih =>
    cases ha with
    | cons ht hs => exact .cons ht (ih hs)

theorem derivesFields_append {first : Bool} {as bs : List (Field Tree)}
    (ha : DerivesFields first as) (hb : DerivesFields (first && as.isEmpty) bs) :
    DerivesFields first (as ++ bs) := by
  induction as generalizing first with
  | nil => simpa using hb
  | cons field fields ih =>
    cases ha with
    | cons hc hn he hv hs => exact .cons hc hn he hv (ih hs (by simpa using hb))

/-! ## Lists of trees and of fields -/

@[simp] theorem leavesOfAll_append (as bs : List Tree) :
    leavesOfAll (as ++ bs) = leavesOfAll as ++ leavesOfAll bs := by
  induction as with
  | nil => rfl
  | cons tree trees ih => simp only [List.cons_append, leavesOfAll, ih, List.append_assoc]

@[simp] theorem leavesOfFields_append (as bs : List (Field Tree)) :
    leavesOfFields (as ++ bs) = leavesOfFields as ++ leavesOfFields bs := by
  induction as with
  | nil => rfl
  | cons field fields ih =>
    simp only [List.cons_append, leavesOfFields, ih, List.append_assoc]

@[simp] theorem depthOfAll_append (as bs : List Tree) :
    depthOfAll (as ++ bs) = max (depthOfAll as) (depthOfAll bs) := by
  induction as with
  | nil => simp [depthOfAll]
  | cons tree trees ih => simp only [List.cons_append, depthOfAll, ih, Nat.max_assoc]

@[simp] theorem depthOfFields_append (as bs : List (Field Tree)) :
    depthOfFields (as ++ bs) = max (depthOfFields as) (depthOfFields bs) := by
  induction as with
  | nil => simp [depthOfFields]
  | cons field fields ih => simp only [List.cons_append, depthOfFields, ih, Nat.max_assoc]

/-! ## Whole texts -/

namespace Item

/-- Declarations, and then a value or nothing. -/
inductive Derivation : List Item → Prop
  | nil : Derivation []
  | main {tree : Tree} (ht : tree.Derives) : Derivation [.value tree]
  | declaration {name isWord : Token} {tree : Tree} {items : List Item}
      (hn : name.kind = .name) (hw : isWord.kind = .isWord) (ht : tree.Derives)
      (hs : Derivation items) : Derivation (.declaration name isWord tree :: items)

/-- The tokens of some items in the order of the text. -/
def leavesOfAll (items : List Item) : List Token := items.flatMap leaves

@[simp] theorem leavesOfAll_nil : leavesOfAll [] = [] := rfl

@[simp] theorem leavesOfAll_cons (item : Item) (items : List Item) :
    leavesOfAll (item :: items) = item.leaves ++ leavesOfAll items := rfl

@[simp] theorem leavesOfAll_append (as bs : List Item) :
    leavesOfAll (as ++ bs) = leavesOfAll as ++ leavesOfAll bs := List.flatMap_append

end Item

/-- What the kinds of the tokens of a whole text may be. -/
def Sentence (limit : Nat) (kinds : List Token.Kind) : Prop :=
  ∃ items, Item.Derivation items ∧ (∀ item ∈ items, item.depth ≤ limit) ∧
    (Item.leavesOfAll items).map Token.kind = kinds

/-- What a sentence may start with. -/
def Viable (limit : Nat) (kinds : List Token.Kind) : Prop :=
  ∃ rest, Sentence limit (kinds ++ rest)

/-- Whether a token of the kind `next` may stand behind `kinds`. -/
def Admits (limit : Nat) (kinds : List Token.Kind) (next : Token.Kind) : Prop :=
  if next = .endOfInput then Sentence limit kinds else Viable limit (kinds ++ [next])

theorem Sentence.mono {limit limit' : Nat} (hle : limit ≤ limit') {kinds : List Token.Kind}
    (h : Sentence limit kinds) : Sentence limit' kinds := by
  obtain ⟨items, hder, hd, hk⟩ := h
  exact ⟨items, hder, fun item hm => Nat.le_trans (hd item hm) hle, hk⟩

theorem Admits.mono {limit limit' : Nat} (hle : limit ≤ limit') {kinds : List Token.Kind}
    {next : Token.Kind} (h : Admits limit kinds next) : Admits limit' kinds next := by
  unfold Admits at h ⊢
  split
  · next hn =>
    rw [if_pos hn] at h
    exact h.mono hle
  · next hn =>
    rw [if_neg hn] at h
    obtain ⟨rest, hs⟩ := h
    exact ⟨rest, hs.mono hle⟩

/-! ## The kinds decide -/

mutual

/-- Tokens of the kinds of a value's tokens make a value as deep. -/
theorem exists_derives : ∀ (tree : Tree) (ts : List Token), Derives tree →
    ts.map Token.kind = tree.leaves.map Token.kind →
    ∃ tree', Derives tree' ∧ tree'.leaves = ts ∧ tree'.depth = tree.depth
  | .number token, ts, h, hk => by
    cases h with
    | number ht =>
      obtain ⟨t, ts, rfl, hkt, hk⟩ := List.map_eq_cons_iff.mp hk
      obtain rfl := List.map_eq_nil_iff.mp hk
      exact ⟨.number t, .number (hkt.trans ht), rfl, rfl⟩
  | .array opening elements closing, ts, h, hk => by
    cases h with
    | array ho hne he hc =>
      simp only [leaves, List.map_cons, List.map_append, List.map_nil] at hk
      obtain ⟨o, ts, rfl, hko, hk⟩ := List.map_eq_cons_iff.mp hk
      obtain ⟨ms, cs, rfl, hkm, hk⟩ := List.map_eq_append_iff.mp hk
      obtain ⟨c, cs, rfl, hkc, hk⟩ := List.map_eq_cons_iff.mp hk
      obtain rfl := List.map_eq_nil_iff.mp hk
      obtain ⟨trees, ht, rfl, hd, hl⟩ := exists_derivesAll elements ms he hkm
      have hne' : trees ≠ [] := by
        rintro rfl
        exact hne (List.length_eq_zero_iff.mp hl.symm)
      refine ⟨.array o trees c, .array (hko.trans ho) hne' ht (hkc.trans hc), rfl, ?_⟩
      simp only [depth, hd]
  | .struct keyword opening fields closing, ts, h, hk => by
    cases h with
    | struct hkw ho hf hc =>
      simp only [leaves, List.map_cons, List.map_append, List.map_nil] at hk
      obtain ⟨k, ts, rfl, hkk, hk⟩ := List.map_eq_cons_iff.mp hk
      obtain ⟨o, ts, rfl, hko, hk⟩ := List.map_eq_cons_iff.mp hk
      obtain ⟨ms, cs, rfl, hkm, hk⟩ := List.map_eq_append_iff.mp hk
      obtain ⟨c, cs, rfl, hkc, hk⟩ := List.map_eq_cons_iff.mp hk
      obtain rfl := List.map_eq_nil_iff.mp hk
      obtain ⟨fields', hf', rfl, hd⟩ := exists_derivesFields fields true ms hf hkm
      refine ⟨.struct k o fields' c, .struct (hkk.trans hkw) (hko.trans ho) hf' (hkc.trans hc),
        rfl, ?_⟩
      simp only [depth, hd]
  | .reference opening name closing, ts, h, hk => by
    cases h with
    | reference ho hn hc =>
      simp only [leaves, List.map_cons, List.map_nil] at hk
      obtain ⟨o, ts, rfl, hko, hk⟩ := List.map_eq_cons_iff.mp hk
      obtain ⟨n, ts, rfl, hkn, hk⟩ := List.map_eq_cons_iff.mp hk
      obtain ⟨c, ts, rfl, hkc, hk⟩ := List.map_eq_cons_iff.mp hk
      obtain rfl := List.map_eq_nil_iff.mp hk
      exact ⟨.reference o n c, .reference (hko.trans ho) (hkn.trans hn) (hkc.trans hc), rfl, rfl⟩

theorem exists_derivesAll : ∀ (trees : List Tree) (ts : List Token), DerivesAll trees →
    ts.map Token.kind = (leavesOfAll trees).map Token.kind →
    ∃ trees', DerivesAll trees' ∧ leavesOfAll trees' = ts ∧
      depthOfAll trees' = depthOfAll trees ∧ trees'.length = trees.length
  | [], ts, _, hk => by
    obtain rfl := List.map_eq_nil_iff.mp hk
    exact ⟨[], .nil, rfl, rfl, rfl⟩
  | tree :: trees, ts, h, hk => by
    cases h with
    | cons ht hs =>
      simp only [leavesOfAll, List.map_append] at hk
      obtain ⟨ms, ns, rfl, hkm, hkn⟩ := List.map_eq_append_iff.mp hk
      obtain ⟨tree', ht', rfl, hd⟩ := exists_derives tree ms ht hkm
      obtain ⟨trees', hs', rfl, hds, hl⟩ := exists_derivesAll trees ns hs hkn
      refine ⟨tree' :: trees', .cons ht' hs', rfl, ?_, ?_⟩
      · simp only [depthOfAll, hd, hds]
      · simp only [List.length_cons, hl]

theorem exists_derivesFields : ∀ (fields : List (Field Tree)) (first : Bool) (ts : List Token),
    DerivesFields first fields → ts.map Token.kind = (leavesOfFields fields).map Token.kind →
    ∃ fields', DerivesFields first fields' ∧ leavesOfFields fields' = ts ∧
      depthOfFields fields' = depthOfFields fields
  | [], first, ts, _, hk => by
    obtain rfl := List.map_eq_nil_iff.mp hk
    exact ⟨[], .nil, rfl, rfl⟩
  | ⟨comma, name, equals, value⟩ :: fields, first, ts, h, hk => by
    cases h with
    | cons hc hn he hv hs =>
      simp only [leavesOfFields, List.map_cons, List.map_append] at hk
      obtain ⟨cs, ts, rfl, hkc, hk⟩ := List.map_eq_append_iff.mp hk
      obtain ⟨n, ts, rfl, hkn, hk⟩ := List.map_eq_cons_iff.mp hk
      obtain ⟨q, ts, rfl, hkq, hk⟩ := List.map_eq_cons_iff.mp hk
      obtain ⟨ms, ns, rfl, hkm, hkr⟩ := List.map_eq_append_iff.mp hk
      obtain ⟨comma', rfl, hcomma⟩ : ∃ comma' : Option Token,
          comma'.toList = cs ∧ comma'.map Token.kind = comma.map Token.kind := by
        cases comma with
        | none => exact ⟨none, (List.map_eq_nil_iff.mp hkc).symm, rfl⟩
        | some c =>
          obtain ⟨c', cs, rfl, hkc', hk⟩ := List.map_eq_cons_iff.mp hkc
          obtain rfl := List.map_eq_nil_iff.mp hk
          exact ⟨some c', rfl, congrArg some hkc'⟩
      obtain ⟨value', hv', rfl, hd⟩ := exists_derives value ms hv hkm
      obtain ⟨fields', hs', rfl, hds⟩ := exists_derivesFields fields false ns hs hkr
      refine ⟨⟨comma', n, q, value'⟩ :: fields',
        .cons (hcomma.trans hc) (hkn.trans hn) (hkq.trans he) hv' hs', rfl, ?_⟩
      simp only [depthOfFields, hd, hds]

end

/-- **The kinds decide** which tokens are a whole text, and how deep it is. -/
theorem Item.exists_derivation {limit : Nat} {items : List Item} (h : Derivation items)
    (hd : ∀ item ∈ items, item.depth ≤ limit) {ts : List Token}
    (hk : ts.map Token.kind = (leavesOfAll items).map Token.kind) :
    ∃ items', Derivation items' ∧ leavesOfAll items' = ts ∧
      ∀ item ∈ items', item.depth ≤ limit := by
  induction h generalizing ts with
  | nil =>
    obtain rfl := List.map_eq_nil_iff.mp hk
    exact ⟨[], .nil, rfl, hd⟩
  | @main tree ht =>
    rw [leavesOfAll_cons, leavesOfAll_nil, List.append_nil] at hk
    obtain ⟨tree', ht', rfl, hdt⟩ := exists_derives tree ts ht hk
    have hdepth : tree.depth ≤ limit := hd (.value tree) (List.mem_singleton_self _)
    refine ⟨[.value tree'], .main ht', List.append_nil _, ?_⟩
    simpa [depth, hdt] using hdepth
  | @declaration name isWord tree items hn hw ht hs ih =>
    obtain ⟨hdt, hds⟩ := List.forall_mem_cons.mp hd
    simp only [leavesOfAll_cons, leaves, List.cons_append, List.map_cons, List.map_append] at hk
    obtain ⟨n, ts, rfl, hkn, hk⟩ := List.map_eq_cons_iff.mp hk
    obtain ⟨w, ts, rfl, hkw, hk⟩ := List.map_eq_cons_iff.mp hk
    obtain ⟨ms, ns, rfl, hkm, hkr⟩ := List.map_eq_append_iff.mp hk
    obtain ⟨tree', ht', rfl, hdt'⟩ := exists_derives tree ms ht hkm
    obtain ⟨items', hs', rfl, hds'⟩ := ih hds hkr
    refine ⟨.declaration n w tree' :: items',
      .declaration (hkn.trans hn) (hkw.trans hw) ht' hs', rfl, ?_⟩
    refine List.forall_mem_cons.mpr ⟨?_, hds'⟩
    simp only [depth] at hdt ⊢
    omega

end Tree

end ConstLang
