/-
A reader reads every derivation that is not too deep. `run_leaves`: the tokens of a value,
whatever follows them, lead to the reader that has the value in its place. `exists_run_items`
is the same of a whole text.
-/
import ConstLang.Proofs.Reader.Invariant

namespace ConstLang

open ConstLang.Tree (Derives DerivesAll DerivesFields leavesOfAll leavesOfFields depthOfAll
  depthOfFields)

namespace Reader

/-- What may stand behind the opening brace, or else behind a field. -/
def Stage.inStruct (first : Bool) (struct : OpenStruct) (outer : Hole) : Stage :=
  if first then .fieldName struct none outer else .separator struct outer

theorem takes_close (limit : Nat) (items : List Tree.Item) (first : Bool) (struct : OpenStruct)
    (outer : Hole) {t : Token} (ht : t.kind = .closeBrace) :
    Takes limit ⟨items, .inStruct first struct outer⟩ t (fill items (struct.close t) outer) := by
  cases first with
  | true => exact .closeEmpty ht
  | false => exact .closeStruct ht

/-- The comma and the name of a field. -/
theorem run_fieldStart (limit : Nat) (items : List Tree.Item) (first : Bool) (struct : OpenStruct)
    (outer : Hole) {comma : Option Token} {name : Token}
    (hc : comma.map Token.kind = if first then none else some .comma) (hn : name.kind = .name)
    (ts : List Token) :
    run limit ⟨items, .inStruct first struct outer⟩ (comma.toList ++ name :: ts) =
      run limit ⟨items, .equals struct ⟨comma, name⟩ outer⟩ ts := by
  cases first with
  | true =>
    obtain rfl : comma = none := by simpa using hc
    exact run_cons_of_takes (.fieldName hn) ts
  | false =>
    obtain ⟨c, rfl, hk⟩ : ∃ c, comma = some c ∧ c.kind = .comma := by
      simpa [Option.map_eq_some_iff] using hc
    exact (run_cons_of_takes (.comma hk) _).trans (run_cons_of_takes (.fieldName hn) ts)

mutual

/-- **A value** that is not too deep is read into its place. -/
theorem run_leaves {limit : Nat} (items : List Tree.Item) :
    ∀ (tree : Tree) {stage : Stage} {hole : Hole} (ts : List Token), Derives tree →
      tree.depth + hole.depth ≤ limit → stage.Awaits hole →
      run limit ⟨items, stage⟩ (tree.leaves ++ ts) = run limit (fill items tree hole) ts
  | .number token, stage, hole, ts, h, hd, hs => by
    cases h with
    | number ht => exact run_cons_of_takes (.number hs ht) ts
  | .array opening elements closing, stage, hole, ts, h, hd, hs => by
    cases h with
    | array ho hne he hc =>
      simp only [Tree.depth] at hd
      simp only [Tree.leaves, List.cons_append, List.append_assoc, List.nil_append]
      rw [run_cons_of_takes (.openArray hs ho (by omega)),
        run_elements items elements opening [] hole _ he (by omega), List.append_nil]
      -- The array can be closed because something was read into it.
      obtain ⟨last, before, hl⟩ := List.exists_cons_of_ne_nil (List.reverse_ne_nil_iff.mpr hne)
      rw [hl, run_cons_of_takes (.closeArray hc), ← hl, List.reverse_reverse]
  | .struct keyword opening fields closing, stage, hole, ts, h, hd, hs => by
    cases h with
    | struct hk ho hf hc =>
      simp only [Tree.depth] at hd
      simp only [Tree.leaves, List.cons_append, List.append_assoc, List.nil_append]
      rw [run_cons_of_takes (.structWord hs hk (by omega)), run_cons_of_takes (.openBrace ho)]
      refine (run_fields items fields true ⟨keyword, opening, []⟩ hole _ hf (by omega)).trans ?_
      rw [run_cons_of_takes (takes_close _ _ _ _ _ hc), OpenStruct.close, List.append_nil,
        List.reverse_reverse]
  | .reference opening name closing, stage, hole, ts, h, hd, hs => by
    cases h with
    | reference ho hn hc =>
      simp only [Tree.leaves, List.cons_append, List.nil_append]
      rw [run_cons_of_takes (.openReference hs ho), run_cons_of_takes (.referenceName hn),
        run_cons_of_takes (.closeReference hc)]

theorem run_elements {limit : Nat} (items : List Tree.Item) :
    ∀ (elements : List Tree) (opening : Token) (before : List Tree) (outer : Hole)
      (ts : List Token), DerivesAll elements → depthOfAll elements + outer.depth < limit →
      run limit ⟨items, .value (.element opening before outer)⟩ (leavesOfAll elements ++ ts) =
        run limit ⟨items, .value (.element opening (elements.reverse ++ before) outer)⟩ ts
  | [], opening, before, outer, ts, h, hd => rfl
  | tree :: trees, opening, before, outer, ts, h, hd => by
    cases h with
    | cons ht hs =>
      simp only [depthOfAll] at hd
      have hroom : tree.depth + (Hole.element opening before outer).depth ≤ limit := by
        simp only [Hole.depth]
        omega
      rw [leavesOfAll, List.append_assoc, run_leaves items tree _ ht hroom .value]
      refine (run_elements items trees opening (tree :: before) outer ts hs (by omega)).trans ?_
      rw [List.reverse_cons, List.append_assoc]
      rfl

theorem run_fields {limit : Nat} (items : List Tree.Item) :
    ∀ (fields : List (Tree.Field Tree)) (first : Bool) (struct : OpenStruct) (outer : Hole)
      (ts : List Token), DerivesFields first fields → depthOfFields fields + outer.depth < limit →
      run limit ⟨items, .inStruct first struct outer⟩ (leavesOfFields fields ++ ts) =
        run limit ⟨items, .inStruct (first && fields.isEmpty)
          { struct with fields := fields.reverse ++ struct.fields } outer⟩ ts
  | [], first, struct, outer, ts, h, hd => by
    rw [List.isEmpty_nil, Bool.and_true]
    rfl
  | ⟨comma, name, equals, value⟩ :: fields, first, struct, outer, ts, h, hd => by
    cases h with
    | cons hc hn he hv hs =>
      simp only [depthOfFields] at hd
      have hroom : value.depth + (Hole.field struct ⟨comma, name⟩ equals outer).depth ≤ limit := by
        simp only [Hole.depth]
        omega
      simp only [leavesOfFields, List.cons_append, List.append_assoc]
      rw [run_fieldStart limit items first struct outer hc hn,
        run_cons_of_takes (.equals he), run_leaves items value _ hv hroom .value]
      refine (run_fields items fields false
        { struct with fields := ⟨comma, name, equals, value⟩ :: struct.fields } outer ts hs
        (by omega)).trans ?_
      simp only [Bool.false_and, List.isEmpty_cons, Bool.and_false, List.reverse_cons,
        List.append_assoc, List.singleton_append]

end

/-- The input may end here: a declaration may start, or the main value is complete. -/
def MayStop (r : Reader) : Prop := r.stage = .item ∨ r.stage = .finished

/-- **A whole text** is read into its items. -/
theorem exists_run_items {limit : Nat} {items : List Tree.Item} (h : Tree.Item.Derivation items)
    (hd : ∀ item ∈ items, item.depth ≤ limit) (before : List Tree.Item) :
    ∃ r, run limit ⟨before, .item⟩ (Tree.Item.leavesOfAll items) = .ok r ∧ r.MayStop ∧
      r.items = items.reverse ++ before := by
  induction h generalizing before with
  | nil => exact ⟨_, rfl, .inl rfl, rfl⟩
  | @main tree ht =>
    have hroom : tree.depth + Hole.main.depth ≤ limit :=
      hd (.value tree) (List.mem_singleton_self _)
    exact ⟨_, run_leaves before tree [] ht hroom .item, .inr rfl, rfl⟩
  | @declaration name isWord tree items hn hw ht hs ih =>
    obtain ⟨hdt, hds⟩ := List.forall_mem_cons.mp hd
    obtain ⟨r, hrun, hstop, hitems⟩ := ih hds (.declaration name isWord tree :: before)
    refine ⟨r, ?_, hstop, by rw [hitems, List.reverse_cons, List.append_assoc]; rfl⟩
    have hroom : tree.depth + (Hole.declaration name isWord).depth ≤ limit := hdt
    rw [Tree.Item.leavesOfAll_cons, Tree.Item.leaves, List.cons_append, List.cons_append,
      run_cons_of_takes (.declaration hn), run_cons_of_takes (.isWord hw),
      run_leaves before tree _ ht hroom .value]
    exact hrun

end Reader

end ConstLang
