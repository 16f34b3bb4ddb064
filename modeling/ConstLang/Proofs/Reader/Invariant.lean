/-
What holds of a reader after any tokens. `Takes.leaves`: the parts that are held together are
the tokens taken, in their order. `Takes.valid`: every part that is complete is a derivation,
and what is open leaves room for it within the limit. So the items of a reader that may stop
are a derivation of the tokens taken, `finish_derivation`.
-/
import ConstLang.Proofs.Grammar
import ConstLang.Proofs.Reader.Step

namespace ConstLang

open ConstLang.Tree (Derives DerivesAll DerivesFields leavesOfAll leavesOfFields depthOfAll
  depthOfFields)

namespace Reader

/-! ## The tokens taken -/

def OpenStruct.leaves (struct : OpenStruct) : List Token :=
  struct.keyword :: struct.opening :: leavesOfFields struct.fields.reverse

def FieldStart.leaves (start : FieldStart) : List Token := start.comma.toList ++ [start.name]

/-- The tokens in front of a place. -/
def Hole.leaves : Hole → List Token
  | main => []
  | declaration name isWord => [name, isWord]
  | element opening before outer => outer.leaves ++ opening :: leavesOfAll before.reverse
  | field struct start equals outer =>
    outer.leaves ++ (struct.leaves ++ (start.leaves ++ [equals]))

/-- The tokens that are taken but belong to no complete item. -/
def Stage.leaves : Stage → List Token
  | item | finished => []
  | isWord name => [name]
  | value hole => hole.leaves
  | openBrace keyword outer => outer.leaves ++ [keyword]
  | fieldName struct comma outer => outer.leaves ++ (struct.leaves ++ comma.toList)
  | equals struct start outer => outer.leaves ++ (struct.leaves ++ start.leaves)
  | separator struct outer => outer.leaves ++ struct.leaves
  | referenceName opening hole => hole.leaves ++ [opening]
  | closeReference opening name hole => hole.leaves ++ [opening, name]

/-- The tokens that a reader has taken. -/
def leaves (r : Reader) : List Token := Tree.Item.leavesOfAll r.items.reverse ++ r.stage.leaves

theorem leaves_mk (items : List Tree.Item) (stage : Stage) :
    leaves ⟨items, stage⟩ = Tree.Item.leavesOfAll items.reverse ++ stage.leaves := rfl

theorem leaves_fill (items : List Tree.Item) (tree : Tree) (hole : Hole) :
    (fill items tree hole).leaves =
      Tree.Item.leavesOfAll items.reverse ++ (hole.leaves ++ tree.leaves) := by
  cases hole with
  | main => simp [fill, leaves, Stage.leaves, Hole.leaves, Tree.Item.leaves]
  | declaration name isWord =>
    simp [fill, leaves, Stage.leaves, Hole.leaves, Tree.Item.leaves]
  | element opening before outer =>
    simp [fill, leaves, Stage.leaves, Hole.leaves, leavesOfAll]
  | field struct start equals outer =>
    simp [fill, leaves, Stage.leaves, Hole.leaves, OpenStruct.leaves, FieldStart.leaves,
      leavesOfFields]

theorem Stage.Awaits.leaves_eq {stage : Stage} {hole : Hole} (h : stage.Awaits hole) :
    stage.leaves = hole.leaves := by
  cases h <;> rfl

variable {limit : Nat} {r r' : Reader} {t : Token}

theorem Takes.leaves (h : Takes limit r t r') : r'.leaves = r.leaves ++ [t] := by
  cases h with
  | declaration ht | isWord ht => simp [leaves_mk, Stage.leaves, Hole.leaves]
  | number hs ht =>
    rw [leaves_fill, leaves_mk, hs.leaves_eq]
    simp [Tree.leaves]
  | openArray hs ht hd =>
    rw [leaves_mk, leaves_mk, hs.leaves_eq]
    simp [Stage.leaves, Hole.leaves, leavesOfAll]
  | closeArray ht =>
    rw [leaves_fill, leaves_mk]
    simp [Stage.leaves, Hole.leaves, Tree.leaves]
  | structWord hs ht hd | openReference hs ht =>
    rw [leaves_mk, leaves_mk, hs.leaves_eq]
    simp [Stage.leaves]
  | openBrace ht => simp [leaves_mk, Stage.leaves, OpenStruct.leaves, leavesOfFields]
  | fieldName ht => simp [leaves_mk, Stage.leaves, FieldStart.leaves]
  | closeEmpty ht | closeStruct ht =>
    rw [leaves_fill, leaves_mk]
    simp [Stage.leaves, OpenStruct.leaves, OpenStruct.close, Tree.leaves]
  | equals ht => simp [leaves_mk, Stage.leaves, Hole.leaves]
  | comma ht | referenceName ht => simp [leaves_mk, Stage.leaves]
  | closeReference ht =>
    rw [leaves_fill, leaves_mk]
    simp [Stage.leaves, Tree.leaves]

/-! ## Complete parts are derivations -/

/-- The comma in front of a field that follows `fields`: there is one unless there are none. -/
def CommaFits (fields : List (Tree.Field Tree)) (comma : Option Token) : Prop :=
  comma.map Token.kind = if fields.isEmpty then none else some .comma

/-- An open struct within `depth` open arrays and structs, with its complete fields. -/
structure OpenStruct.Valid (limit depth : Nat) (struct : OpenStruct) : Prop where
  keyword : struct.keyword.kind = .structWord
  opening : struct.opening.kind = .openBrace
  fields : DerivesFields true struct.fields.reverse
  room : depthOfFields struct.fields.reverse + depth < limit

/-- What is open around a place is open by the rules and not too deep. -/
def Hole.Valid (limit : Nat) : Hole → Prop
  | main => True
  | declaration name isWord => name.kind = .name ∧ isWord.kind = .isWord
  | element opening before outer =>
    opening.kind = .openBracket ∧ DerivesAll before.reverse ∧
      depthOfAll before.reverse + outer.depth < limit ∧ outer.Valid limit
  | field struct start equals outer =>
    struct.Valid limit outer.depth ∧ CommaFits struct.fields start.comma ∧
      start.name.kind = .name ∧ equals.kind = .equals ∧ outer.Valid limit

def Stage.Valid (limit : Nat) : Stage → Prop
  | item => True
  | isWord name => name.kind = .name
  | value hole => hole.Valid limit
  | openBrace keyword outer => keyword.kind = .structWord ∧ outer.depth < limit ∧ outer.Valid limit
  | fieldName struct comma outer =>
    struct.Valid limit outer.depth ∧ CommaFits struct.fields comma ∧ outer.Valid limit
  | equals struct start outer =>
    struct.Valid limit outer.depth ∧ CommaFits struct.fields start.comma ∧
      start.name.kind = .name ∧ outer.Valid limit
  | separator struct outer =>
    struct.Valid limit outer.depth ∧ struct.fields ≠ [] ∧ outer.Valid limit
  | referenceName opening hole => opening.kind = .openReference ∧ hole.Valid limit
  | closeReference opening name hole =>
    opening.kind = .openReference ∧ name.kind = .name ∧ hole.Valid limit
  | finished => False

/-- Declarations by the rules of the grammar, none of them too deep. -/
def Declarations (limit : Nat) (items : List Tree.Item) : Prop :=
  ∀ item ∈ items, ∃ name isWord tree, item = .declaration name isWord tree ∧
    name.kind = .name ∧ isWord.kind = .isWord ∧ Derives tree ∧ tree.depth ≤ limit

/-- A main value, if it is complete, comes behind the declarations and ends the reading. -/
inductive Valid (limit : Nat) : Reader → Prop
  | reading {items : List Tree.Item} {stage : Stage} (hi : Declarations limit items)
      (hs : stage.Valid limit) : Valid limit ⟨items, stage⟩
  | finished {items : List Tree.Item} {tree : Tree} (hi : Declarations limit items)
      (ht : Derives tree) (hd : tree.depth ≤ limit) : Valid limit ⟨.value tree :: items, .finished⟩

theorem valid_empty (limit : Nat) : Valid limit {} := .reading (by simp [Declarations]) trivial

theorem Hole.Valid.depth_le {hole : Hole} (h : hole.Valid limit) : hole.depth ≤ limit := by
  cases hole with
  | main | declaration => exact Nat.zero_le _
  | element opening before outer =>
    have hroom := h.2.2.1
    simp only [Hole.depth]
    omega
  | field struct start equals outer =>
    have hroom := h.1.room
    simp only [Hole.depth]
    omega

theorem Stage.Awaits.valid {stage : Stage} {hole : Hole} (h : stage.Awaits hole)
    (hs : stage.Valid limit) : hole.Valid limit := by
  cases h with
  | item => trivial
  | value => exact hs

/-- A derivation that has room in its place is put there. -/
theorem valid_fill {items : List Tree.Item} {tree : Tree} {hole : Hole}
    (hi : Declarations limit items) (hh : hole.Valid limit) (ht : Derives tree)
    (hd : tree.depth + hole.depth ≤ limit) : Valid limit (fill items tree hole) := by
  cases hole with
  | main => exact .finished hi ht hd
  | declaration name isWord =>
    refine .reading ?_ trivial
    intro item hm
    rcases List.mem_cons.mp hm with rfl | hm
    · exact ⟨name, isWord, tree, rfl, hh.1, hh.2, ht, hd⟩
    · exact hi item hm
  | element opening before outer =>
    obtain ⟨ho, hb, hroom, hv⟩ := hh
    simp only [Hole.depth] at hd
    refine .reading hi ⟨ho, ?_, ?_, hv⟩
    · rw [List.reverse_cons]
      exact Tree.derivesAll_append hb (.cons ht .nil)
    · simp only [List.reverse_cons, Tree.depthOfAll_append, depthOfAll]
      omega
  | field struct start equals outer =>
    obtain ⟨hs, hc, hn, he, hv⟩ := hh
    have hroom := hs.room
    simp only [Hole.depth] at hd
    refine .reading hi ⟨⟨hs.keyword, hs.opening, ?_, ?_⟩, by simp, hv⟩
    · rw [List.reverse_cons]
      refine Tree.derivesFields_append hs.fields (.cons ?_ hn he ht .nil)
      simpa [CommaFits] using hc
    · simp only [List.reverse_cons, Tree.depthOfFields_append, depthOfFields]
      omega

theorem OpenStruct.Valid.close {struct : OpenStruct} {outer : Hole}
    (h : struct.Valid limit outer.depth) (ht : t.kind = .closeBrace) :
    Derives (struct.close t) ∧ (struct.close t).depth + outer.depth ≤ limit := by
  have hroom := h.room
  refine ⟨.struct h.keyword h.opening h.fields ht, ?_⟩
  simp only [OpenStruct.close, Tree.depth]
  omega

/-- Whatever a reader takes, what it holds stays valid. -/
theorem Takes.valid (h : Takes limit r t r') (hr : r.Valid limit) : r'.Valid limit := by
  cases hr with
  | finished hi ht hd => cases h <;> contradiction
  | reading hi hv =>
    cases h with
    | declaration ht => exact .reading hi ht
    | isWord ht => exact .reading hi ⟨hv, ht⟩
    | number hs ht =>
      have hh := hs.valid hv
      exact valid_fill hi hh (.number ht) (by simpa [Tree.depth] using hh.depth_le)
    | openArray hs ht hd =>
      exact .reading hi ⟨ht, .nil, by simpa [depthOfAll] using hd, hs.valid hv⟩
    | closeArray ht =>
      obtain ⟨ho, hb, hroom, hv⟩ := hv
      refine valid_fill hi hv (.array ho (by simp) hb ht) ?_
      simp only [Tree.depth]
      omega
    | structWord hs ht hd => exact .reading hi ⟨ht, hd, hs.valid hv⟩
    | openBrace ht =>
      obtain ⟨hk, hd, hv⟩ := hv
      exact .reading hi ⟨⟨hk, ht, .nil, by simpa [depthOfFields] using hd⟩, rfl, hv⟩
    | fieldName ht => exact .reading hi ⟨hv.1, hv.2.1, ht, hv.2.2⟩
    | closeEmpty ht =>
      obtain ⟨hs, -, hv⟩ := hv
      exact valid_fill hi hv (hs.close ht).1 (hs.close ht).2
    | equals ht =>
      obtain ⟨hs, hc, hn, hv⟩ := hv
      exact .reading hi ⟨hs, hc, hn, ht, hv⟩
    | comma ht =>
      obtain ⟨hs, hne, hv⟩ := hv
      exact .reading hi ⟨hs, by simp [CommaFits, ht, hne], hv⟩
    | closeStruct ht =>
      obtain ⟨hs, -, hv⟩ := hv
      exact valid_fill hi hv (hs.close ht).1 (hs.close ht).2
    | openReference hs ht => exact .reading hi ⟨ht, hs.valid hv⟩
    | referenceName ht => exact .reading hi ⟨hv.1, ht, hv.2⟩
    | closeReference ht =>
      obtain ⟨ho, hn, hv⟩ := hv
      exact valid_fill hi hv (.reference ho hn ht) (by simpa [Tree.depth] using hv.depth_le)

/-! ## Runs -/

theorem run_cons (limit : Nat) (r : Reader) (t : Token) (ts : List Token) :
    run limit r (t :: ts) = step limit r t >>= fun r' => run limit r' ts := List.foldlM_cons

theorem run_cons_of_takes (h : Takes limit r t r') (ts : List Token) :
    run limit r (t :: ts) = run limit r' ts := by
  rw [run_cons, step_of_takes h]
  rfl

/-- A run that succeeds has taken its tokens, and they are all it has taken. -/
theorem run_valid {ts : List Token} (h : run limit r ts = .ok r') (hr : r.Valid limit) :
    r'.Valid limit ∧ r'.leaves = r.leaves ++ ts := by
  induction ts generalizing r with
  | nil =>
    cases h
    exact ⟨hr, (List.append_nil _).symm⟩
  | cons t ts ih =>
    rw [run_cons] at h
    cases hs : step limit r t with
    | error e => rw [hs] at h; cases h
    | ok r₁ =>
      rw [hs] at h
      have ht := takes_of_step hs
      obtain ⟨hv, hl⟩ := ih h (ht.valid hr)
      exact ⟨hv, by rw [hl, ht.leaves, List.append_assoc]; rfl⟩

end Reader

end ConstLang
