/-
Trees as texts. `Tree.Item.print` spells the tokens of some items out with a blank behind each of
them. If the grammar derives the items and does not nest them too deep, then the text parses to
them, at other places: `exists_parse_print`. So it stands for the program that the items stand for,
and what a text can come to may be read off programs: `exists_ofText_print`.
-/
import ConstLang.Proofs.Spacing

namespace ConstLang

namespace Tree.Item

/-- The tokens of some items, with a blank behind each of them. -/
def spaced (items : List Item) : List (Token × List Char) :=
  (leavesOfAll items).map fun t => (t, [' '])

/-- The items as a text. -/
def print (items : List Item) : String := .ofList (spellOut (spaced items))

theorem map_fst_spaced (items : List Item) : (spaced items).map Prod.fst = leavesOfAll items := by
  rw [spaced, List.map_map]
  exact List.map_id _

theorem wellSpaced_spaced (items : List Item) : WellSpaced (spaced items) := by
  have hgap : ∀ p ∈ spaced items, p.2 = [' '] := by simp [spaced]
  refine ⟨fun p hp => ?_, List.Pairwise.isChain (List.pairwise_of_forall_mem_list ?_)⟩
  · rw [hgap p hp]
    exact List.forall_mem_singleton.mpr rfl
  · intro p hp q hq _
    rw [hgap p hp]
    exact List.cons_ne_nil _ _

theorem spellOut_spaced (items : List Item) :
    spellOut (spaced items) = (leavesOfAll items).flatMap fun t => t.text.toList ++ [' '] := by
  rw [spaced]
  induction leavesOfAll items with
  | nil => rfl
  | cons t ts ih => rw [List.map_cons, spellOut, ih, List.flatMap_cons, List.append_assoc]

end Tree.Item

variable {items : List Tree.Item}

/-- The tokens of items as a stream that ends at the end of the input. -/
def Tree.Item.stream (items : List Tree.Item) : TokenStream := ⟨leavesOfAll items, .ok (.endAt {})⟩

/-- The text of some items has their tokens, at other places. -/
theorem ofText_print_relocate (hs : AllSpelled (Tree.Item.leavesOfAll items)) :
    (TokenStream.ofText (Tree.Item.print items)).relocate .forget =
      (Tree.Item.stream items).relocate .forget := by
  have hblanks : ∀ c ∈ ([] : List Char), isBlank c := by simp
  obtain ⟨tokens, before, blanks, hsplits, hb, hc⟩ := exists_splits_spellOut
    (Tree.Item.wellSpaced_spaced items) (Tree.Item.map_fst_spaced items ▸ hs) [] hblanks
  have htext : (Tree.Item.print items).toList = spellOut (Tree.Item.spaced items) :=
    String.toList_ofList
  obtain ⟨htokens, hending⟩ := (tokenize_eq_ok_iff _ _ _).mp
    (tokenize_eq_ok_iff_exists_splits.mpr ⟨tokens, before, blanks, htext ▸ hsplits, hb, rfl⟩)
  have hcontent : tokens.map Token.content = (Tree.Item.leavesOfAll items).map Token.content := by
    rw [hc, ← Tree.Item.map_fst_spaced, List.map_map]
    rfl
  rw [TokenStream.relocate, htokens, hending, map_relocate_of_content hcontent]
  rfl

/-- **Printing and parsing.** The text of items that the grammar derives, of no more than 256
levels, parses to these items, at other places. -/
theorem exists_parse_print (hd : Tree.Item.Derivation items)
    (hs : AllSpelled (Tree.Item.leavesOfAll items)) (hdepth : ∀ item ∈ items, item.depth ≤ 256) :
    ∃ items', Tree.parse (Tree.Item.print items) = .ok items' ∧
      items'.map (Tree.Item.relocate .forget) = items.map (Tree.Item.relocate .forget) := by
  have hread : Tree.ofStream Reader.maxDepth (Tree.Item.stream items) = .ok items :=
    Tree.ofStream_eq_ok_iff.mpr ⟨_, rfl, Reader.run_finish_iff.mpr ⟨hd, rfl, hdepth⟩⟩
  have hrelocate : mapOutcome (SyntaxError.relocate .forget) (List.map (Tree.Item.relocate .forget))
      (Tree.parse (Tree.Item.print items)) = .ok (items.map (Tree.Item.relocate .forget)) := by
    rw [Tree.parse, ← Tree.ofStream_relocate, ofText_print_relocate hs, Tree.ofStream_relocate,
      hread]
    rfl
  exact mapOutcome_eq_ok_iff.mp hrelocate

/-- **The program of a printed text** is the one that its items stand for, at other places. -/
theorem exists_ofText_print {p : Program} (hd : Tree.Item.Derivation items)
    (hs : AllSpelled (Tree.Item.leavesOfAll items)) (hdepth : ∀ item ∈ items, item.depth ≤ 256)
    (hp : Program.ofTrees items = .ok p) :
    ∃ p', Program.ofText (Tree.Item.print items) = .ok p' ∧
      p'.relocate .forget = p.relocate .forget := by
  obtain ⟨items', hparse, hitems⟩ := exists_parse_print hd hs hdepth
  have hrelocate : mapOutcome (Error.relocate .forget) (Program.relocate .forget)
      (Program.ofTrees items') = .ok (p.relocate .forget) := by
    rw [← Program.ofTrees_relocate, hitems, Program.ofTrees_relocate, hp]
    rfl
  obtain ⟨p', hp', hplaces⟩ := mapOutcome_eq_ok_iff.mp hrelocate
  exact ⟨p', Program.ofText_eq_ok_iff.mpr ⟨items', hparse, hp'⟩, hplaces⟩

/-- Programs that differ in their places only have the same outcome. -/
theorem sameOutcome_of_relocate {p p' : Program} (h : p'.relocate .forget = p.relocate .forget)
    (options : Options) : SameOutcome (p.evaluate options) (p'.evaluate options) := by
  refine sameOutcome_of_mapOutcome ?_
  rw [← Program.evaluate_relocate, ← Program.evaluate_relocate, h]

end ConstLang
