/-
Parsing against the grammar. `parse_eq_ok_iff`: a text has the items that the grammar derives
from its tokens within the limit on the nesting, and it has no others. `eq_of_leaves_eq`: the
grammar derives a sequence of tokens in one way only, however deep.
-/
import ConstLang.Proofs.Reader.Completeness
import ConstLang.Proofs.Token.Reading

namespace ConstLang

namespace Reader

/-- A reader may stop where an item may start or behind the main value. -/
theorem finish_eq_ok_iff {r : Reader} {last : Token} {items : List Tree.Item} :
    r.finish last = .ok items ↔ r.MayStop ∧ items = r.items.reverse := by
  obtain ⟨before, stage⟩ := r
  cases stage <;> simp [finish, MayStop, eq_comm]

theorem derivation_of_declarations {limit : Nat} {before items : List Tree.Item}
    (hb : Declarations limit before) (hi : Tree.Item.Derivation items) :
    Tree.Item.Derivation (before.reverse ++ items) := by
  induction before generalizing items with
  | nil => exact hi
  | cons item before ih =>
    obtain ⟨hitem, hbefore⟩ := List.forall_mem_cons.mp hb
    obtain ⟨name, isWord, tree, rfl, hn, hw, ht, -⟩ := hitem
    rw [List.reverse_cons, List.append_assoc]
    exact ih hbefore (.declaration hn hw ht hi)

theorem Declarations.depth_le {limit : Nat} {items : List Tree.Item}
    (h : Declarations limit items) : ∀ item ∈ items, item.depth ≤ limit := by
  intro item hm
  obtain ⟨name, isWord, tree, rfl, -, -, -, hd⟩ := h item hm
  exact hd

/-- What a reader holds when it may stop is a derivation. -/
theorem Valid.derivation {limit : Nat} {r : Reader} (h : r.Valid limit) (hs : r.MayStop) :
    Tree.Item.Derivation r.items.reverse ∧ (∀ item ∈ r.items.reverse, item.depth ≤ limit) ∧
      Tree.Item.leavesOfAll r.items.reverse = r.leaves := by
  have hl : r.leaves = Tree.Item.leavesOfAll r.items.reverse := by
    rcases hs with hs | hs <;> simp [leaves, hs, Stage.leaves]
  refine ⟨?_, ?_, hl.symm⟩
  · cases h with
    | reading hi hv =>
      have := derivation_of_declarations hi .nil
      rwa [List.append_nil] at this
    | finished hi ht hd =>
      rw [List.reverse_cons]
      exact derivation_of_declarations hi (.main ht)
  · intro item hm
    rw [List.mem_reverse] at hm
    cases h with
    | reading hi hv => exact hi.depth_le item hm
    | finished hi ht hd =>
      rcases List.mem_cons.mp hm with rfl | hm
      · exact hd
      · exact hi.depth_le item hm

/-- **Reading is deriving.** A run over tokens that may stop with some items is the same as a
derivation of the items from the tokens, no item too deep. -/
theorem run_finish_iff {limit : Nat} {tokens : List Token} {last : Token}
    {items : List Tree.Item} :
    (∃ r, run limit {} tokens = .ok r ∧ r.finish last = .ok items) ↔
      Tree.Item.Derivation items ∧ Tree.Item.leavesOfAll items = tokens ∧
        ∀ item ∈ items, item.depth ≤ limit := by
  constructor
  · intro h
    obtain ⟨r, hr, hf⟩ := h
    obtain ⟨hs, rfl⟩ := finish_eq_ok_iff.mp hf
    obtain ⟨hv, hl⟩ := run_valid hr (valid_empty limit)
    obtain ⟨hder, hdepth, hleaves⟩ := hv.derivation hs
    exact ⟨hder, hleaves.trans hl, hdepth⟩
  · intro h
    obtain ⟨hder, rfl, hdepth⟩ := h
    obtain ⟨r, hr, hs, hi⟩ := exists_run_items hder hdepth []
    refine ⟨r, hr, finish_eq_ok_iff.mpr ⟨hs, ?_⟩⟩
    rw [hi, List.append_nil, List.reverse_reverse]

end Reader

namespace Tree

theorem exists_depth_le (items : List Item) : ∃ limit, ∀ item ∈ items, item.depth ≤ limit := by
  induction items with
  | nil => exact ⟨0, by simp⟩
  | cons item items ih =>
    obtain ⟨limit, h⟩ := ih
    refine ⟨max item.depth limit, List.forall_mem_cons.mpr ⟨Nat.le_max_left _ _, ?_⟩⟩
    intro item' hm
    exact Nat.le_trans (h item' hm) (Nat.le_max_right _ _)

/-- The grammar is unambiguous: the reader, which knows the tokens only, finds every
derivation, if the limit is large enough. -/
theorem eq_of_leaves_eq {items items' : List Item} (h : Item.Derivation items)
    (h' : Item.Derivation items') (hl : Item.leavesOfAll items' = Item.leavesOfAll items) :
    items' = items := by
  obtain ⟨limit, hd⟩ := exists_depth_le (items ++ items')
  obtain ⟨hd, hd'⟩ := List.forall_mem_append.mp hd
  obtain ⟨r, hr, -, hi⟩ := Reader.exists_run_items h hd []
  obtain ⟨r', hr', -, hi'⟩ := Reader.exists_run_items h' hd' []
  rw [hl, hr] at hr'
  cases hr'
  rw [hi, List.append_nil, List.append_nil] at hi'
  exact (List.reverse_inj.mp hi').symm

theorem ofStream_eq_ok_iff {limit : Nat} {s : TokenStream} {items : List Item} :
    ofStream limit s = .ok items ↔ ∃ last, s.ending = .ok last ∧
      ∃ r, Reader.run limit {} s.tokens = .ok r ∧ r.finish last = .ok items := by
  unfold ofStream
  cases Reader.run limit {} s.tokens with
  | error e => simp [bind, Except.bind]
  | ok r =>
    cases s.ending with
    | error e => simp [bind, Except.bind]
    | ok last => simp [bind, Except.bind]

/-- **Parsing is deriving.** A text parses to some items if and only if it has tokens up to its
end, the grammar derives the items from exactly these tokens, and nowhere in an item are more
than 256 arrays and structs open at once. The tokens have one derivation at most. -/
theorem parse_eq_ok_iff (text : String) (items : List Item) :
    (parse text = .ok items ↔
      ∃ tokens last, tokenize text = .ok (tokens ++ [last]) ∧ last.kind = .endOfInput ∧
        Item.Derivation items ∧ Item.leavesOfAll items = tokens ∧
        ∀ item ∈ items, item.depth ≤ 256) ∧
    (Item.Derivation items → ∀ items', Item.Derivation items' →
      Item.leavesOfAll items' = Item.leavesOfAll items → items' = items) := by
  refine ⟨?_, fun h items' h' hl => eq_of_leaves_eq h h' hl⟩
  unfold parse
  rw [ofStream_eq_ok_iff]
  constructor
  · intro h
    obtain ⟨last, he, hr⟩ := h
    have hk := (Cursor.ofText text).kind_of_ending he
    exact ⟨_, last, (tokenize_eq_ok_iff text _ last).mpr ⟨rfl, he⟩, hk,
      Reader.run_finish_iff.mp hr⟩
  · intro h
    obtain ⟨tokens, last, ht, -, hd⟩ := h
    obtain ⟨rfl, he⟩ := (tokenize_eq_ok_iff text tokens last).mp ht
    exact ⟨last, he, Reader.run_finish_iff.mpr hd⟩

end Tree

end ConstLang
