/-
How far a reader gets. Every reader can be led to a place where it may stop, `completes`: the
place that is open is filled with a number, and then what is open around it is closed, from the
inside out. So the tokens that a reader takes are what the grammar lets a text start with, and
the tokens behind which it may stop are what the grammar lets a text be: `viable_iff` and
`sentence_iff`.
-/
import ConstLang.Proofs.Parsing

namespace ConstLang

/-- Some token of a kind. -/
def Token.ofKind (kind : Token.Kind) : Token := ⟨kind, "", {}⟩

namespace Reader

theorem run_append (limit : Nat) (r : Reader) (as bs : List Token) :
    run limit r (as ++ bs) = run limit r as >>= fun r' => run limit r' bs := List.foldlM_append

variable {limit : Nat} {r r' : Reader} {t : Token}

theorem run_append_of_ok {as : List Token} (h : run limit r as = .ok r') (bs : List Token) :
    run limit r (as ++ bs) = run limit r' bs := by
  rw [run_append, h]
  rfl

theorem exists_run_of_append {as bs : List Token} (h : run limit r (as ++ bs) = .ok r') :
    ∃ r₁, run limit r as = .ok r₁ ∧ run limit r₁ bs = .ok r' := by
  rw [run_append] at h
  cases ha : run limit r as with
  | error e => rw [ha] at h; cases h
  | ok r₁ => rw [ha] at h; exact ⟨r₁, rfl, h⟩

theorem run_mono {limit' : Nat} (hle : limit ≤ limit') {ts : List Token}
    (h : run limit r ts = .ok r') : run limit' r ts = .ok r' := by
  induction ts generalizing r with
  | nil => exact h
  | cons t ts ih =>
    rw [run_cons] at h
    cases hs : step limit r t with
    | error e => rw [hs] at h; cases h
    | ok r₁ =>
      rw [hs] at h
      rw [run_cons_of_takes ((takes_of_step hs).mono hle)]
      exact ih h

/-! ## Every reader can be led to a stop -/

/-- Some tokens lead the reader to a place where it may stop. -/
def Completes (limit : Nat) (r : Reader) : Prop :=
  ∃ ts r', run limit r ts = .ok r' ∧ r'.MayStop

theorem Completes.of_stop (h : r.MayStop) : Completes limit r := ⟨[], r, rfl, h⟩

theorem Completes.of_takes (ht : Takes limit r t r') (h : Completes limit r') :
    Completes limit r := by
  obtain ⟨ts, r₁, hr, hs⟩ := h
  exact ⟨t :: ts, r₁, (run_cons_of_takes ht ts).trans hr, hs⟩

/-- Behind a value, what is open around it can be closed. -/
theorem completes_fill (limit : Nat) (items : List Tree.Item) (tree : Tree) (hole : Hole) :
    Completes limit (fill items tree hole) := by
  induction hole generalizing tree with
  | main => exact .of_stop (.inr rfl)
  | declaration name isWord => exact .of_stop (.inl rfl)
  | element opening before outer ih =>
    have ht : (Token.ofKind .closeBracket).kind = .closeBracket := rfl
    exact .of_takes (.closeArray ht) (ih _)
  | field struct start equals outer ih =>
    have ht : (Token.ofKind .closeBrace).kind = .closeBrace := rfl
    exact .of_takes (.closeStruct ht) (ih _)

theorem completes_value (limit : Nat) (items : List Tree.Item) (hole : Hole) :
    Completes limit ⟨items, .value hole⟩ := by
  have ht : (Token.ofKind .number).kind = .number := rfl
  exact .of_takes (.number .value ht) (completes_fill limit items _ hole)

theorem completes_equals (limit : Nat) (items : List Tree.Item) (struct : OpenStruct)
    (start : FieldStart) (outer : Hole) : Completes limit ⟨items, .equals struct start outer⟩ := by
  have ht : (Token.ofKind .equals).kind = .equals := rfl
  exact .of_takes (.equals ht) (completes_value limit items _)

theorem completes_closeReference (limit : Nat) (items : List Tree.Item) (opening name : Token)
    (hole : Hole) : Completes limit ⟨items, .closeReference opening name hole⟩ := by
  have ht : (Token.ofKind .closeReference).kind = .closeReference := rfl
  exact .of_takes (.closeReference ht) (completes_fill limit items _ hole)

/-- **No reader is stuck**, whatever it has taken and whatever the limit: nothing has to be
opened on the way to a stop. -/
theorem completes (limit : Nat) (r : Reader) : Completes limit r := by
  obtain ⟨items, stage⟩ := r
  cases stage with
  | item => exact .of_stop (.inl rfl)
  | finished => exact .of_stop (.inr rfl)
  | isWord name =>
    have ht : (Token.ofKind .isWord).kind = .isWord := rfl
    exact .of_takes (.isWord ht) (completes_value limit items _)
  | value hole => exact completes_value limit items hole
  | openBrace keyword outer =>
    have ho : (Token.ofKind .openBrace).kind = .openBrace := rfl
    have hc : (Token.ofKind .closeBrace).kind = .closeBrace := rfl
    refine .of_takes (.openBrace ho) (.of_takes (.closeEmpty hc) ?_)
    exact completes_fill limit items _ outer
  | fieldName struct comma outer =>
    have ht : (Token.ofKind .name).kind = .name := rfl
    exact .of_takes (.fieldName ht) (completes_equals limit items struct _ outer)
  | equals struct start outer => exact completes_equals limit items struct start outer
  | separator struct outer =>
    have ht : (Token.ofKind .closeBrace).kind = .closeBrace := rfl
    exact .of_takes (.closeStruct ht) (completes_fill limit items _ outer)
  | referenceName opening hole =>
    have ht : (Token.ofKind .name).kind = .name := rfl
    exact .of_takes (.referenceName ht) (completes_closeReference limit items opening _ hole)
  | closeReference opening name hole =>
    exact completes_closeReference limit items opening name hole

/-! ## The reader and the grammar -/

/-- The reader may stop behind some tokens if and only if they can be a whole text. -/
theorem sentence_iff {tokens : List Token} :
    Tree.Sentence limit (tokens.map Token.kind) ↔
      ∃ r, run limit {} tokens = .ok r ∧ r.MayStop := by
  constructor
  · intro h
    obtain ⟨items, hder, hd, hk⟩ := h
    obtain ⟨items', hder', rfl, hd'⟩ := Tree.Item.exists_derivation hder hd hk.symm
    obtain ⟨r, hr, hs, -⟩ := exists_run_items hder' hd' []
    exact ⟨r, hr, hs⟩
  · intro h
    obtain ⟨r, hr, hs⟩ := h
    obtain ⟨hv, hl⟩ := run_valid hr (valid_empty limit)
    obtain ⟨hder, hd, hleaves⟩ := hv.derivation hs
    exact ⟨_, hder, hd, by rw [hleaves, hl]; rfl⟩

/-- **The reader takes what is viable:** some tokens can be taken if and only if a text can start
with them. -/
theorem viable_iff {tokens : List Token} :
    Tree.Viable limit (tokens.map Token.kind) ↔ ∃ r, run limit {} tokens = .ok r := by
  constructor
  · intro h
    obtain ⟨rest, hs⟩ := h
    have hk : rest = (rest.map Token.ofKind).map Token.kind := by
      rw [List.map_map]
      exact (List.map_id' rest).symm
    rw [hk, ← List.map_append] at hs
    obtain ⟨r, hr, -⟩ := sentence_iff.mp hs
    obtain ⟨r₁, hr₁, -⟩ := exists_run_of_append hr
    exact ⟨r₁, hr₁⟩
  · intro h
    obtain ⟨r, hr⟩ := h
    obtain ⟨ts, r', hr', hs⟩ := completes limit r
    refine ⟨ts.map Token.kind, ?_⟩
    rw [← List.map_append]
    exact sentence_iff.mpr ⟨r', (run_append_of_ok hr ts).trans hr', hs⟩

/-- Behind tokens that are taken, the token that may stand next is the one that is taken. -/
theorem admits_iff {tokens : List Token} (hr : run limit {} tokens = .ok r)
    (ht : t.kind ≠ .endOfInput) :
    Tree.Admits limit (tokens.map Token.kind) t.kind ↔ ∃ r', step limit r t = .ok r' := by
  have hk : tokens.map Token.kind ++ [t.kind] = (tokens ++ [t]).map Token.kind := by simp
  have hstep : run limit r [t] = step limit r t := by
    rw [run_cons]
    cases step limit r t <;> rfl
  rw [Tree.Admits, if_neg ht, hk, viable_iff, run_append_of_ok hr, hstep]

/-- Behind tokens that are taken, the end of the input may stand where the reader may stop. -/
theorem admits_end_iff {tokens : List Token} (hr : run limit {} tokens = .ok r)
    (ht : t.kind = .endOfInput) :
    Tree.Admits limit (tokens.map Token.kind) t.kind ↔ r.MayStop := by
  rw [Tree.Admits, if_pos ht, sentence_iff, hr]
  simp only [Except.ok.injEq, exists_eq_left']

end Reader

end ConstLang
