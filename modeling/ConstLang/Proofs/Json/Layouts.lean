/-
Where the layouts differ. A JSON text is read as its strings are: a quote opens a string, a
quote that is not escaped closes it, and `located` gives each character with the spot it stands
at. A string that is written is closed where it ends, whatever it holds, so that every piece of
a text begins and ends outside strings; there the compact layout has visible characters only.
`condense_toJson`: without the spaces and line feeds outside strings, the pretty text is the
compact one.
-/
import ConstLang.Proofs.Json.Pieces
import ConstLang.Proofs.Json.Tokens

namespace ConstLang

namespace Json

/-! ## Strings in a text -/

/-- Where a character of a JSON text stands. -/
inductive Spot
  | outside
  | inside
  /-- Inside a string, behind the backslash of an escape. -/
  | escaped
deriving DecidableEq

/-- Where what follows a character stands. The opening quote stands outside its string. -/
def Spot.next : Spot → Char → Spot
  | outside, c => if c = '"' then inside else outside
  | inside, c => if c = '"' then outside else if c = '\\' then escaped else inside
  | escaped, _ => inside

theorem Spot.outside_next {c : Char} (hq : c ≠ '"') : outside.next c = outside := if_neg hq

/-- A character that is neither a quote nor a backslash stands for itself. -/
theorem Spot.inside_next {c : Char} (hq : c ≠ '"') (hb : c ≠ '\\') : inside.next c = inside := by
  rw [next, if_neg hq, if_neg hb]

/-- Where what follows a text stands. -/
def Spot.after (s : Spot) (cs : List Char) : Spot := cs.foldl Spot.next s

/-- The characters of a text, each with where it stands. -/
def located (s : Spot) : List Char → List (Char × Spot)
  | [] => []
  | c :: cs => (c, s) :: located (s.next c) cs

theorem Spot.after_append (s : Spot) (as bs : List Char) :
    s.after (as ++ bs) = (s.after as).after bs := List.foldl_append

theorem located_append (s : Spot) (as bs : List Char) :
    located s (as ++ bs) = located s as ++ located (s.after as) bs := by
  induction as generalizing s with
  | nil => rfl
  | cons a as ih => exact congrArg _ (ih (s.next a))

theorem map_fst_located (s : Spot) (cs : List Char) : (located s cs).map Prod.fst = cs := by
  induction cs generalizing s with
  | nil => rfl
  | cons c cs ih => exact congrArg _ (ih (s.next c))

/-- A text that begins outside strings ends there. -/
def Closed (cs : List Char) : Prop := Spot.outside.after cs = .outside

theorem Closed.append {as bs : List Char} (ha : Closed as) (hb : Closed bs) :
    Closed (as ++ bs) := by
  rw [Closed, Spot.after_append, ha]
  exact hb

theorem Closed.located_append {as : List Char} (ha : Closed as) (bs : List Char) :
    located .outside (as ++ bs) = located .outside as ++ located .outside bs := by
  rw [Json.located_append, ha]

theorem Closed.mem_located_append {as bs : List Char} (ha : Closed as) {x : Char × Spot} :
    x ∈ located .outside (as ++ bs) ↔ x ∈ located .outside as ∨ x ∈ located .outside bs := by
  rw [ha.located_append, List.mem_append]

/-- Without a quote, all of a text stands outside strings. -/
theorem closed_of_notMem {cs : List Char} (h : '"' ∉ cs) : Closed cs := by
  induction cs with
  | nil => rfl
  | cons c cs ih =>
    obtain ⟨hc, hcs⟩ := not_or.mp (mt List.mem_cons.mpr h)
    rw [Closed, Spot.after, List.foldl_cons, Spot.outside_next (Ne.symm hc)]
    exact ih hcs

theorem located_of_notMem {cs : List Char} (h : '"' ∉ cs) :
    located .outside cs = cs.map (·, .outside) := by
  induction cs with
  | nil => rfl
  | cons c cs ih =>
    obtain ⟨hc, hcs⟩ := not_or.mp (mt List.mem_cons.mpr h)
    rw [located, Spot.outside_next (Ne.symm hc), ih hcs, List.map_cons]

/-! ## Strings that are written -/

theorem hexDigit_ne_quote : ∀ n < 16, hexDigit n ≠ '"' ∧ hexDigit n ≠ '\\' := by decide

/-- What is written for a character inside a string does not leave the string. -/
theorem located_escape (c : Char) :
    Spot.inside.after (escape c) = .inside ∧
      ∀ p ∈ located .inside (escape c), p.2 ≠ .outside := by
  unfold escape
  split
  -- A control character has an escape of six characters, any other one stands for itself.
  case h_8 hq hb _ _ _ _ _ =>
    split
    · next hc =>
      obtain ⟨hq₁, hb₁⟩ := hexDigit_ne_quote (c.toNat / 16) (by omega)
      obtain ⟨hq₂, hb₂⟩ := hexDigit_ne_quote (c.toNat % 16) (by omega)
      simp [Spot.after, located, Spot.next, hq₁, hb₁, hq₂, hb₂]
    · simp [Spot.after, located, Spot.inside_next hq hb]
  all_goals decide

theorem located_escaped (cs : List Char) :
    Spot.inside.after (cs.flatMap escape) = .inside ∧
      ∀ p ∈ located .inside (cs.flatMap escape), p.2 ≠ .outside := by
  induction cs with
  | nil => exact ⟨rfl, by simp [located]⟩
  | cons c cs ih =>
    obtain ⟨hafter, hlocated⟩ := located_escape c
    rw [List.flatMap_cons, Spot.after_append, located_append, hafter]
    exact ⟨ih.1, List.forall_mem_append.mpr ⟨hlocated, ih.2⟩⟩

/-- **A string ends where it is closed**, whatever quotes and backslashes it holds. -/
theorem closed_writeString (s : String) : Closed (writeString s) := by
  have hopen : Spot.outside.next '"' = .inside := rfl
  rw [Closed, writeString, Spot.after, List.foldl_cons, hopen, ← Spot.after, Spot.after_append,
    (located_escaped s.toList).1]
  rfl

/-- Of a string that is written, only the opening quote stands outside. -/
theorem eq_quote_of_mem_located_writeString {s : String} {c : Char}
    (h : (c, Spot.outside) ∈ located .outside (writeString s)) : c = '"' := by
  have hopen : Spot.outside.next '"' = .inside := rfl
  obtain ⟨hafter, hbody⟩ := located_escaped s.toList
  rw [writeString, located, hopen, located_append, hafter] at h
  rcases List.mem_cons.mp h with h | h
  · cases h
    rfl
  rcases List.mem_append.mp h with h | h
  · exact absurd rfl (hbody _ h)
  · cases h with
    | tail _ h => cases h

/-! ## Visible characters -/

/-- Whether a character is a sign of ASCII that leaves a mark, as no blank and no control does. -/
def isVisible (c : Char) : Bool := 0x20 < c.toNat && c.toNat < 0x7f

theorem isVisible_of_isDigit {c : Char} (h : c.isDigit) : isVisible c := by
  simp only [Char.isDigit, Bool.and_eq_true, decide_eq_true_eq, UInt32.le_iff_toNat_le] at h
  have hlow : 48 ≤ c.toNat := h.1
  have hhigh : c.toNat ≤ 57 := h.2
  simp only [isVisible, Bool.and_eq_true, decide_eq_true_eq]
  omega

/-- Whatever stands outside strings is visible. -/
def Neat (cs : List Char) : Prop := ∀ c, (c, Spot.outside) ∈ located .outside cs → isVisible c

theorem neat_of_notMem {cs : List Char} (hq : '"' ∉ cs) (hv : ∀ c ∈ cs, isVisible c) : Neat cs := by
  intro c h
  rw [located_of_notMem hq] at h
  obtain ⟨d, hd, heq⟩ := List.mem_map.mp h
  cases heq
  exact hv c hd

theorem neat_writeString (s : String) : Neat (writeString s) := by
  intro c h
  rw [eq_quote_of_mem_located_writeString h]
  decide

theorem quote_notMem_writeNumber (x : Binary64) : '"' ∉ writeNumber x :=
  fun h => absurd (isWordChar_of_mem_writeNumber x _ h) (by decide)

theorem isVisible_of_mem_writeNumber (x : Binary64) : ∀ c ∈ writeNumber x, isVisible c := by
  unfold writeNumber
  split
  · next hx =>
    intro c hc
    obtain hdigit | rfl | rfl | rfl := Numeral.isNumeralChar_of_mem_write hx c hc
    · exact isVisible_of_isDigit hdigit
    all_goals rfl
  · exact List.all_eq_true.mp rfl

/-! ## Pieces -/

theorem quote_notMem_newline (layout : Layout) (depth : Nat) : '"' ∉ layout.newline depth := by
  cases layout <;> simp [Layout.newline]

theorem quote_notMem_core (k : Core) : '"' ∉ k.text := by
  cases k with
  | mark m => cases m <;> decide
  | number x => exact quote_notMem_writeNumber x

theorem closed_front (layout : Layout) (front : Front) : Closed (front.text layout) := by
  cases front with
  | none => rfl
  | line depth => exact closed_of_notMem (quote_notMem_newline layout depth)
  | key depth name =>
    have hcolon : Closed layout.colon := by cases layout <;> rfl
    exact (closed_of_notMem (quote_notMem_newline layout depth)).append
      ((closed_writeString name).append hcolon)

theorem closed_core (k : Core) : Closed k.text := closed_of_notMem (quote_notMem_core k)

/-- **Where a character of a text stands** is where it stands in its piece, for every piece is
closed. -/
theorem mem_located_piecesText {layout : Layout} {ps : List Piece} {x : Char × Spot} :
    x ∈ located .outside (piecesText layout ps) ↔
      ∃ p ∈ ps, x ∈ located .outside (p.front.text layout) ∨ x ∈ located .outside p.core.text := by
  induction ps with
  | nil => simp [located, piecesText_nil]
  | cons p ps ih =>
    rw [piecesText_cons, (closed_front layout p.front).mem_located_append,
      (closed_core p.core).mem_located_append, ih]
    simp only [List.mem_cons, exists_eq_or_imp, or_assoc]

theorem neat_core (k : Core) : Neat k.text := by
  refine neat_of_notMem (quote_notMem_core k) ?_
  cases k with
  | mark m => cases m <;> exact List.all_eq_true.mp rfl
  | number x => exact isVisible_of_mem_writeNumber x

theorem neat_front (front : Front) : Neat (front.text .compact) := by
  cases front with
  | none | line => intro c h; cases h
  | key depth name =>
    have hcolon : Neat Layout.compact.colon := neat_of_notMem (by decide) (List.all_eq_true.mp rfl)
    intro c h
    rcases (closed_writeString name).mem_located_append.mp h with h | h
    · exact neat_writeString name c h
    · exact hcolon c h

/-- **The compact layout shows nothing invisible** outside strings. -/
theorem neat_piecesText (ps : List Piece) : Neat (piecesText .compact ps) := by
  intro c h
  obtain ⟨p, -, hfront | hcore⟩ := mem_located_piecesText.mp h
  · exact neat_front p.front c hfront
  · exact neat_core p.core c hcore

/-! ## Leaving out the layout -/

/-- Whether a character is a space or a line feed outside strings. -/
def isFiller : Char × Spot → Bool
  | (c, s) => s = .outside && (c = ' ' || c = '\n')

/-- A text without the spaces and line feeds outside its strings. -/
def condensed (cs : List Char) : List Char :=
  ((located .outside cs).filter fun p => !isFiller p).map Prod.fst

/-- A JSON text without the spaces and line feeds outside its strings. -/
def condense (text : String) : String := String.ofList (condensed text.toList)

theorem condensed_append {as : List Char} (ha : Closed as) (bs : List Char) :
    condensed (as ++ bs) = condensed as ++ condensed bs := by
  simp only [condensed, ha.located_append, List.filter_append, List.map_append]

/-- Nothing is left out of a text that is visible outside its strings. -/
theorem condensed_of_neat {cs : List Char} (h : Neat cs) : condensed cs = cs := by
  have hkept : ∀ p ∈ located .outside cs, (!isFiller p) = true := by
    rintro ⟨c, s⟩ hp
    cases s with
    | outside =>
      have hvisible := h c hp
      have hspace : c ≠ ' ' := by rintro rfl; exact absurd hvisible (by decide)
      have hfeed : c ≠ '\n' := by rintro rfl; exact absurd hvisible (by decide)
      simp [isFiller, hspace, hfeed]
    | inside | escaped => rfl
  rw [condensed, List.filter_eq_self.mpr hkept, map_fst_located]

theorem condensed_newline (depth : Nat) : condensed (Layout.pretty.newline depth) = [] := by
  rw [condensed, located_of_notMem (quote_notMem_newline .pretty depth), List.map_eq_nil_iff,
    List.filter_eq_nil_iff]
  simp [Layout.newline, isFiller]

theorem condensed_front (front : Front) :
    condensed (front.text .pretty) = front.text .compact := by
  cases front with
  | none => rfl
  | line depth => exact condensed_newline depth
  | key depth name =>
    have hcolon : condensed Layout.pretty.colon = Layout.compact.colon := by decide
    rw [Front.text, condensed_append (closed_of_notMem (quote_notMem_newline .pretty depth)),
      condensed_append (closed_writeString name), condensed_newline,
      condensed_of_neat (neat_writeString name), hcolon]
    rfl

/-- Piece by piece, what the pretty layout adds is left out again. -/
theorem condensed_piecesText (ps : List Piece) :
    condensed (piecesText .pretty ps) = piecesText .compact ps := by
  induction ps with
  | nil => rfl
  | cons p ps ih =>
    rw [piecesText_cons, piecesText_cons, condensed_append (closed_front .pretty p.front),
      condensed_append (closed_core p.core), condensed_front,
      condensed_of_neat (neat_core p.core), ih]

/-- **The layouts write the same tokens.** Without the spaces and line feeds outside strings, the
pretty text is the compact one, and that one has nothing invisible outside strings. Both are cut
into the tokens of the value. -/
theorem condense_toJson (v : Value) :
    condense (v.toJson .pretty) = v.toJson .compact ∧
      (∀ c, (c, Spot.outside) ∈ located .outside (v.toJson .compact).toList → isVisible c) ∧
      ∀ layout, tokens? (v.toJson layout).toList = some (valueTokens v []) := by
  refine ⟨?_, ?_, ?_⟩
  · rw [condense, toList_toJson, condensed_piecesText, ← toList_toJson, String.ofList_toList]
  · rw [toList_toJson]
    exact neat_piecesText _
  · intro layout
    have hends : EndsWord [] := fun c hc => nomatch hc
    rw [Value.toJson, String.toList_ofList, tokens?_write layout 0 v hends, tokens?,
      Option.map_some]

end Json

end ConstLang
