/-
The tokens of a text. A cursor stands at a place in a text; `Cursor.next` skips blanks and
reads one token, or says why it cannot and stays. `Cursor.stream` is all that repeated reading
gives: the tokens up to the end of the text or up to the first piece that is refused. It ends
because a token that is not the end of the input takes up text (`Cursor.next_lt`); the three
theorems `stream_of_next_…` say what it gives, by what is read next.
-/
import ConstLang.Token.Lexeme

namespace ConstLang

/-- A place in a text: what follows it, and where it is. -/
structure Cursor where
  rest : List Char
  position : Position := {}
deriving DecidableEq

/-- The tokens of a text, as far as they can be read, and what comes after them: the end of
the input or an error. -/
structure TokenStream where
  tokens : List Token
  ending : Except SyntaxError Token

/-- All tokens with the end of the input as the last one, if nothing is refused. -/
def TokenStream.toList (s : TokenStream) : Except SyntaxError (List Token) :=
  s.ending.map fun last => s.tokens ++ [last]

namespace Cursor

def ofText (text : String) : Cursor := { rest := text.toList }

/-- The place behind `text`, which stands at the cursor. -/
def skip (c : Cursor) (text : List Char) : Cursor :=
  ⟨c.rest.drop text.length, c.position.after text⟩

def skipBlanks (c : Cursor) : Cursor := c.skip (c.rest.takeWhile isBlank)

/-- The span of `text`, which stands at the cursor. -/
def span (c : Cursor) (text : List Char) : Span := ⟨c.position, c.position.after text⟩

/-- Reads a token where no blank stands. -/
def nextHere (c : Cursor) : Except SyntaxError (Token × Cursor) :=
  match c.rest with
  | [] => .ok (.endAt c.position, c)
  | ch :: r =>
    match Lexeme.read ch r with
    | .accepted kind text => .ok (⟨kind, String.ofList text, c.span text⟩, c.skip text)
    | .refused fault text => .error ⟨fault, String.ofList text, c.span text⟩

/-- The next token, and the cursor behind it. -/
def next (c : Cursor) : Except SyntaxError (Token × Cursor) := c.skipBlanks.nextHere

/-- What `steps` readings one after the other give; one that fails is repeated. -/
def run (c : Cursor) : Nat → List (Except SyntaxError Token)
  | 0 => []
  | steps + 1 =>
    match c.next with
    | .ok (t, c') => .ok t :: c'.run steps
    | .error e => .error e :: c.run steps

theorem rest_skip_length_lt {c : Cursor} {text : List Char} (hne : text ≠ [])
    (hpre : text <+: c.rest) : (c.skip text).rest.length < c.rest.length := by
  have h1 := List.length_pos_iff.mpr hne
  have h2 := hpre.length_le
  simp only [skip, List.length_drop]
  omega

theorem skipBlanks_length_le (c : Cursor) : c.skipBlanks.rest.length ≤ c.rest.length := by
  simp [skipBlanks, skip]

/-- A token other than the end of the input takes up text. -/
theorem next_lt {c c' : Cursor} {t : Token} (h : c.next = .ok (t, c'))
    (hne : t.kind ≠ .endOfInput) : c'.rest.length < c.rest.length := by
  refine Nat.lt_of_lt_of_le ?_ c.skipBlanks_length_le
  unfold next nextHere at h
  split at h
  · simp only [Except.ok.injEq, Prod.mk.injEq] at h
    exact absurd (by rw [← h.1]; rfl) hne
  · next ch r hr =>
    split at h
    · next kind text hx =>
      simp only [Except.ok.injEq, Prod.mk.injEq] at h
      have htext : (Lexeme.read ch r).text = text := by rw [hx]; rfl
      rw [← h.2]
      refine rest_skip_length_lt (htext ▸ Lexeme.text_ne_nil ch r) ?_
      rw [hr]
      exact htext ▸ Lexeme.text_isPrefix ch r
    · cases h

/-- Everything that is left to read. -/
def stream (c : Cursor) : TokenStream :=
  match h : c.next with
  | .error e => ⟨[], .error e⟩
  | .ok (t, c') =>
    if hne : t.kind = .endOfInput then ⟨[], .ok t⟩
    else
      have := next_lt h hne
      let s := c'.stream
      ⟨t :: s.tokens, s.ending⟩
termination_by c.rest.length

theorem stream_of_next_error {c : Cursor} {e : SyntaxError} (h : c.next = .error e) :
    c.stream = ⟨[], .error e⟩ := by
  rw [stream]
  split
  · next h' => rw [h] at h'; cases h'; rfl
  · next h' => rw [h] at h'; cases h'

theorem stream_of_next_end {c c' : Cursor} {t : Token} (h : c.next = .ok (t, c'))
    (ht : t.kind = .endOfInput) : c.stream = ⟨[], .ok t⟩ := by
  rw [stream]
  split
  · next h' => rw [h] at h'; cases h'
  · next h' => rw [h] at h'; cases h'; simp [ht]

theorem stream_of_next_token {c c' : Cursor} {t : Token} (h : c.next = .ok (t, c'))
    (ht : t.kind ≠ .endOfInput) : c.stream = ⟨t :: c'.stream.tokens, c'.stream.ending⟩ := by
  rw [stream]
  split
  · next h' => rw [h] at h'; cases h'
  · next h' => rw [h] at h'; cases h'; simp [ht]

end Cursor

/-- The tokens of a whole text. -/
def TokenStream.ofText (text : String) : TokenStream := (Cursor.ofText text).stream

/-- The tokens of a text, the end of the input included, or the first error. -/
def tokenize (text : String) : Except SyntaxError (List Token) := (TokenStream.ofText text).toList

end ConstLang
