/-
The writer of JSON as it runs: on the text so far and on the depth of what comes next, which goes
up where something is opened and down where it is closed. `Writer.value_eq`: a run adds the text
of the value, as `write` gives it, and leaves the depth as it was.
-/
import ConstLang.Proofs.Json.Pieces

namespace ConstLang

namespace Json

/-- The text that is written so far, and the depth of what comes next. -/
structure Writer where
  text : List Char := []
  depth : Nat := 0

namespace Writer

def push (w : Writer) (cs : List Char) : Writer := { w with text := w.text ++ cs }

def newline (layout : Layout) (w : Writer) : Writer := w.push (layout.newline w.depth)

/-- Opens what holds entries, which stand a level deeper. -/
def enter (m : Mark) (w : Writer) : Writer := { w.push [m.char] with depth := w.depth + 1 }

/-- Closes what holds entries, on a line of its own if there was an entry. -/
def leave (layout : Layout) (m : Mark) (empty : Bool) (w : Writer) : Writer :=
  let w := { w with depth := w.depth - 1 }
  (if empty then w else w.newline layout).push [m.char]

/-- Goes on to an entry: behind a comma, unless it is the first one. -/
def entry (layout : Layout) (first : Bool) (w : Writer) : Writer :=
  (if first then w else w.push [Mark.comma.char]).newline layout

def key (layout : Layout) (name : String) (w : Writer) : Writer :=
  (w.push (writeString name)).push layout.colon

mutual

def value (layout : Layout) : Value → Writer → Writer
  | .number x, w => w.push (writeNumber x)
  | .array vs, w =>
    (elements layout true vs (w.enter .openArray)).leave layout .closeArray vs.isEmpty
  | .struct ⟨fs⟩, w =>
    (fields layout true fs (w.enter .openObject)).leave layout .closeObject fs.isEmpty

def elements (layout : Layout) (first : Bool) : List Value → Writer → Writer
  | [], w => w
  | v :: vs, w => elements layout false vs (value layout v (w.entry layout first))

def fields (layout : Layout) (first : Bool) : List (String × Value) → Writer → Writer
  | [], w => w
  | (name, v) :: fs, w =>
    fields layout false fs (value layout v ((w.entry layout first).key layout name))

end

@[simp]
theorem push_nil (w : Writer) : w.push [] = w := by simp [push]

@[simp]
theorem push_push (w : Writer) (as bs : List Char) :
    (w.push as).push bs = w.push (as ++ bs) := by simp [push]

@[simp]
theorem depth_push (w : Writer) (cs : List Char) : (w.push cs).depth = w.depth := rfl

@[simp]
theorem depth_enter (m : Mark) (w : Writer) : (w.enter m).depth = w.depth + 1 := rfl

theorem entry_first (layout : Layout) (w : Writer) :
    w.entry layout true = w.push (layout.newline w.depth) := rfl

theorem entry_next (layout : Layout) (w : Writer) :
    w.entry layout false = w.push (',' :: layout.newline w.depth) := push_push w _ _

theorem key_eq (layout : Layout) (name : String) (w : Writer) :
    w.key layout name = w.push (writeString name ++ layout.colon) := push_push w _ _

/-- Opening and closing leave the depth as it was. -/
theorem leave_enter (layout : Layout) (first last : Mark) (empty : Bool) (w : Writer)
    (cs : List Char) :
    ((w.enter first).push cs).leave layout last empty =
      w.push (first.char :: (cs ++
        ((if empty then [] else layout.newline w.depth) ++ [last.char]))) := by
  cases empty <;> simp [leave, enter, push, newline]

mutual

/-- **A run of the writer** adds the text of the value, and leaves the depth as it was. -/
theorem value_eq (layout : Layout) : ∀ (v : Value) (w : Writer),
    value layout v w = w.push (write layout w.depth v [])
  | .number x, w => by rw [value, write, List.append_nil]
  | .array [], w => by
    have h := leave_enter layout .openArray .closeArray true w []
    rwa [push_nil] at h
  | .array (v :: vs), w => by
    rw [value, elements, entry_first, value_eq layout v, elements_eq layout vs, push_push,
      push_push, leave_enter]
    simp only [depth_push, depth_enter, write]
    -- `write` puts the parts in front of each other where a run adds them one by one.
    rw [write_eq_append _ _ v (writeElements _ _ _ _), writeElements_eq_append _ _ vs (_ ++ [_])]
    simp [Mark.char]
  | .struct ⟨[]⟩, w => by
    have h := leave_enter layout .openObject .closeObject true w []
    rwa [push_nil] at h
  | .struct ⟨(name, v) :: fs⟩, w => by
    rw [value, fields, entry_first, key_eq, value_eq layout v, fields_eq layout fs, push_push,
      push_push, push_push, leave_enter]
    simp only [depth_push, depth_enter, write]
    rw [write_eq_append _ _ v (writeFields _ _ _ _), writeFields_eq_append _ _ fs (_ ++ [_])]
    simp [Mark.char]

theorem elements_eq (layout : Layout) : ∀ (vs : List Value) (w : Writer),
    elements layout false vs w = w.push (writeElements layout w.depth vs [])
  | [], w => by rw [elements, writeElements, push_nil]
  | v :: vs, w => by
    rw [elements, entry_next, value_eq layout v, elements_eq layout vs, push_push, push_push,
      writeElements, write_eq_append _ _ v (writeElements _ _ _ _)]
    simp

theorem fields_eq (layout : Layout) : ∀ (fs : List (String × Value)) (w : Writer),
    fields layout false fs w = w.push (writeFields layout w.depth fs [])
  | [], w => by rw [fields, writeFields, push_nil]
  | (name, v) :: fs, w => by
    rw [fields, entry_next, key_eq, value_eq layout v, fields_eq layout fs, push_push, push_push,
      push_push, writeFields, write_eq_append _ _ v (writeFields _ _ _ _)]
    simp

end

/-- A writer that starts with nothing comes to the text of the value. -/
theorem text_value (layout : Layout) (v : Value) :
    (value layout v {}).text = (v.toJson layout).toList := by
  rw [value_eq, Value.toJson, String.toList_ofList]
  rfl

end Writer

end Json

end ConstLang
