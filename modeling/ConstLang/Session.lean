/-
A session keeps constants from one text to the next. A text that is loaded brings its own
constants in place of the ones before; a text that is resolved, or defines a constant, has its
main value looked up among the constants kept, and its declarations play no part.
-/
import ConstLang.Evaluation

namespace ConstLang

structure Session where
  constants : Table Value := {}

namespace Session

/-- The value of a text that stands alone, and the session with its constants. -/
def load (options : Options) (text : String) : Except Error (Value × Session) := do
  let e ← compile options text
  return (e.value, ⟨e.constants⟩)

/-- The main value of a text, its references looked up in the session. -/
def resolve (s : Session) (options : Options) (text : String) : Except Error Value := do
  (← Program.ofText text).main.resolve options s.constants

/-- Gives a constant the main value of a text. The value that it had before comes along. -/
def define (s : Session) (options : Options) (name text : String) :
    Except Error (Option Value × Session) := do
  let v ← s.resolve options text
  return (s.constants.get? name, ⟨s.constants.insert name v⟩)

end Session

end ConstLang
