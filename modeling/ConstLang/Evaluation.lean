/-
Evaluation. Every reference gives way to the value of the constant it names, which has to be
declared before it. A name that comes again, as a constant or as a field, replaces the value
and keeps the place of the first one; a strict evaluation refuses it instead: a field before
its value is looked at, a constant after its value is.
-/
import ConstLang.Program.OfTree
import ConstLang.Value

namespace ConstLang

structure Options where
  /-- Whether a name may not come again. -/
  strict : Bool := false
deriving DecidableEq

/-- The main value of a program, and the constants in the order of their first declarations. -/
structure Evaluation where
  value : Value
  constants : Table Value

namespace Expr

mutual

/-- The value of an expression, given the constants. -/
def resolve (options : Options) (constants : Table Value) : Expr → Except Error Value
  | number x => .ok (.number x)
  | array elements => do return .array (← resolveAll options constants elements)
  | struct fields => do return .struct (← resolveFields options constants {} fields)
  | reference name span =>
    match constants.get? name with
    | some v => .ok v
    | none => .error (.undefinedConstant name span)

def resolveAll (options : Options) (constants : Table Value) :
    List Expr → Except Error (List Value)
  | [] => .ok []
  | e :: es => do
    let v ← resolve options constants e
    return v :: (← resolveAll options constants es)

/-- Adds the values of fields to the ones that come before them. -/
def resolveFields (options : Options) (constants before : Table Value) :
    List (Binding Expr) → Except Error (Table Value)
  | [] => .ok before
  | ⟨name, span, e⟩ :: fields =>
    if options.strict && before.contains name then .error (.duplicateKey name span)
    else do
      let v ← resolve options constants e
      resolveFields options constants (before.insert name v) fields

end

end Expr

namespace Program

/-- Adds a declared constant to the ones before it. -/
def declare (options : Options) (constants : Table Value) (d : Binding Expr) :
    Except Error (Table Value) := do
  let v ← d.value.resolve options constants
  if options.strict && constants.contains d.name then .error (.redeclaredConstant d.name d.span)
  else return constants.insert d.name v

/-- The value of a program: its declarations in order, then its main value. -/
def evaluate (options : Options) (p : Program) : Except Error Evaluation := do
  let constants ← p.declarations.foldlM (declare options) {}
  let value ← p.main.resolve options constants
  return ⟨value, constants⟩

end Program

/-- The value of a text. -/
def compile (options : Options) (text : String) : Except Error Evaluation := do
  (← Program.ofText text).evaluate options

end ConstLang
