/-
The command line: the arguments, the files and the streams of the system, around `Command.perform`.
-/
import ConstLang.Command

namespace ConstLang

/-- What the system says about a failure, with its number. -/
def describe (e : IO.Error) : String :=
  match e with
  | .noFileOrDirectory _ code details | .inappropriateType _ code details
  | .permissionDenied _ code details | .resourceExhausted _ code details
  | .alreadyExists _ code details | .invalidArgument _ code details =>
    details ++ " (os error " ++ code.toNat.repr ++ ")"
  | .otherError code details => details ++ " (os error " ++ code.toNat.repr ++ ")"
  | e => toString e

/-- Reads a whole file. -/
def readAll (path : String) : IO ByteArray := IO.FS.withFile path .read (·.readBinToEnd)

/-- Replaces the whole content of a file; what is written has reached the system at the end. -/
def writeAll (path : String) (bytes : ByteArray) : IO Unit :=
  IO.FS.withFile path .write fun handle => do
    handle.write bytes
    handle.flush

/-- Access to the files of the system. -/
def systemFiles : FileAccess IO where
  read path := return (← (readAll path).toBaseIO).mapError describe
  write path bytes := return (← (writeAll path bytes).toBaseIO).mapError describe

end ConstLang

open ConstLang in
def main (arguments : List String) : IO UInt32 := do
  let outcome ← Command.perform systemFiles arguments
  IO.print outcome.stdout
  IO.eprint outcome.stderr
  return outcome.exitCode.toUInt32
