/-
The command: it reads a file, evaluates the text in it and writes the value as JSON to another
file. `Request.ofArguments` says what is asked for; `Job.result` is the whole of the work, from
what reading the input gives to what is to be written or reported; `Command.run` does it on a
disk. Nothing is written unless there is a value to write.
-/
import ConstLang.Disk
import ConstLang.Evaluation
import ConstLang.Json
import ConstLang.Report

namespace ConstLang

/-- A text to be compiled and where its value goes. -/
structure Job where
  input : String
  output : String
  strict : Bool := false
  compact : Bool := false
deriving DecidableEq

/-- What a command line asks for. -/
inductive Request
  | help
  | version
  | compile (job : Job)
deriving DecidableEq

/-- Why a command line asks for nothing. -/
inductive UsageError
  | unexpected (argument : String)
  | repeated (argument : String)
  | valueMissing (option : String)
  | optionMissing (option : String)
deriving DecidableEq

def UsageError.message : UsageError → String
  | unexpected argument => "error: unexpected argument '" ++ argument ++ "'"
  | repeated argument => "error: the argument '" ++ argument ++ "' cannot be used multiple times"
  | valueMissing option => "error: a value is required for '" ++ option ++ "'"
  | optionMissing option => "error: the option '" ++ option ++ "' is required"

namespace Request

/-- The two paths that a command line gives. -/
inductive PathOption
  | input
  | output
deriving DecidableEq

/-- What one argument is by itself. -/
inductive Argument
  /-- An option with a value, which is the next argument if it is not attached. -/
  | path (option : PathOption) (attached : Option String)
  | strict
  | compact
  | help
  | version
  /-- The end of the options. -/
  | endOfOptions
  | other
deriving DecidableEq

/-- A value that is attached to a letter, with or without an equals sign. -/
def attached : List Char → Option String
  | [] => none
  | '=' :: value => some (String.ofList value)
  | value => some (String.ofList value)

/-- An option by its letter and what follows the letter. -/
def Argument.ofLetter (letter : Char) (rest : List Char) : Argument :=
  match letter with
  | 'i' => .path .input (attached rest)
  | 'o' => .path .output (attached rest)
  | 'h' => .help
  | 'V' => .version
  | _ => .other

/-- An option by its name and the value behind an equals sign. Names are not abbreviated. -/
def Argument.ofName (name : String) (value : Option String) : Argument :=
  match name, value with
  | "input", value => .path .input value
  | "output", value => .path .output value
  | "strict", none => .strict
  | "compact", none => .compact
  | "help", none => .help
  | "version", none => .version
  | _, _ => .other

def Argument.ofString (argument : String) : Argument :=
  match argument.toList with
  | ['-', '-'] => .endOfOptions
  | '-' :: '-' :: cs =>
    let value := match cs.dropWhile (· ≠ '=') with
      | _ :: value => some (String.ofList value)
      | [] => none
    .ofName (String.ofList (cs.takeWhile (· ≠ '='))) value
  | '-' :: letter :: rest => .ofLetter letter rest
  | _ => .other

/-- Whether an argument can be the value of the option in front of it. -/
def isValue (argument : String) : Bool :=
  match argument.toList with
  | '-' :: _ :: _ => false
  | _ => true

/-- What the arguments up to some place have set. -/
structure Settings where
  input : Option String := none
  output : Option String := none
  strict : Bool := false
  compact : Bool := false

namespace Settings

def setPath (s : Settings) (option : PathOption) (argument value : String) :
    Except UsageError Settings :=
  match option with
  | .input =>
    if s.input.isSome then .error (.repeated argument) else .ok { s with input := some value }
  | .output =>
    if s.output.isSome then .error (.repeated argument) else .ok { s with output := some value }

/-- The job that complete settings make. -/
def toJob (s : Settings) : Except UsageError Job :=
  match s.input, s.output with
  | some input, some output => .ok { input, output, strict := s.strict, compact := s.compact }
  | none, _ => .error (.optionMissing "--input")
  | _, none => .error (.optionMissing "--output")

end Settings

/-- Reads arguments from left to right, `awaited` being an option whose value comes next. The
first argument that settles the request does so, whatever comes after it. -/
def ofArgumentsFrom (s : Settings) (awaited : Option (PathOption × String)) :
    List String → Except UsageError Request
  | [] =>
    match awaited with
    | some (_, name) => .error (.valueMissing name)
    | none => s.toJob.map .compile
  | argument :: rest =>
    match awaited, Argument.ofString argument with
    | some (option, name), _ =>
      if isValue argument then do ofArgumentsFrom (← s.setPath option name argument) none rest
      else .error (.valueMissing name)
    | none, .path option none => ofArgumentsFrom s (some (option, argument)) rest
    | none, .path option (some value) => do
      ofArgumentsFrom (← s.setPath option argument value) none rest
    | none, .strict =>
      if s.strict then .error (.repeated argument)
      else ofArgumentsFrom { s with strict := true } none rest
    | none, .compact =>
      if s.compact then .error (.repeated argument)
      else ofArgumentsFrom { s with compact := true } none rest
    | none, .help => .ok .help
    | none, .version => .ok .version
    | none, .endOfOptions =>
      match rest with
      | [] => s.toJob.map .compile
      | next :: _ => .error (.unexpected next)
    | none, .other => .error (.unexpected argument)

def ofArguments (arguments : List String) : Except UsageError Request :=
  ofArgumentsFrom {} none arguments

end Request

/-- What can be seen of a command apart from files. -/
structure Command.Outcome where
  exitCode : Nat
  stdout : String := ""
  stderr : String := ""
deriving DecidableEq

namespace Job

/-- What a job comes to, given what reading its input gives or why that fails: the text to be
written, or the report. -/
def result (job : Job) (input : Except String ByteArray) : Except String String :=
  match input with
  | .error reason => .error ("Cannot read input file: " ++ reason ++ "\n")
  | .ok bytes =>
    match String.fromUTF8? bytes with
    | none => .error "Cannot read input file: stream did not contain valid UTF-8\n"
    | some text =>
      match compile { strict := job.strict } text with
      | .error e => .error (e.report text)
      | .ok e => .ok (e.value.toJson (if job.compact then .compact else .pretty) ++ "\n")

/-- The report when the output cannot be written. -/
def writeFailure (reason : String) : String := "Cannot write output file: " ++ reason ++ "\n"

/-- Does a job. -/
def perform {m : Type → Type} [Monad m] (files : FileAccess m) (job : Job) :
    m Command.Outcome := do
  match job.result (← files.read job.input) with
  | .error report => return { exitCode := 1, stderr := report }
  | .ok text =>
    match ← files.write job.output text.toUTF8 with
    | .ok () => return { exitCode := 0 }
    | .error reason => return { exitCode := 1, stderr := writeFailure reason }

end Job

namespace Command

def versionText : String := "numconst 0.1.0\n"

def helpText : String :=
  "Compile a numeric constant description into JSON\n\n" ++
  "Usage: numconst [OPTIONS] --input <INPUT> --output <OUTPUT>\n\n" ++
  "Options:\n" ++
  "  -i, --input <INPUT>    Source file to compile\n" ++
  "  -o, --output <OUTPUT>  Where to write the resulting JSON\n" ++
  "      --strict           Reject duplicate struct keys and redeclared constants\n" ++
  "      --compact          Write compact JSON instead of 2-space indented\n" ++
  "  -h, --help             Print help\n" ++
  "  -V, --version          Print version\n"

/-- Does what a command line asks for. -/
def perform {m : Type → Type} [Monad m] (files : FileAccess m) (arguments : List String) :
    m Outcome :=
  match Request.ofArguments arguments with
  | .error e => return { exitCode := 2, stderr := e.message ++ "\n" }
  | .ok .help => return { exitCode := 0, stdout := helpText }
  | .ok .version => return { exitCode := 0, stdout := versionText }
  | .ok (.compile job) => job.perform files

/-- Runs a command line on a disk. -/
def run (arguments : List String) (disk : Disk) : Outcome × Disk :=
  (perform Disk.fileSystem.access arguments).run disk

end Command

end ConstLang
