import FormCompiler.Compile
import FormCompiler.Text.Ascii

/-!
# The command line

`parse` turns arguments into options, a request for help, or a refusal.  `run` does what the
arguments ask for, given access to files and to standard input, and says what is printed and how the
program ends.
-/

namespace FormCompiler.Command

open Naming

def usage : String :=
  "Usage: uic [options] [uifile]\n\n" ++
  "  -h, --help                  display this help and exit\n" ++
  "  -o <file>                   place the output into <file>\n" ++
  "  -tr <func>                  use <func> for i18n\n" ++
  "  -p, --no-protection         disable header protection\n" ++
  "  -n, --no-connections        disable generating slot connections\n" ++
  "  -g <language>               generate code for <language> (only cpp)\n" ++
  "  --no-implicit-includes      disable generating #include-directives for unknown classes\n" ++
  "  -x, --extract <qrcfile>     extract embedded images to <qrcfile> and images/\n" ++
  "  --postfix <postfix>         postfix to add to all generated classnames\n"

/-! ## Arguments -/

/-- Why arguments are refused. -/
inductive Refusal where
  | missingValue (flag : String)
  | unsupportedLanguage (language : String)
  | unknownFlag (flag : String)
  | manyInputs
  deriving Repr, DecidableEq

def Refusal.message : Refusal → String
  | missingValue flag => "uic: option " ++ flag ++ " requires an argument\n\n" ++ usage
  | unsupportedLanguage language => "uic: unsupported generator '" ++ language ++ "'"
  | unknownFlag flag => "uic: unknown option " ++ flag ++ "\n\n" ++ usage
  | manyInputs => "uic: too many input files\n\n" ++ usage

/-- What arguments ask for. -/
inductive Request where
  | help
  | refuse (why : Refusal)
  | compile (o : Options)
  deriving Repr, DecidableEq

/-- What an argument is. -/
inductive Argument where
  | help
  /-- Changes the options by itself. -/
  | switch (change : Options → Options)
  /-- Changes the options by the argument that follows. -/
  | setting (change : String → Options → Except Refusal Options)
  | unknown
  | input

/-- A setting that takes any value. -/
def Argument.set (change : String → Options → Options) : Argument :=
  setting fun v o => .ok (change v o)

def Argument.of (arg : String) : Argument :=
  if arg = "-h" ∨ arg = "--help" then help
  else if arg = "-o" ∨ arg = "--output" then set fun v o => { o with outputFile := some v }
  else if arg = "-tr" ∨ arg = "--translate" then set fun v o => { o with translateFunction := v }
  else if arg = "-p" ∨ arg = "--no-protection" then
    switch fun o => { o with headerProtection := false }
  else if arg = "-n" ∨ arg = "--no-connections" then
    switch fun o => { o with autoConnection := false }
  else if arg = "--no-implicit-includes" then switch fun o => { o with implicitIncludes := false }
  else if arg = "--postfix" then set fun v o => { o with classPostfix := v }
  else if arg = "-x" ∨ arg = "--extract" then
    set fun v o => { o with extractImages := true, resourceFile := some v }
  else if arg = "-g" ∨ arg = "--generator" then
    setting fun v o =>
      if Text.equalsIgnoringCase v "cpp" then .ok o else .error (.unsupportedLanguage v)
  else if arg.startsWith "-" ∧ arg ≠ "-" then unknown
  else input

/-- Reads arguments one after the other; the first that asks for help or is refused decides. -/
def parseFrom (o : Options) : List String → Request
  | [] => .compile o
  | arg :: rest => match Argument.of arg with
    | .help => .help
    | .switch change => parseFrom (change o) rest
    | .setting change => match rest with
      | [] => .refuse (.missingValue arg)
      | v :: rest => match change v o with
        | .ok o => parseFrom o rest
        | .error why => .refuse why
    | .unknown => .refuse (.unknownFlag arg)
    | .input =>
      if o.inputFile.isSome then .refuse .manyInputs
      else parseFrom { o with inputFile := some arg } rest

def parse (args : List String) : Request := parseFrom {} args

/-! ## Running -/

/-- What a run of the program prints, and the code it ends with. -/
structure Outcome where
  exitCode : Nat := 0
  output : String := ""
  errors : String := ""
  deriving Repr, DecidableEq

/-- A run that fails with a message. -/
def Outcome.failure (message : String) : Outcome := { exitCode := 1, errors := message ++ "\n" }

/-- The message of a failure: what was done, and the chain of causes. -/
def failureText (causes : List String) : String := "uic: " ++ String.intercalate ": " causes

variable {m : Type → Type} [Monad m]

/-- Reads bytes as a text. -/
def textOf (bytes : Except Files.Fault (List UInt8)) : Except Files.Fault String :=
  bytes.bind fun bs => match Text.decode? bs with
    | some s => .ok s
    | none => .error .invalidText

/-- The document to compile, or why it cannot be read. -/
def source (a : Files.Access m) (stdin : m (Except Files.Fault (List UInt8))) (o : Options) :
    m (Except (List String) String) := do
  let bytes ← match o.inputFile with
    | some path => a.read path
    | none => stdin
  return match textOf bytes with
    | .ok s => .ok s
    | .error fault => .error ["could not read " ++ o.formName, fault.message]

/-- Puts a header where it belongs. -/
def deliver (a : Files.Access m) (o : Options) (header : String) :
    m (Except (List String) String) := do
  match o.outputFile with
  | none => return .ok header
  | some path => match ← a.write path (Text.utf8 header) with
    | .ok _ => return .ok ""
    | .error fault => return .error ["could not create output file " ++ path, fault.message]

/-- The end of a run whose header was delivered: problems make it fail. -/
def finish (o : Options) (problems : List String) (output : String) : Outcome :=
  { exitCode := if problems.isEmpty then 0 else 1, output
    errors := String.join (problems.map fun p => o.formName ++ ": " ++ p ++ "\n") }

/-- Compiles what the options name. -/
def runCompiler (a : Files.Access m) (stdin : m (Except Files.Fault (List UInt8))) (o : Options) :
    m Outcome := do
  match ← source a stdin o with
  | .error causes => return .failure (failureText causes)
  | .ok text =>
    let (result, session) ← (compile a o 0 text).run {}
    match result with
    | .error e => return .failure (failureText (o.formName :: e.chain))
    | .ok header => match ← deliver a o header with
      | .error causes => return .failure (failureText causes)
      | .ok output => return finish o session.table.problems output

/-- Runs the program. -/
def run (a : Files.Access m) (stdin : m (Except Files.Fault (List UInt8))) (args : List String) :
    m Outcome :=
  match parse args with
  | .help => return { output := usage }
  | .refuse why => return .failure why.message
  | .compile o => runCompiler a stdin o

end FormCompiler.Command
