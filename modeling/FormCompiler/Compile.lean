import FormCompiler.Extraction
import FormCompiler.Header.Declaration
import FormCompiler.Header.Includes

/-!
# Compiling a form

A form is compiled to a header: a banner, the headers it includes, and the class of the form, all of
it between the lines of an include guard.  `headerOf` is the header as a function of the form;
`compile` reads a document, makes its header and extracts its images.
-/

namespace FormCompiler

open Document Naming

/-! ## Around the class -/

/-- The version of the compiler. -/
def version : String := "0.1.0"

def stars : String := String.ofList (List.replicate 80 '*')

/-- The comment of a form, and what the header was made from. -/
def bannerText (o : Options) (f : Form) : String :=
  let comment := Text.trim (f.node.string "comment")
  let file := (o.inputFile.bind Files.fileName?).getD "stdin"
  (if comment.isEmpty then "" else "/*\n" ++ comment ++ "\n*/\n\n") ++
    "/" ++ stars ++ "\n" ++
    "** Form generated from reading UI file '" ++ file ++ "'\n" ++
    "**\n" ++
    "**      by: Qt User Interface Compiler version " ++ version ++ "\n" ++
    "**\n" ++
    "** WARNING! All changes made in this file will be lost when recompiling UI file!\n" ++
    stars ++ "/\n\n"

/-- The name of the header, from which its guard is made. -/
def headerName (o : Options) : String :=
  match o.outputFile, o.inputFile with
  | some output, _ => output
  | none, some input => "ui_" ++ (Files.fileName? input).getD ""
  | none, none => "ui_noname.h"

/-- Puts a text between the lines of an include guard. -/
def protect (symbol text : String) : String :=
  "#ifndef " ++ symbol ++ "\n#define " ++ symbol ++ "\n\n" ++ text ++ "#endif // " ++ symbol ++ "\n"

/-! ## Parts of a header -/

/-- The included headers. -/
def includesText (o : Options) (f : Form) : StateM Session String := do
  let i := Header.includesOf o f
  i.topics.forM fun topic => Session.note (.about o.formName topic)
  return i.render

/-- The class of a form with the given root widget. -/
def classText (o : Options) (document : Nat) (f : Form) (root : Visit) :
    StateM Session String := do
  return (← Header.declaration o document f root).render o (Setup.style o f)

/-- The header of a form with the given root widget. -/
def headerText (o : Options) (document : Nat) (f : Form) (root : Visit) :
    StateM Session String := do
  let includes ← includesText o f
  let body := includes ++ (← classText o document f root)
  let body := if o.headerProtection then protect (Naming.guardOf (headerName o)) body else body
  return (if o.banner then bannerText o f else "") ++ body

/-- The header of a form, which has to have a root widget. -/
def headerOf (o : Options) (document : Nat) (f : Form) : StateM Session (Except Error String) :=
  match f.rootVisit? with
  | none => return .error .noRootWidget
  | some root => .ok <$> headerText o document f root

/-! ## Compiling -/

/-- Reads a document and keeps the notices. -/
def load (source : String) : StateM Session (Except Error Form) := fun s =>
  let (notices, form) := Form.ofText source
  (form, { s with notices := s.notices ++ notices })

/-- Notes a problem and keeps it in the table. -/
def report (o : Options) (problem : String) : StateM Session Unit := do
  Session.note (.about o.formName (.problem problem))
  modify fun s => { s with table := s.table.addProblem problem }

variable {m : Type → Type} [Monad m]

/-- Compiles a form. -/
def compileForm (a : Files.Access m) (o : Options) (document : Nat) (f : Form) :
    StateT Session m (Except Error String) := do
  match ← modifyGet (headerOf o document f).run with
  | .error e => return .error e
  | .ok header =>
    let problems ← StateT.lift (extractImages a o f)
    modify fun s => ((problems.forM (report o)).run s).2
    return .ok header

/-- Compiles a document. -/
def compile (a : Files.Access m) (o : Options) (document : Nat) (source : String) :
    StateT Session m (Except Error String) := do
  match ← modifyGet (load source).run with
  | .error e => return .error e
  | .ok f => compileForm a o document f

end FormCompiler
