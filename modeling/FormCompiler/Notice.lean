/-!
# Notices

What is reported beside the result of reading and compiling a form.  A notice never stops the work;
all but one kind are warnings.
-/

namespace FormCompiler

/-- What a notice about a form is about. -/
inductive Topic where
  | noHeader (className : String)
  | guessedHeader (className header : String)
  | createdButtonGroup (name : String)
  | invalidIcon (property : String)
  | invalidPixmap (property : String)
  | unknownIconFormat (property : String)
  | invalidBuddy (name : String)
  | invalidOrder (name : String)
  | invalidTabStop (name : String)
  | undeclaredAction (name : String)
  | problem (text : String)
  deriving Repr, DecidableEq

def Topic.message : Topic → String
  | noHeader className => "no header given for custom widget " ++ className
  | guessedHeader className header =>
    "no header known for class " ++ className ++ ", using <" ++ header ++ ">"
  | createdButtonGroup name => "creating button group `" ++ name ++ "'"
  | invalidIcon property => "invalid icon property '" ++ property ++ "'"
  | invalidPixmap property => "invalid pixmap property '" ++ property ++ "'"
  | unknownIconFormat property => "unknown icon format in property '" ++ property ++ "'"
  | invalidBuddy name => "buddy assignment '" ++ name ++ "' is not a valid widget"
  | invalidOrder name => "z-order assignment of '" ++ name ++ "' is not a valid widget"
  | invalidTabStop name => "tab stop assignment '" ++ name ++ "' is not a valid widget"
  | undeclaredAction name => "action `" ++ name ++ "' not declared"
  | problem text => text

/-- A notice: a number that could not be read, a name that had to be changed, or a topic about the
form of the given name. -/
inductive Notice where
  | invalidInteger (text : String)
  | invalidNumber (text : String)
  | nameTaken (wanted className given : String)
  | about (form : String) (topic : Topic)
  deriving Repr, DecidableEq

namespace Notice

/-- Problems are errors, all else are warnings. -/
def isError : Notice → Bool
  | about _ (.problem _) => true
  | _ => false

def message : Notice → String
  | invalidInteger text => "invalid integer, using 0 [value=" ++ text ++ "]"
  | invalidNumber text => "invalid number, using 0 [value=" ++ text ++ "]"
  | nameTaken wanted className given =>
    "the name '" ++ wanted ++ "' (" ++ className ++ ") is already in use, defaulting to '" ++
      given ++ "'"
  | about form topic => form ++ ": " ++ topic.message

end Notice

end FormCompiler
