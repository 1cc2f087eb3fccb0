/-!
# Options

The settings of one compilation.
-/

namespace FormCompiler

structure Options where
  /-- Wrap the header in an include guard. -/
  headerProtection : Bool := true
  /-- Begin the header with a banner. -/
  banner : Bool := true
  /-- Add a class of the form's name in the namespace `Ui`. -/
  uiNamespace : Bool := true
  /-- Connect slots by their names at the end of the setup function. -/
  autoConnection : Bool := true
  /-- Write embedded images to files instead of compiling them into the header. -/
  extractImages : Bool := false
  /-- Guess a header for classes without a known one. -/
  implicitIncludes : Bool := true
  inputFile : Option String := none
  outputFile : Option String := none
  resourceFile : Option String := none
  indent : String := "    "
  classPrefix : String := "Ui_"
  classPostfix : String := ""
  /-- The function that translates texts, instead of the one of the application. -/
  translateFunction : String := ""
  deriving Repr, DecidableEq

/-- The name under which notices speak of the form. -/
def Options.formName (o : Options) : String := o.inputFile.getD "stdin"

end FormCompiler
