import FormCompiler.Xml.Fault
import FormCompiler.Xml.Position

/-!
# Errors

Why a form cannot be read or compiled, and the message of each error.
-/

namespace FormCompiler

/-- What is wrong at a place of a document. -/
inductive Cause where
  | unexpectedAttribute (node name : String)
  | unexpectedElement (node tag : String)
  | expectedText (tag : String)
  | endOfDocument
  | malformed (fault : Xml.Fault)
  | unexpectedRoot (tag : String)
  deriving Repr, DecidableEq

def Cause.message : Cause → String
  | unexpectedAttribute node name => "unexpected attribute `" ++ name ++ "` on <" ++ node ++ ">"
  | unexpectedElement node tag => "unexpected element <" ++ tag ++ "> inside <" ++ node ++ ">"
  | expectedText tag => "expected character data inside <" ++ tag ++ ">"
  | endOfDocument => "premature end of document"
  | malformed fault => fault.message
  | unexpectedRoot tag => "unexpected element <" ++ tag ++ ">"

/-- A cause and the byte offset at which it is reported. -/
structure Failure where
  offset : Nat
  cause : Cause
  deriving Repr, DecidableEq

inductive Error where
  | located (position : Xml.Position) (cause : Cause)
  | oldVersion (version : String)
  | unsupportedLanguage (language : String)
  | noRootWidget
  deriving Repr, DecidableEq

/-- The error of a failure, its place given by line and column. -/
def Failure.locate (source : String) (f : Failure) : Error :=
  .located (Xml.Position.ofOffset source f.offset) f.cause

def Error.message : Error → String
  | located position cause => position.text ++ ": " ++ cause.message
  | oldVersion version => "file generated with too old version of Qt Designer (" ++ version ++ ")"
  | unsupportedLanguage language => "file is not a 'c++' ui file, language=" ++ language
  | noRootWidget => "no root widget in form"

/-- The messages of an error and of what is behind it. -/
def Error.chain (e : Error) : List String :=
  e.message :: match e with
  | located _ (.malformed fault) => fault.chain
  | _ => []

end FormCompiler
