import FormCompiler.Number.Integer
import FormCompiler.Text.Printable

/-!
# What can be wrong with a document as XML

The causes for which a text is not well formed, and the message of each.
-/

namespace FormCompiler.Xml

/-- The pieces of markup that the end of the text can cut short. -/
inductive Piece where
  | element
  | declaration
  | bang
  | comment
  | characterData
  | documentType
  deriving Repr, DecidableEq

def Piece.text : Piece → String
  | element => "Element"
  | declaration => "XmlDecl"
  | bang => "Bang"
  | comment => "Comment"
  | characterData => "CData"
  | documentType => "DOCTYPE"

/-- Faults of references in character data and attribute values.  Places are byte offsets in the
text that holds the reference. -/
inductive ReferenceFault where
  | unterminated (start stop : Nat)
  | unknown (start stop : Nat) (name : String)
  | null (start stop : Nat)
  | longHexadecimal
  | longDecimal
  | badHexadecimal (digit : Char)
  | badDecimal (digit : Char)
  | badCodePoint (code : Nat)
  deriving Repr, DecidableEq

/-- Faults of attributes.  Places are byte offsets in the tag. -/
inductive AttributeFault where
  | expectedEq (place : Nat)
  | duplicated (place previous : Nat)
  | expectedValue (place : Nat)
  | unquotedValue (place : Nat)
  | missingQuote (place : Nat) (quote : Char)
  deriving Repr, DecidableEq

inductive Fault where
  | cutShort (piece : Piece)
  | badBang (mark : Char)
  | emptyDocumentType
  | mismatch (expected found : String)
  | badReference (fault : ReferenceFault)
  | badAttribute (fault : AttributeFault)
  deriving Repr, DecidableEq

open Number (natText)

/-- The range of bytes a message speaks of. -/
def rangeText (start stop : Nat) : String :=
  "Error while escaping character at range " ++ natText start ++ ".." ++ natText stop ++ ": "

def ReferenceFault.message : ReferenceFault → String
  | unterminated start stop => rangeText start stop ++ "Cannot find ';' after '&'"
  | unknown start stop name =>
    rangeText start stop ++ "Unrecognized escape symbol: " ++ Text.quoted name
  | null start stop => rangeText start stop ++ "Null character entity not allowed"
  | longHexadecimal => "Cannot convert hexadecimal to utf8"
  | longDecimal => "Cannot convert decimal to utf8"
  | badHexadecimal digit =>
    "'" ++ digit.toString ++ "' is not a valid hexadecimal character"
  | badDecimal digit => "'" ++ digit.toString ++ "' is not a valid decimal character"
  | badCodePoint code => "'" ++ natText code ++ "' is not a valid codepoint"

def AttributeFault.message (fault : AttributeFault) : String :=
  "position " ++ match fault with
  | expectedEq place =>
    natText place ++ ": attribute key must be directly followed by `=` or space"
  | duplicated place previous =>
    natText place ++ ": duplicated attribute, previous declaration at position " ++
      natText previous
  | expectedValue place => natText place ++ ": `=` must be followed by an attribute value"
  | unquotedValue place =>
    natText place ++ ": attribute value must be enclosed in `\"` or `'`"
  | missingQuote place quote =>
    natText place ++ ": missing closing quote `" ++ quote.toString ++ "` in attribute value"

def Fault.message : Fault → String
  | cutShort piece => "Unexpected EOF during reading " ++ piece.text
  | badBang mark =>
    "Only Comment (`--`), CDATA (`[CDATA[`) and DOCTYPE (`DOCTYPE`) nodes can start with a '!', " ++
      "but symbol `" ++ mark.toString ++ "` found"
  | emptyDocumentType => "DOCTYPE declaration must not be empty"
  | mismatch expected found => "Expecting </" ++ expected ++ "> found </" ++ found ++ ">"
  | badReference fault => fault.message
  | badAttribute fault => "error while parsing attribute: " ++ fault.message

/-- The messages of a fault and of the one behind it. -/
def Fault.chain (fault : Fault) : List String :=
  fault.message :: match fault with
  | badReference inner => [inner.message]
  | badAttribute inner => [inner.message]
  | _ => []

end FormCompiler.Xml
