import FormCompiler.Text.Lowercase
import FormCompiler.Xml.Attributes

/-!
# Tokens of a document

`tokens` splits a document into start tags, end tags and pieces of character data.  Comments,
declarations, processing instructions and document types are skipped.  Each token carries the byte
offset that a report about it names; the list ends with `finish`, which carries the offset of the
end, and a fault is followed by nothing else.

The document is read one character at a time by a scanner that keeps the names of the open
elements.  An end tag has to repeat the name of the innermost open element.
-/

namespace FormCompiler.Xml

/-- A token.  An empty-element tag counts as a start tag followed by an end tag.  Attributes and
character data that cannot be unescaped are tokens all the same. -/
inductive Token where
  | start (tag : String) (attributes : Except Fault (List (String × String)))
  | stop
  | text (content : Except Fault String)
  | broken (fault : Fault)
  | finish

/-- A token and the offset at which it is reported. -/
structure Located where
  token : Token
  offset : Nat

/-- What the scanner is reading.  Characters collected so far are kept last first. -/
inductive Mode where
  | between
  | text (chars : List Char)
  | opened
  | element (chars : List Char) (quote : Option Char)
  | closing (chars : List Char)
  | instruction (chars : List Char)
  | bang
  | comment (chars : List Char)
  | characterData (chars : List Char)
  | documentType (chars : List Char) (depth : Nat)
  | halted
  deriving Repr, DecidableEq

/-- The scanner: its mode, the bytes consumed and the names of the open elements, innermost
first. -/
structure Scanner where
  mode : Mode
  offset : Nat
  names : List (List Char)
  deriving Repr, DecidableEq

namespace Scanner

/-- Reports a fault at a place and reads nothing more. -/
def halt (s : Scanner) (fault : Fault) (place : Nat) : Scanner × List Located :=
  ({ s with mode := .halted }, [⟨.broken fault, place⟩, ⟨.finish, place⟩])

/-- A token for the character data collected. -/
def textToken (chars : List Char) : Token :=
  .text ((unescape chars.reverse).mapError .badReference)

/-- The start tag with the given content. -/
def startToken (content : List Char) : Token :=
  let name := content.takeWhile (!isSpace ·)
  .start (Text.lowercase (String.ofList (localName name))) (attributes content)

/-- A tag of an element, complete at its `>`. -/
def closeElement (s : Scanner) (chars : List Char) : Scanner × List Located :=
  match chars with
  | '/' :: chars =>
    ({ s with mode := .between }, [⟨startToken chars.reverse, s.offset⟩, ⟨.stop, s.offset⟩])
  | _ =>
    let content := chars.reverse
    ({ s with mode := .between, names := content.takeWhile (!isSpace ·) :: s.names },
      [⟨startToken content, s.offset⟩])

/-- The name of an end tag: blanks after it are ignored, unless there is nothing else. -/
def endName (chars : List Char) : List Char :=
  match chars.dropWhile isSpace with
  | [] => chars.reverse
  | name => name.reverse

/-- An end tag, complete at its `>` or at the end of the document.  A mismatch is reported at the
place that lies the length of the tag's content before the end of the tag. -/
def closeEndTag (s : Scanner) (chars : List Char) : Scanner × List Located :=
  let place := s.offset - (Text.byteLength chars + 1)
  match s.names with
  | [] => s.halt (.mismatch "" (String.ofList chars.reverse)) place
  | expected :: names =>
    let name := endName chars
    if name = expected then ({ s with mode := .between, names }, [⟨.stop, s.offset⟩])
    else s.halt (.mismatch (String.ofList expected) (String.ofList name)) place

/-- A declaration or processing instruction: it ends in a question mark that is not its first
character. -/
def closeInstruction (s : Scanner) (chars : List Char) : Scanner × List Located :=
  if chars.length > 1 ∧ chars.head? = some '?' then ({ s with mode := .between }, [])
  else s.halt (.cutShort .declaration) (s.offset - (Text.byteLength chars + 1))

/-- Whether characters begin with a word, up to the case of its letters. -/
def startsWith (word chars : List Char) : Bool :=
  (chars.take word.length).map Char.toUpper == word

/-- A comment, complete at a `>` after two dashes; `chars` follows the exclamation mark. -/
def closeComment (s : Scanner) (chars : List Char) : Scanner × List Located :=
  if startsWith ['-', '-'] chars.reverse then ({ s with mode := .between }, [])
  else s.halt (.cutShort .comment) s.offset

/-- A section of raw character data, complete at a `>` after two brackets. -/
def closeCharacterData (s : Scanner) (chars : List Char) : Scanner × List Located :=
  let opening := "[CDATA[".toList
  if startsWith opening chars.reverse then
    let content := (chars.drop 2).reverse.drop opening.length
    ({ s with mode := .between }, [⟨.text (.ok (String.ofList content)), s.offset⟩])
  else s.halt (.cutShort .characterData) s.offset

/-- A document type, which has to name something. -/
def closeDocumentType (s : Scanner) (chars : List Char) : Scanner × List Located :=
  let word := "DOCTYPE".toList
  if startsWith word chars.reverse then
    if (chars.reverse.drop word.length).all isSpace then s.halt .emptyDocumentType s.offset
    else ({ s with mode := .between }, [])
  else s.halt (.cutShort .documentType) s.offset

/-- Reads one character, which is counted already in the offset of `s`. -/
def step (s : Scanner) (c : Char) : Scanner × List Located :=
  let goto (mode : Mode) : Scanner × List Located := ({ s with mode }, [])
  match s.mode with
  | .between => goto (if c = '<' then .opened else .text [c])
  | .text chars =>
    if c = '<' then ({ s with mode := .opened }, [⟨textToken chars, s.offset - 1⟩])
    else goto (.text (c :: chars))
  | .opened =>
    if c = '!' then goto .bang
    else if c = '/' then goto (.closing [])
    else if c = '?' then goto (.instruction [])
    else if c = '>' then s.closeElement []
    else goto (.element [c] (if c = '"' ∨ c = '\'' then some c else none))
  | .element chars none =>
    if c = '>' then s.closeElement chars
    else goto (.element (c :: chars) (if c = '"' ∨ c = '\'' then some c else none))
  | .element chars (some quote) =>
    goto (.element (c :: chars) (if c = quote then none else some quote))
  | .closing chars => if c = '>' then s.closeEndTag chars else goto (.closing (c :: chars))
  | .instruction chars =>
    if c = '>' then s.closeInstruction chars else goto (.instruction (c :: chars))
  | .bang =>
    if c = '-' then goto (.comment [c])
    else if c = '[' then goto (.characterData [c])
    else if c = 'D' ∨ c = 'd' then goto (.documentType [c] 0)
    else s.halt (.badBang (firstByte c)) (s.offset - c.utf8Size - 1)
  | .comment chars =>
    match c, chars with
    | '>', '-' :: '-' :: _ :: _ :: _ => s.closeComment chars
    | _, _ => goto (.comment (c :: chars))
  | .characterData chars =>
    match c, chars with
    | '>', ']' :: ']' :: _ => s.closeCharacterData chars
    | _, _ => goto (.characterData (c :: chars))
  | .documentType chars depth =>
    if c = '<' then goto (.documentType (c :: chars) (depth + 1))
    else if c = '>' then
      if depth = 0 then s.closeDocumentType chars
      else goto (.documentType (c :: chars) (depth - 1))
    else goto (.documentType (c :: chars) depth)
  | .halted => goto .halted

/-- The tokens at the end of the document.  Markup that is not complete is reported just after its
angle bracket. -/
def atEnd (s : Scanner) : List Located :=
  let finish : List Located := [⟨.finish, s.offset⟩]
  match s.mode with
  | .between | .opened => finish
  | .text chars => ⟨textToken chars, s.offset - 1⟩ :: finish
  | .element chars _ => (s.halt (.cutShort .element) (s.offset - Text.byteLength chars)).2
  | .closing chars => closed (s.closeEndTag chars)
  | .instruction chars => closed (s.closeInstruction chars)
  | .bang => (s.halt (.cutShort .bang) (s.offset - 1)).2
  | .comment chars =>
    (s.halt (.cutShort .comment) (s.offset - (Text.byteLength chars + 1))).2
  | .characterData chars =>
    (s.halt (.cutShort .characterData) (s.offset - (Text.byteLength chars + 1))).2
  | .documentType chars _ =>
    (s.halt (.cutShort .documentType) (s.offset - (Text.byteLength chars + 1))).2
  | .halted => []
where
  /-- A piece that the end of the document completes, unless it is faulty. -/
  closed : Scanner × List Located → List Located
    | (s, found) => if s.mode = .halted then found else found ++ [⟨.finish, s.offset⟩]

/-- The tokens of the rest of the document. -/
def run (s : Scanner) : List Char → List Located
  | [] => s.atEnd
  | c :: cs =>
    let (next, found) := { s with offset := s.offset + c.utf8Size }.step c
    found ++ next.run cs

end Scanner

/-- A byte order mark at the very beginning is not part of the document, nor of any offset. -/
def dropByteOrderMark : List Char → List Char
  | c :: cs => if c.toNat = 0xfeff then cs else c :: cs
  | [] => []

/-- The tokens of a document. -/
def tokens (source : String) : List Located :=
  Scanner.run ⟨.between, 0, []⟩ (dropByteOrderMark source.toList)

end FormCompiler.Xml
