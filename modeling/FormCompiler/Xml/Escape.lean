import FormCompiler.Hex
import FormCompiler.Text.Utf8
import FormCompiler.Xml.Fault

/-!
# Escaped text

`escape` writes five characters as references.  `unescape` replaces references by what they stand
for and refuses a text with a reference it does not know.
-/

namespace FormCompiler.Xml

/-- A character of character data or of an attribute value, as written. -/
def escapeChar (c : Char) : List Char :=
  if c = '<' then "&lt;".toList
  else if c = '>' then "&gt;".toList
  else if c = '&' then "&amp;".toList
  else if c = '\'' then "&apos;".toList
  else if c = '"' then "&quot;".toList
  else [c]

def escape (s : String) : String := String.ofList (s.toList.flatMap escapeChar)

/-- The first byte of a character, shown as the character of that code point. -/
def firstByte (c : Char) : Char :=
  Char.ofNat (((String.utf8EncodeChar c).head?.map UInt8.toNat).getD 0)

/-- The number a run of digits stands for; the first character that is no digit is reported. -/
def codeOf (base : Nat) (digit? : Char → Option Nat) (bad : Char → ReferenceFault) (n : Nat) :
    List Char → Except ReferenceFault Nat
  | [] => .ok n
  | c :: cs => match digit? c with
    | some d => codeOf base digit? bad (base * n + d) cs
    | none => .error (bad (firstByte c))

/-- The value of a decimal digit. -/
def decimalDigit? (c : Char) : Option Nat :=
  if c.isDigit then some (c.toNat - '0'.toNat) else none

/-- The code of a numeric reference: hexadecimal after an `x`, decimal otherwise. -/
def numericCode : List Char → Except ReferenceFault Nat
  | 'x' :: ds =>
    if 6 < Text.byteLength ds then .error .longHexadecimal
    else codeOf 16 Hex.digit? .badHexadecimal 0 ds
  | ds =>
    if 7 < Text.byteLength ds then .error .longDecimal
    else codeOf 10 decimalDigit? .badDecimal 0 ds

/-- The character a reference stands for; `start` and `stop` are the places of its two marks. -/
def referenceChar (start stop : Nat) (name : List Char) : Except ReferenceFault Char :=
  match name with
  | '#' :: ds => match numericCode ds with
    | .error fault => .error fault
    | .ok n =>
      if n = 0 then .error (.null start stop)
      else if n.isValidChar then .ok (Char.ofNat n)
      else .error (.badCodePoint n)
  | _ =>
    let name := String.ofList name
    if name = "lt" then .ok '<'
    else if name = "gt" then .ok '>'
    else if name = "amp" then .ok '&'
    else if name = "apos" then .ok '\''
    else if name = "quot" then .ok '"'
    else .error (.unknown (start + 1) stop name)

/-- A reference being read: the place of its `&` and the characters after it, last first. -/
structure Reference where
  start : Nat
  name : List Char
  deriving Repr, DecidableEq

/-- Unescapes the characters from place `pos` on, in a text of `total` bytes. -/
def unescapeFrom (total pos : Nat) :
    Option Reference → List Char → Except ReferenceFault (List Char)
  | none, [] => .ok []
  | some r, [] => .error (.unterminated r.start total)
  | none, c :: cs =>
    if c = '&' then unescapeFrom total (pos + 1) (some ⟨pos, []⟩) cs
    else (unescapeFrom total (pos + c.utf8Size) none cs).map (c :: ·)
  | some r, c :: cs =>
    if c = '&' then .error (.unterminated r.start total)
    else if c = ';' then
      match referenceChar r.start pos r.name.reverse with
      | .error fault => .error fault
      | .ok d => (unescapeFrom total (pos + 1) none cs).map (d :: ·)
    else unescapeFrom total (pos + c.utf8Size) (some ⟨r.start, c :: r.name⟩) cs

def unescape (cs : List Char) : Except ReferenceFault String :=
  (unescapeFrom (Text.byteLength cs) 0 none cs).map String.ofList

end FormCompiler.Xml
