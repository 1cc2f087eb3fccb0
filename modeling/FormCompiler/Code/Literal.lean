import FormCompiler.Text.Utf8

/-!
# String literals

Bytes are written as one or more adjacent C++ string literals.  Backslashes and quotes are escaped,
carriage returns are dropped, a line feed ends its literal and the line, bytes outside ASCII become
octal escapes, and control bytes become octal escapes of three digits, which a following digit
cannot extend.  A literal that has grown beyond `segmentLimit` characters is closed, and the next
one opens on a line of its own.
-/

namespace FormCompiler.Code

/-- Characters after which a new literal is begun. -/
def segmentLimit : Nat := 1024

/-- The octal digits of a byte. -/
def octalDigits (b : UInt8) : List Char := Nat.toDigits 8 b.toNat

/-- An octal escape of at least three digits. -/
def paddedOctal (b : UInt8) : List Char :=
  let ds := octalDigits b
  '\\' :: (List.replicate (3 - ds.length) '0' ++ ds)

/-- A byte inside a literal. -/
def escapeByte (b : UInt8) : List Char :=
  if b = 0x5c then ['\\', '\\']
  else if b = 0x22 then ['\\', '"']
  else if b = 0x0d then []
  else if b = 0x0a then ['\\', 'n', '"', '\n', '"']
  else if 0x80 ≤ b then '\\' :: octalDigits b
  else if b ≤ 0x1f ∨ b = 0x7f then paddedOctal b
  else [Char.ofNat b.toNat]

/-- The bodies of the literals for `bytes`, the first of which already holds `current`. -/
def segmentsFrom (current : List Char) : List UInt8 → List (List Char)
  | [] => if current.isEmpty then [] else [current]
  | b :: bs =>
    let grown := current ++ escapeByte b
    if segmentLimit < grown.length then grown :: segmentsFrom [] bs
    else segmentsFrom grown bs

def segments (bytes : List UInt8) : List (List Char) := segmentsFrom [] bytes

/-- The literals for a byte string; those after the first stand on lines that begin with `indent`
twice. -/
def literal (bytes : List UInt8) (indent : String) : String :=
  let joint := ("\"\n" ++ indent ++ indent ++ "\"").toList
  String.ofList (['"'] ++ List.intercalate joint (segments bytes) ++ ['"'])

/-- The literals for a text. -/
def textLiteral (s : String) (indent : String) : String := literal (Text.utf8 s) indent

end FormCompiler.Code
