import FormCompiler.Text.Blank

/-!
# Hexadecimal payloads

A payload is a text of hexadecimal digits, two for a byte.  White space is skipped wherever it
stands, any other character counts as the digit zero, and a digit without a partner is dropped.
-/

namespace FormCompiler.Hex

/-- The value of a hexadecimal digit. -/
def digit? (c : Char) : Option Nat :=
  if '0' ≤ c ∧ c ≤ '9' then some (c.toNat - '0'.toNat)
  else if 'a' ≤ c ∧ c ≤ 'f' then some (c.toNat - 'a'.toNat + 10)
  else if 'A' ≤ c ∧ c ≤ 'F' then some (c.toNat - 'A'.toNat + 10)
  else none

/-- The bytes of pairs of digits. -/
def pairs : List Nat → List UInt8
  | high :: low :: rest => UInt8.ofNat (16 * high + low) :: pairs rest
  | _ => []

/-- The bytes a payload stands for. -/
def decode (s : String) : List UInt8 :=
  pairs ((s.toList.filter (!Text.isWhite ·)).map fun c => (digit? c).getD 0)

/-- The character of a digit. -/
def digitChar (n : Nat) : Char :=
  Char.ofNat (if n < 10 then '0'.toNat + n else 'a'.toNat + (n - 10))

/-- Two lower case digits for each byte. -/
def encode (bs : List UInt8) : String :=
  String.ofList (bs.flatMap fun b => [digitChar (b.toNat / 16), digitChar (b.toNat % 16)])

end FormCompiler.Hex
