/-!
# Decimal integers

Integers come in four widths.  A numeral is an optional sign followed by decimal digits; a minus
sign is read for the signed widths only, and a numeral outside the range of its width is none.
-/

namespace FormCompiler.Number

/-- The widths an integer of a form can have. -/
inductive IntType where
  | int32
  | uint32
  | int64
  | uint64
  deriving Repr, DecidableEq

namespace IntType

def isSigned : IntType → Bool
  | int32 | int64 => true
  | uint32 | uint64 => false

def least : IntType → Int
  | int32 => -2147483648
  | int64 => -9223372036854775808
  | uint32 | uint64 => 0

def greatest : IntType → Int
  | int32 => 2147483647
  | uint32 => 4294967295
  | int64 => 9223372036854775807
  | uint64 => 18446744073709551615

/-- An integer within the range of its width. -/
structure Value (t : IntType) where
  val : Int
  least_le : t.least ≤ val
  le_greatest : val ≤ t.greatest
  deriving DecidableEq

/-- The value of an integer that is in range. -/
def value? (t : IntType) (i : Int) : Option t.Value :=
  if h : t.least ≤ i ∧ i ≤ t.greatest then some ⟨i, h.1, h.2⟩ else none

def zero (t : IntType) : t.Value :=
  ⟨0, by cases t <;> decide, by cases t <;> decide⟩

end IntType

/-- The number a run of decimal digits stands for. -/
def digitsValue (ds : List Char) : Nat :=
  ds.foldl (fun n d => 10 * n + (d.toNat - '0'.toNat)) 0

/-- The number a text of decimal digits stands for; at least one digit is needed. -/
def readDigits? (ds : List Char) : Option Nat :=
  if ds ≠ [] ∧ ds.all Char.isDigit then some (digitsValue ds) else none

/-- Reads a numeral of the given width. -/
def readInteger? (t : IntType) (s : String) : Option t.Value :=
  match s.toList with
  | '+' :: ds => (readDigits? ds).bind fun n => t.value? n
  | '-' :: ds => if t.isSigned then (readDigits? ds).bind fun n => t.value? (-n) else none
  | ds => (readDigits? ds).bind fun n => t.value? n

/-- The decimal numeral of a natural number. -/
def decimalDigits (n : Nat) : List Char := Nat.toDigits 10 n

def natText (n : Nat) : String := String.ofList (decimalDigits n)

/-- The decimal numeral of an integer. -/
def intText : Int → String
  | .ofNat n => natText n
  | .negSucc n => String.ofList ('-' :: decimalDigits (n + 1))

end FormCompiler.Number
