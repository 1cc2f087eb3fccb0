import FormCompiler.Number.Rounding

/-!
# Binary floating point values

A finite value is a signed multiple of a power of two.  `Binary.ofQuotient` is the value of a
format nearest to a quotient; a tie goes to the even mantissa, and what exceeds the format becomes
infinite.
-/

namespace FormCompiler.Number

/-- The two precisions a number of a form can have. -/
inductive FloatType where
  | single
  | double
  deriving Repr, DecidableEq

namespace FloatType

/-- Bits of the mantissa. -/
def precision : FloatType → Nat
  | single => 24
  | double => 53

/-- Exponent of the smallest positive value. -/
def leastExponent : FloatType → Int
  | single => -149
  | double => -1074

/-- Exponent of the unit of the largest finite values. -/
def greatestExponent : FloatType → Int
  | single => 104
  | double => 971

end FloatType

/-- A floating point value; `finite s m e` is `m * 2 ^ e`, negative if `s`. -/
inductive Binary where
  | nan
  | infinite (negative : Bool)
  | finite (negative : Bool) (mantissa : Nat) (exponent : Int)
  deriving Repr, DecidableEq

namespace Binary

def zero (t : FloatType) : Binary := finite false 0 t.leastExponent

/-- Equality of numbers: the two zeros are equal, and nothing equals a value that is no number. -/
def same : Binary → Binary → Bool
  | infinite s, infinite t => s == t
  | finite s m e, finite t n f => (m == 0 && n == 0) || (s == t && m == n && e == f)
  | _, _ => false

/-- The value of a format nearest to `num / den`. -/
def ofQuotient (t : FloatType) (negative : Bool) (num den : Nat) : Binary :=
  if num = 0 then finite negative 0 t.leastExponent
  else
    let e := max t.leastExponent (binaryOrder num den - (t.precision - 1))
    let (n, d) := scaleQuotient 2 num den (-e)
    let m := roundQuotient n d
    let (m, e) := if m = Nat.pow 2 t.precision then (Nat.pow 2 (t.precision - 1), e + 1) else (m, e)
    if t.greatestExponent < e then infinite negative else finite negative m e

/-- A finite magnitude as a quotient. -/
def quotient (mantissa : Nat) (exponent : Int) : Nat × Nat :=
  scaleQuotient 2 mantissa 1 exponent

end Binary

end FormCompiler.Number
