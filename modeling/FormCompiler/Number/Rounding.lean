/-!
# Quotients rounded to the nearest integer

A quotient is rounded to the nearest integer, a half to the even one.  The two logarithms find the
binary and the decimal order of magnitude of a quotient.
-/

namespace FormCompiler.Number

/-- The integer nearest to `num / den`; a tie goes to the even neighbour. -/
def roundQuotient (num den : Nat) : Nat :=
  let q := num / den
  let r := num % den
  if 2 * r < den then q
  else if den < 2 * r then q + 1
  else q + q % 2

/-- Numerator and denominator of `num / den * base ^ k`. -/
def scaleQuotient (base : Nat) (num den : Nat) (k : Int) : Nat × Nat :=
  match k with
  | .ofNat n => (num * base.pow n, den)
  | .negSucc n => (num, den * base.pow (n + 1))

/-- The greatest `k` with `base ^ k ≤ num / den`, out of `k` and `k - 1`. -/
def settleExponent (base num den : Nat) (k : Int) : Int :=
  let (n, d) := scaleQuotient base num den (-k)
  if d ≤ n then k else k - 1

/-- The exponent of the greatest power of two that is at most `num / den`. -/
def binaryOrder (num den : Nat) : Int :=
  settleExponent 2 num den ((Nat.log2 num : Int) - Nat.log2 den)

/-- The exponent of the greatest power of ten that is at most `num / den`. -/
def decimalOrder (num den : Nat) : Int :=
  settleExponent 10 num den
    (((Nat.toDigits 10 num).length : Int) - (Nat.toDigits 10 den).length)

end FormCompiler.Number
