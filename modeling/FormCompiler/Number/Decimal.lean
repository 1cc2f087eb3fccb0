import FormCompiler.Number.Binary
import FormCompiler.Number.Integer

/-!
# Decimal texts of floating point values

`readBinary?` reads a decimal text, correctly rounded to its format.  `fixed` writes a value with a
given number of places and `general` with six significant digits; both round the exact value, a
half to even.
-/

namespace FormCompiler.Number

/-! ## Reading -/

/-- An unsigned decimal `digits * 10 ^ exponent`. -/
structure DecimalText where
  digits : Nat
  exponent : Int
  deriving Repr, DecidableEq

/-- The power of ten after the mark, which may be missing. -/
def readExponent? : List Char → Option Int
  | [] => some 0
  | c :: rest =>
    if c = 'e' ∨ c = 'E' then
      match rest with
      | '+' :: ds => (readDigits? ds).map Int.ofNat
      | '-' :: ds => (readDigits? ds).map fun n => -(n : Int)
      | ds => (readDigits? ds).map Int.ofNat
    else none

/-- Digits with at most one point among them and at least one digit, then the power of ten. -/
def readDecimal? (cs : List Char) : Option DecimalText :=
  let whole := cs.takeWhile Char.isDigit
  let (fraction, rest) := match cs.dropWhile Char.isDigit with
    | '.' :: rest => (rest.takeWhile Char.isDigit, rest.dropWhile Char.isDigit)
    | rest => ([], rest)
  if whole.isEmpty && fraction.isEmpty then none
  else (readExponent? rest).map fun e =>
    ⟨digitsValue (whole ++ fraction), e - fraction.length⟩

/-- The value of a format nearest to a decimal.  Powers far outside every format are not
computed. -/
def DecimalText.toBinary (t : FloatType) (negative : Bool) (d : DecimalText) : Binary :=
  let order := d.exponent + (decimalDigits d.digits).length
  if d.digits = 0 ∨ order < -400 then .finite negative 0 t.leastExponent
  else if 400 < order then .infinite negative
  else
    let (n, m) := scaleQuotient 10 d.digits 1 d.exponent
    Binary.ofQuotient t negative n m

/-- Reads what follows the sign: a word for a special value in any case, or a decimal. -/
def readMagnitude? (t : FloatType) (negative : Bool) (cs : List Char) : Option Binary :=
  let word := String.ofList (cs.map Char.toLower)
  if word = "nan" then some .nan
  else if word = "inf" ∨ word = "infinity" then some (.infinite negative)
  else (readDecimal? cs).map (·.toBinary t negative)

def readBinary? (t : FloatType) (s : String) : Option Binary :=
  match s.toList with
  | '+' :: cs => readMagnitude? t false cs
  | '-' :: cs => readMagnitude? t true cs
  | cs => readMagnitude? t false cs

/-! ## Writing -/

/-- The sign in front of a magnitude. -/
def signText (negative : Bool) : String := if negative then "-" else ""

/-- The digits of `n`, with a point before the last `places` of them. -/
def placed (n places : Nat) : String :=
  let ds := decimalDigits n
  let ds := List.replicate (places + 1 - ds.length) '0' ++ ds
  let whole := ds.take (ds.length - places)
  let fraction := ds.drop (ds.length - places)
  String.ofList (if fraction.isEmpty then whole else whole ++ '.' :: fraction)

/-- The value with exactly `places` digits after the point. -/
def fixed (places : Nat) : Binary → String
  | .nan => "NaN"
  | .infinite s => signText s ++ "inf"
  | .finite s m e =>
    let (n, d) := Binary.quotient m e
    signText s ++ placed (roundQuotient (n * Nat.pow 10 places) d) places

/-- The first `count` digits of a positive quotient and the exponent of the first of them. -/
def significant (count num den : Nat) : Nat × Int :=
  let k := decimalOrder num den
  let (n, d) := scaleQuotient 10 num den ((count : Int) - 1 - k)
  let m := roundQuotient n d
  if m = Nat.pow 10 count then (Nat.pow 10 (count - 1), k + 1) else (m, k)

/-- Drops the zeros at the end of a fraction, and the point if nothing is left after it. -/
def trimFraction (s : String) : String :=
  let cs := s.toList
  if cs.contains '.' then
    String.ofList ((cs.reverse.dropWhile (· == '0')).dropWhile (· == '.')).reverse
  else s

/-- The exponent with its sign and at least two digits. -/
def exponentText (k : Int) : String :=
  let ds := decimalDigits k.natAbs
  String.ofList ((if k < 0 then '-' else '+') :: (List.replicate (2 - ds.length) '0' ++ ds))

/-- Six significant digits without zeros at the end; positional if the first digit stands for
`10 ^ k` with `-4 ≤ k < 6`, otherwise with a power of ten. -/
def general : Binary → String
  | .finite s m e =>
    if m = 0 then "0"
    else
      let (n, d) := Binary.quotient m e
      let (digits, k) := significant 6 n d
      if -4 ≤ k ∧ k < 6 then trimFraction (fixed (5 - k).toNat (.finite s m e))
      else signText s ++ trimFraction (placed digits 5) ++ "e" ++ exponentText k
  | v => fixed 0 v

end FormCompiler.Number
