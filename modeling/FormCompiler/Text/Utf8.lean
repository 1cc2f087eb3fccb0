/-!
# Bytes of a text

`utf8` gives the bytes of a text.  `decodeBytes` reads bytes back: it yields one character for each
well-formed sequence and `none` for each longest ill-formed piece, so `decode?` accepts exactly the
well-formed byte strings and `decodeLossy` shows every ill-formed piece as U+FFFD.
-/

namespace FormCompiler.Text

/-- The bytes of a text. -/
def utf8 (s : String) : List UInt8 := s.toList.flatMap String.utf8EncodeChar

/-- The number of bytes of a run of characters. -/
def byteLength (cs : List Char) : Nat := (cs.map Char.utf8Size).foldr (· + ·) 0

/-- A sequence begun and not yet complete: `need` bytes are missing, the next of them lies between
`low` and `high`, and `code` collects the payload bits. -/
structure Pending where
  need : Nat
  low : Nat
  high : Nat
  code : Nat
  deriving Repr, DecidableEq

/-- Reads the first byte of a sequence. -/
def leadByte (b : UInt8) : List (Option Char) × Option Pending :=
  let n := b.toNat
  if n < 0x80 then ([some (Char.ofNat n)], none)
  else if 0xc2 ≤ n ∧ n ≤ 0xdf then ([], some ⟨1, 0x80, 0xbf, n - 0xc0⟩)
  else if n = 0xe0 then ([], some ⟨2, 0xa0, 0xbf, 0⟩)
  else if n = 0xed then ([], some ⟨2, 0x80, 0x9f, 0xd⟩)
  else if 0xe1 ≤ n ∧ n ≤ 0xef then ([], some ⟨2, 0x80, 0xbf, n - 0xe0⟩)
  else if n = 0xf0 then ([], some ⟨3, 0x90, 0xbf, 0⟩)
  else if 0xf1 ≤ n ∧ n ≤ 0xf3 then ([], some ⟨3, 0x80, 0xbf, n - 0xf0⟩)
  else if n = 0xf4 then ([], some ⟨3, 0x80, 0x8f, 4⟩)
  else ([none], none)

/-- Reads one byte.  A byte that does not continue the pending sequence ends it as ill-formed and
is read afresh. -/
def feedByte : Option Pending → UInt8 → List (Option Char) × Option Pending
  | none, b => leadByte b
  | some p, b =>
    let n := b.toNat
    if p.low ≤ n ∧ n ≤ p.high then
      let code := p.code * 0x40 + (n - 0x80)
      if p.need ≤ 1 then ([some (Char.ofNat code)], none)
      else ([], some ⟨p.need - 1, 0x80, 0xbf, code⟩)
    else
      let (out, next) := leadByte b
      (none :: out, next)

def decodeFrom : Option Pending → List UInt8 → List (Option Char)
  | none, [] => []
  | some _, [] => [none]
  | p, b :: bs =>
    let (out, next) := feedByte p b
    out ++ decodeFrom next bs

/-- The characters of a byte string, `none` for each ill-formed piece. -/
def decodeBytes (bs : List UInt8) : List (Option Char) := decodeFrom none bs

/-- The text of a well-formed byte string. -/
def decode? (bs : List UInt8) : Option String :=
  let cs := decodeBytes bs
  if cs.all Option.isSome then some (String.ofList (cs.filterMap id)) else none

/-- The text of any byte string. -/
def decodeLossy (bs : List UInt8) : String :=
  String.ofList ((decodeBytes bs).map (·.getD (Char.ofNat 0xfffd)))

end FormCompiler.Text
