import FormCompiler.Text.LetterPairs

/-!
# Upper case

`upperChar` is the full upper case mapping of one character, which can be up to three characters
long.  `upperFirst` applies it to the first character of a name.
-/

set_option maxRecDepth 4000

namespace FormCompiler.Text

/-- Letters whose upper case is one character: those of pairs, and those that share the upper case
of another letter. -/
def uppercaseShifts : List Shift := letterPairs.map Shift.inverse ++ pairsOf [
  (0xb5, 0x39c), (0x131, 0x49), (0x17f, 0x53), (0x1c5, 0x1c4), (0x1c8, 0x1c7), (0x1cb, 0x1ca),
  (0x1f2, 0x1f1), (0x345, 0x399), (0x3c2, 0x3a3), (0x3d0, 0x392), (0x3d1, 0x398), (0x3d5, 0x3a6),
  (0x3d6, 0x3a0), (0x3f0, 0x39a), (0x3f1, 0x3a1), (0x3f5, 0x395), (0x1c80, 0x412), (0x1c81, 0x414),
  (0x1c82, 0x41e), (0x1c83, 0x421), (0x1c84, 0x422), (0x1c85, 0x422), (0x1c86, 0x42a),
  (0x1c87, 0x462), (0x1c88, 0xa64a), (0x1e9b, 0x1e60), (0x1fbe, 0x399)]

/-- Letters whose upper case is one character and a capital iota. -/
def iotaShifts : List Shift := shiftsOf [
  (0x1f80, 0x1f87, 1, 0x1f08), (0x1f88, 0x1f8f, 1, 0x1f08), (0x1f90, 0x1f97, 1, 0x1f28),
  (0x1f98, 0x1f9f, 1, 0x1f28), (0x1fa0, 0x1fa7, 1, 0x1f68), (0x1fa8, 0x1faf, 1, 0x1f68)] ++
  pairsOf [
  (0x1fb2, 0x1fba), (0x1fb3, 0x391), (0x1fb4, 0x386), (0x1fbc, 0x391), (0x1fc2, 0x1fca),
  (0x1fc3, 0x397), (0x1fc4, 0x389), (0x1fcc, 0x397), (0x1ff2, 0x1ffa), (0x1ff3, 0x3a9),
  (0x1ff4, 0x38f), (0x1ffc, 0x3a9)]

/-- Other letters whose upper case takes several characters. -/
def uppercaseExpansions : List (Nat × List Nat) := [
  (0xdf, [0x53, 0x53]), (0x149, [0x2bc, 0x4e]), (0x1f0, [0x4a, 0x30c]),
  (0x390, [0x399, 0x308, 0x301]), (0x3b0, [0x3a5, 0x308, 0x301]), (0x587, [0x535, 0x552]),
  (0x1e96, [0x48, 0x331]), (0x1e97, [0x54, 0x308]), (0x1e98, [0x57, 0x30a]),
  (0x1e99, [0x59, 0x30a]), (0x1e9a, [0x41, 0x2be]), (0x1f50, [0x3a5, 0x313]),
  (0x1f52, [0x3a5, 0x313, 0x300]), (0x1f54, [0x3a5, 0x313, 0x301]), (0x1f56, [0x3a5, 0x313, 0x342]),
  (0x1fb6, [0x391, 0x342]), (0x1fb7, [0x391, 0x342, 0x399]), (0x1fc6, [0x397, 0x342]),
  (0x1fc7, [0x397, 0x342, 0x399]), (0x1fd2, [0x399, 0x308, 0x300]), (0x1fd3, [0x399, 0x308, 0x301]),
  (0x1fd6, [0x399, 0x342]), (0x1fd7, [0x399, 0x308, 0x342]), (0x1fe2, [0x3a5, 0x308, 0x300]),
  (0x1fe3, [0x3a5, 0x308, 0x301]), (0x1fe4, [0x3a1, 0x313]), (0x1fe6, [0x3a5, 0x342]),
  (0x1fe7, [0x3a5, 0x308, 0x342]), (0x1ff6, [0x3a9, 0x342]), (0x1ff7, [0x3a9, 0x342, 0x399]),
  (0xfb00, [0x46, 0x46]), (0xfb01, [0x46, 0x49]), (0xfb02, [0x46, 0x4c]),
  (0xfb03, [0x46, 0x46, 0x49]), (0xfb04, [0x46, 0x46, 0x4c]), (0xfb05, [0x53, 0x54]),
  (0xfb06, [0x53, 0x54]), (0xfb13, [0x544, 0x546]), (0xfb14, [0x544, 0x535]),
  (0xfb15, [0x544, 0x53b]), (0xfb16, [0x54e, 0x546]), (0xfb17, [0x544, 0x53d])]

def upperChar (c : Char) : List Char :=
  match uppercaseExpansions.lookup c.toNat, shifted? iotaShifts c.toNat with
  | some expansion, _ => expansion.map Char.ofNat
  | none, some n => [Char.ofNat n, Char.ofNat 0x399]
  | none, none => [((shifted? uppercaseShifts c.toNat).map Char.ofNat).getD c]

/-- The text with its first character in upper case. -/
def upperFirst (s : String) : String :=
  match s.toList with
  | [] => ""
  | c :: rest => String.ofList (upperChar c ++ rest)

end FormCompiler.Text
