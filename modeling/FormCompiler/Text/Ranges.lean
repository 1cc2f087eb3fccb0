/-!
# Sets and maps of characters given by tables

Character classes of the Unicode standard are kept as lists of lengths: of the code points up to the
first member, of the stretch of members that begins there, of the next gap, and so on.  Letter maps
are lists of runs.  A run `(first, last, step, image)` stands for the code points
`first, first + step, …, last`; its `k`-th member is sent `k * step` above `image`.
-/

namespace FormCompiler.Text

/-- Whether a number is in one of the stretches that follow on gaps of given lengths. -/
def inLengths : List Nat → Nat → Bool
  | gap :: stretch :: rest, n =>
    if n < gap then false
    else if n < gap + stretch then true
    else inLengths rest (n - (gap + stretch))
  | _, _ => false

/-- Membership in a class of characters given by the lengths of its gaps and stretches. -/
def inStretches (lengths : List Nat) (c : Char) : Bool := inLengths lengths c.toNat

/-- An arithmetic progression of code points. -/
structure Run where
  first : Nat
  last : Nat
  step : Nat
  deriving Repr, DecidableEq

def Run.contains (r : Run) (n : Nat) : Bool :=
  r.first ≤ n && n ≤ r.last && (n - r.first) % r.step == 0

/-- A run together with the image of its first member. -/
structure Shift where
  run : Run
  image : Nat
  deriving Repr, DecidableEq

/-- Shifts written as a first and a last member, a step, and the image of the first member. -/
def shiftsOf (table : List (Nat × Nat × Nat × Nat)) : List Shift :=
  table.map fun (first, last, step, image) => ⟨⟨first, last, step⟩, image⟩

/-- Shifts of one member each, written with its image. -/
def pairsOf (table : List (Nat × Nat)) : List Shift :=
  table.map fun (member, image) => ⟨⟨member, member, 1⟩, image⟩

/-- The shift that leads back. -/
def Shift.inverse (s : Shift) : Shift :=
  ⟨⟨s.image, s.image + (s.run.last - s.run.first), s.run.step⟩, s.run.first⟩

/-- The image of a code point under the first shift that covers it. -/
def shifted? (table : List Shift) (n : Nat) : Option Nat :=
  (table.find? fun s => s.run.contains n).map fun s => s.image + (n - s.run.first)

end FormCompiler.Text
