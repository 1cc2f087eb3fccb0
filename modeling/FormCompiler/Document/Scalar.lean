import FormCompiler.Notice
import FormCompiler.Number.Decimal
import FormCompiler.Text.Blank

/-!
# Scalars

The values of attributes and of elements that hold text only.  Every text is read as some value: a
number that cannot be read is zero, which is noted unless the text is blank.
-/

namespace FormCompiler.Document

open Number

inductive ScalarType where
  | string
  | bool
  | int (t : IntType)
  | float (t : FloatType)
  deriving Repr, DecidableEq

inductive Scalar where
  | string (s : String)
  | bool (b : Bool)
  | int (t : IntType) (v : t.Value)
  | float (t : FloatType) (v : Binary)

namespace Scalar

def type : Scalar → ScalarType
  | string _ => .string
  | bool _ => .bool
  | int t _ => .int t
  | float t _ => .float t

/-- The notice that a number could not be read, unless there is nothing to read. -/
def unread (text : String) (notice : String → Notice) : List Notice :=
  if text.isEmpty then [] else [notice text]

/-- The value a text stands for. -/
def parse (t : ScalarType) (s : String) : Scalar × List Notice :=
  match t with
  | .string => (string s, [])
  | .bool => (bool (s == "true"), [])
  | .int t =>
    let s := Text.trim s
    match readInteger? t s with
    | some v => (int t v, [])
    | none => (int t t.zero, unread s .invalidInteger)
  | .float t =>
    let s := Text.trim s
    match readBinary? t s with
    | some v => (float t v, [])
    | none => (float t (.zero t), unread s .invalidNumber)

/-- Digits written after the point. -/
def places : FloatType → Nat
  | .single => 8
  | .double => 15

def format : Scalar → String
  | string s => s
  | bool b => if b then "true" else "false"
  | int _ v => intText v.val
  | float t v => fixed (places t) v

/-- Equality of values; numbers compare as numbers. -/
def same : Scalar → Scalar → Bool
  | string s, string t => s == t
  | bool b, bool c => b == c
  | int t v, int u w => t == u && v.val == w.val
  | float t v, float u w => t == u && v.same w
  | _, _ => false

def string? : Scalar → Option String
  | string s => some s
  | _ => none

def bool? : Scalar → Option Bool
  | bool b => some b
  | _ => none

def int? : Scalar → Option Int
  | int _ v => some v.val
  | _ => none

def float? : Scalar → Option Binary
  | float _ v => some v
  | _ => none

end Scalar

end FormCompiler.Document
