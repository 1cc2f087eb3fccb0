import FormCompiler.Number.Integer

/-!
# Positions in a document

A position is a line and a column, both counted from one; a column counts characters.  A byte
offset that falls inside a character lies after it.
-/

namespace FormCompiler.Xml

structure Position where
  line : Nat
  column : Nat
  deriving Repr, DecidableEq

namespace Position

/-- The position reached from a given one by `bytes` more bytes of the text. -/
def advance (p : Position) : Nat → List Char → Position
  | 0, _ => p
  | _, [] => p
  | bytes, c :: cs =>
    if c = '\n' then advance ⟨p.line + 1, 1⟩ (bytes - 1) cs
    else advance ⟨p.line, p.column + 1⟩ (bytes - c.utf8Size) cs

/-- The position of a byte offset. -/
def ofOffset (source : String) (offset : Nat) : Position :=
  advance ⟨1, 1⟩ offset source.toList

def text (p : Position) : String :=
  "line " ++ Number.natText p.line ++ ", column " ++ Number.natText p.column

end Position

end FormCompiler.Xml
