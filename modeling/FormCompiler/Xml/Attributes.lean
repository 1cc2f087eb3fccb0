import FormCompiler.Xml.Escape
import FormCompiler.Xml.Name

/-!
# Attributes of a start tag

The attributes of a tag are read one character at a time.  All of them are read before any is
looked at, so a fault of a late attribute hides whatever is wrong with the meaning of an early one.
Reported names are local names; two attributes clash if their full names agree.
-/

namespace FormCompiler.Xml

/-- Where the reading of attributes stands.  Characters collected so far are kept last first. -/
inductive AttributeState where
  | gap
  | key (start : Nat) (chars : List Char)
  | afterKey (start : Nat) (name : List Char)
  | beforeValue (name : List Char)
  | value (name : List Char) (quote : Char) (chars : List Char)
  deriving Repr, DecidableEq

/-- The fault at the end of a tag of `place` bytes. -/
def AttributeState.fault? (place : Nat) : AttributeState → Option AttributeFault
  | gap => none
  | key .. | afterKey .. => some (.expectedEq place)
  | beforeValue .. => some (.expectedValue place)
  | value _ quote _ => some (.missingQuote place quote)

/-- The place at which a full name was given before. -/
def previousPlace? (seen : List (List Char × Nat)) (name : List Char) : Option Nat :=
  (seen.find? fun s => s.1 == name).map (·.2)

/-- Reads on from place `pos`, where `seen` lists the full names met so far and their places. -/
def attributesFrom (pos : Nat) (seen : List (List Char × Nat)) :
    AttributeState → List Char → Except Fault (List (String × String))
  | state, [] => match state.fault? pos with
    | some fault => .error (.badAttribute fault)
    | none => .ok []
  | .gap, c :: cs =>
    if isSpace c then attributesFrom (pos + 1) seen .gap cs
    else attributesFrom (pos + c.utf8Size) seen (.key pos [c]) cs
  | .key start chars, c :: cs =>
    if c = '=' then
      let name := chars.reverse
      match previousPlace? seen name with
      | some previous => .error (.badAttribute (.duplicated start previous))
      | none => attributesFrom (pos + 1) ((name, start) :: seen) (.beforeValue name) cs
    else if isSpace c then attributesFrom (pos + 1) seen (.afterKey start chars.reverse) cs
    else attributesFrom (pos + c.utf8Size) seen (.key start (c :: chars)) cs
  | .afterKey start name, c :: cs =>
    if c = '=' then
      match previousPlace? seen name with
      | some previous => .error (.badAttribute (.duplicated start previous))
      | none => attributesFrom (pos + 1) ((name, start) :: seen) (.beforeValue name) cs
    else if isSpace c then attributesFrom (pos + 1) seen (.afterKey start name) cs
    else .error (.badAttribute (.expectedEq pos))
  | .beforeValue name, c :: cs =>
    if isSpace c then attributesFrom (pos + 1) seen (.beforeValue name) cs
    else if c = '"' ∨ c = '\'' then attributesFrom (pos + 1) seen (.value name c []) cs
    else .error (.badAttribute (.unquotedValue pos))
  | .value name quote chars, c :: cs =>
    if c = quote then
      match unescape chars.reverse with
      | .error fault => .error (.badReference fault)
      | .ok value =>
        (attributesFrom (pos + 1) seen .gap cs).map
          ((String.ofList (localName name), value) :: ·)
    else attributesFrom (pos + c.utf8Size) seen (.value name quote (c :: chars)) cs

/-- The attributes of a tag whose text between the angle brackets is `content`, in order. -/
def attributes (content : List Char) : Except Fault (List (String × String)) :=
  let name := content.takeWhile (!isSpace ·)
  attributesFrom (Text.byteLength name) [] .gap (content.drop name.length)

end FormCompiler.Xml
