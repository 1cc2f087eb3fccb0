import FormCompiler.Document.Form

/-!
# Values of properties

The payloads a property can hold, as the generated code needs them.  Fonts, icons and size policies
keep everything that a form says about them, since equal ones share a variable.
-/

namespace FormCompiler

open Document
open Number (Binary)

/-- A number of a node, zero if it is missing. -/
def Document.Node.real (n : Node) (tag : String) : Binary := (n.float? tag).getD (.zero .double)

def Document.Node.realAttribute (n : Node) (name : String) : Binary :=
  (n.floatAttribute? name).getD (.zero .double)

/-! ## Texts -/

/-- Whether a text has to be translated: it has, unless it is marked. -/
def isTranslatable (notr : Option String) : Bool :=
  match notr with
  | some mark => !Text.isTrueWord mark
  | none => true

/-- A text, with a comment for its translators. -/
structure Phrase where
  text : String
  comment : String
  translatable : Bool
  deriving Repr, DecidableEq

def Phrase.ofNode (n : Node) : Phrase :=
  ⟨n.text, n.stringAttribute "comment", isTranslatable (n.stringAttribute? "notr")⟩

/-- A list of texts, with one comment for all. -/
structure PhraseList where
  texts : List String
  comment : String
  translatable : Bool
  deriving Repr, DecidableEq

def PhraseList.ofNode (n : Node) : PhraseList :=
  ⟨n.strings "string", n.stringAttribute "comment",
    isTranslatable (n.stringAttribute? "notr")⟩

/-! ## Fonts, pictures and size policies -/

structure Font where
  family : Option String
  pointSize : Option Int
  weight : Option Int
  italic : Option Bool
  bold : Option Bool
  underline : Option Bool
  strikeOut : Option Bool
  antialiasing : Option Bool
  styleStrategy : Option String
  kerning : Option Bool
  text : String
  deriving Repr, DecidableEq

def Font.ofNode (n : Node) : Font where
  family := n.string? "family"
  pointSize := n.int? "pointsize"
  weight := n.int? "weight"
  italic := n.bool? "italic"
  bold := n.bool? "bold"
  underline := n.bool? "underline"
  strikeOut := n.bool? "strikeout"
  antialiasing := n.bool? "antialiasing"
  styleStrategy := n.string? "stylestrategy"
  kerning := n.bool? "kerning"
  text := n.text

/-- A reference to a picture: its text is a file name or the name of an embedded image. -/
structure Pixmap where
  resource : Option String
  aliasName : Option String
  text : String
  deriving Repr, DecidableEq

def Pixmap.ofNode (n : Node) : Pixmap :=
  ⟨n.stringAttribute? "resource", n.stringAttribute? "alias", n.text⟩

/-- An icon.  It names a theme, has pictures for some states, or in old forms just a text. -/
structure Icon where
  theme : Option String
  resource : Option String
  /-- The pictures, each with the tag of its state, in the order of the schema. -/
  states : List (String × Pixmap)
  text : String
  deriving Repr, DecidableEq

namespace Icon

def ofNode (n : Node) : Icon where
  theme := n.stringAttribute? "theme"
  resource := n.stringAttribute? "resource"
  states := n.fields.filterMap fun f => f.node?.map fun m => (f.tag, Pixmap.ofNode m)
  text := n.text

def themeName (i : Icon) : String := i.theme.getD ""

/-- Whether the icon is looked up in the theme and falls back on pictures. -/
def hasFallback (i : Icon) : Bool := !i.states.isEmpty && !i.themeName.isEmpty

/-- Whether nothing says what the icon looks like. -/
def isBlank (i : Icon) : Bool := i.states.isEmpty && i.themeName.isEmpty && i.text.isEmpty

/-- The states of an icon: the tag of each, its mode and whether it is on. -/
def stateNames : List (String × String × String) := [
  ("normaloff", "Normal", "Off"), ("normalon", "Normal", "On"),
  ("disabledoff", "Disabled", "Off"), ("disabledon", "Disabled", "On"),
  ("activeoff", "Active", "Off"), ("activeon", "Active", "On"),
  ("selectedoff", "Selected", "Off"), ("selectedon", "Selected", "On")]

end Icon

structure SizePolicy where
  horizontalName : Option String
  verticalName : Option String
  horizontal : Option Int
  vertical : Option Int
  horizontalStretch : Option Int
  verticalStretch : Option Int
  text : String
  deriving Repr, DecidableEq

def SizePolicy.ofNode (n : Node) : SizePolicy where
  horizontalName := n.stringAttribute? "hsizetype"
  verticalName := n.stringAttribute? "vsizetype"
  horizontal := n.int? "hsizetype"
  vertical := n.int? "vsizetype"
  horizontalStretch := n.int? "horstretch"
  verticalStretch := n.int? "verstretch"
  text := n.text

/-- What a property shows where a picture is wanted. -/
inductive Picture where
  | icon (i : Icon)
  | pixmap (p : Pixmap)
  | none
  deriving Repr, DecidableEq

/-- The picture a choice holds. -/
def Picture.ofNode (n : Node) : Picture :=
  match n.fields.head? with
  | some (.node "iconset" m) => icon (Icon.ofNode m)
  | some (.node "pixmap" m) => pixmap (Pixmap.ofNode m)
  | _ => none

/-! ## Colors, brushes and palettes -/

structure Color where
  red : Int
  green : Int
  blue : Int
  alpha : Option Int
  deriving Repr, DecidableEq

namespace Color

def ofNode (n : Node) : Color :=
  ⟨n.int "red", n.int "green", n.int "blue", n.intAttribute? "alpha"⟩

def black : Color := ⟨0, 0, 0, none⟩

end Color

structure GradientStop where
  position : Binary
  color : Color
  deriving Repr, DecidableEq

def GradientStop.ofNode (n : Node) : GradientStop :=
  ⟨n.realAttribute "position", ((n.child? "color").map Color.ofNode).getD Color.black⟩

structure Gradient where
  type : Option String
  start : Binary × Binary
  stop : Binary × Binary
  center : Binary × Binary
  focus : Binary × Binary
  radius : Binary
  angle : Binary
  spread : String
  coordinateMode : Option String
  stops : List GradientStop
  deriving Repr, DecidableEq

def Gradient.ofNode (n : Node) : Gradient where
  type := n.stringAttribute? "type"
  start := (n.realAttribute "startx", n.realAttribute "starty")
  stop := (n.realAttribute "endx", n.realAttribute "endy")
  center := (n.realAttribute "centralx", n.realAttribute "centraly")
  focus := (n.realAttribute "focalx", n.realAttribute "focaly")
  radius := n.realAttribute "radius"
  angle := n.realAttribute "angle"
  spread := n.stringAttribute "spread"
  coordinateMode := n.stringAttribute? "coordinatemode"
  stops := (n.children "gradientstop").map GradientStop.ofNode

/-- What a brush paints with; a texture comes with the name of its property. -/
inductive Fill where
  | none
  | color (c : Color)
  | texture (property : String) (p : Picture)
  | gradient (g : Gradient)
  deriving Repr, DecidableEq

structure Brush where
  style : Option String
  fill : Fill
  deriving Repr, DecidableEq

namespace Brush

def styleName (b : Brush) : String := b.style.getD "SolidPattern"

def isSolid (b : Brush) : Bool := b.styleName == "SolidPattern"

def ofNode (n : Node) : Brush where
  style := n.stringAttribute? "brushstyle"
  fill := match n.fields.head? with
    | some (.node "color" m) => .color (Color.ofNode m)
    | some (.node "texture" m) => .texture (m.stringAttribute "name") (Picture.ofNode m)
    | some (.node "gradient" m) => .gradient (Gradient.ofNode m)
    | _ => .none

end Brush

structure ColorRole where
  role : Option String
  brush : Brush
  deriving Repr, DecidableEq

def ColorRole.ofNode (n : Node) : ColorRole :=
  ⟨n.stringAttribute? "role", ((n.child? "brush").map Brush.ofNode).getD ⟨none, .none⟩⟩

/-- The colors of one state: in old forms by position, otherwise by role. -/
structure ColorGroup where
  roles : List ColorRole
  colors : List Color
  deriving Repr, DecidableEq

def ColorGroup.ofNode (n : Node) : ColorGroup :=
  ⟨(n.children "colorrole").map ColorRole.ofNode, (n.children "color").map Color.ofNode⟩

structure Palette where
  active : Option ColorGroup
  inactive : Option ColorGroup
  disabled : Option ColorGroup
  deriving Repr, DecidableEq

def Palette.ofNode (n : Node) : Palette where
  active := (n.child? "active").map ColorGroup.ofNode
  inactive := (n.child? "inactive").map ColorGroup.ofNode
  disabled := (n.child? "disabled").map ColorGroup.ofNode

/-! ## Values -/

/-- The payload of a property. -/
inductive Value where
  | none
  | bool (text : String)
  | color (c : Color)
  | cstring (text : String)
  | cursor (shape : Int)
  | cursorShape (name : String)
  | enum (name : String)
  | font (f : Font)
  | icon (i : Icon)
  | pixmap (p : Pixmap)
  | palette (p : Palette)
  | point (x y : Int)
  | rect (x y width height : Int)
  | set (text : String)
  | locale (language country : String)
  | sizePolicy (p : SizePolicy)
  | size (width height : Int)
  | string (s : Phrase)
  | stringList (l : PhraseList)
  | number (n : Int)
  | real (v : Binary)
  | date (year month day : Int)
  | time (hour minute second : Int)
  | dateTime (year month day hour minute second : Int)
  | pointF (x y : Binary)
  | rectF (x y width height : Binary)
  | sizeF (width height : Binary)
  | longLong (n : Int)
  | char (code : Int)
  | url (text : String)
  | uint (n : Int)
  | ulongLong (n : Int)
  | brush (b : Brush)
  deriving Repr, DecidableEq

namespace Value

/-- The value of a payload that is a node. -/
def ofNode (tag : String) (n : Node) : Value :=
  match tag with
  | "color" => color (Color.ofNode n)
  | "font" => font (Font.ofNode n)
  | "iconset" => icon (Icon.ofNode n)
  | "pixmap" => pixmap (Pixmap.ofNode n)
  | "palette" => palette (Palette.ofNode n)
  | "point" => point (n.int "x") (n.int "y")
  | "rect" => rect (n.int "x") (n.int "y") (n.int "width") (n.int "height")
  | "locale" => locale (n.stringAttribute "language") (n.stringAttribute "country")
  | "sizepolicy" => sizePolicy (SizePolicy.ofNode n)
  | "size" => size (n.int "width") (n.int "height")
  | "string" => string (Phrase.ofNode n)
  | "stringlist" => stringList (PhraseList.ofNode n)
  | "date" => date (n.int "year") (n.int "month") (n.int "day")
  | "time" => time (n.int "hour") (n.int "minute") (n.int "second")
  | "datetime" =>
    dateTime (n.int "year") (n.int "month") (n.int "day")
      (n.int "hour") (n.int "minute") (n.int "second")
  | "pointf" => pointF (n.real "x") (n.real "y")
  | "rectf" => rectF (n.real "x") (n.real "y") (n.real "width") (n.real "height")
  | "sizef" => sizeF (n.real "width") (n.real "height")
  | "char" => char (n.int "unicode")
  | "url" => url (((n.child? "string").map (·.text)).getD "")
  | "brush" => brush (Brush.ofNode n)
  | _ => none

/-- The value of a payload that is a text. -/
def ofString (tag : String) (s : String) : Value :=
  match tag with
  | "bool" => bool s
  | "cstring" => cstring s
  | "cursorshape" => cursorShape s
  | "enum" => enum s
  | "set" => set s
  | _ => none

/-- The value of a payload that is an integer. -/
def ofInt (tag : String) (n : Int) : Value :=
  match tag with
  | "cursor" => cursor n
  | "number" => number n
  | "longlong" => longLong n
  | "uint" => uint n
  | "ulonglong" => ulongLong n
  | _ => none

def ofField : Field → Value
  | .node tag n => ofNode tag n
  | .value tag (.string s) => ofString tag s
  | .value tag (.int _ v) => ofInt tag v.val
  | .value _ (.float _ v) => real v
  | .value _ (.bool _) => none

end Value

end FormCompiler
