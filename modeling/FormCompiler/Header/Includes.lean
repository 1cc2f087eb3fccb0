import FormCompiler.Classes.Custom
import FormCompiler.Classes.Headers
import FormCompiler.Document.Walk
import FormCompiler.Options

/-!
# Included headers

A header includes what declares the classes of a form, and what the form itself asks for.  Every
class counts once.  Classes of the toolkit have known headers, those that the form declares name
theirs, and for others a name is guessed.
-/

namespace FormCompiler.Header

open Document Classes

/-- Puts a text into an ordered list, unless it is there. -/
def insertOrdered (s : String) : List String → List String
  | [] => [s]
  | t :: rest =>
    if s = t then t :: rest
    else if s < t then s :: t :: rest
    else t :: insertOrdered s rest

/-- The headers found so far. -/
structure Includes where
  /-- The classes that were met. -/
  known : List String := []
  /-- Headers of the system, in order. -/
  globals : List String := []
  /-- Headers of the form's own project, in order. -/
  locals : List String := []
  /-- Whether a layout was met. -/
  laidOut : Bool := false
  topics : List Topic := []

namespace Includes

def insert (i : Includes) (header : String) (isGlobal : Bool) : Includes :=
  if header.isEmpty then i
  else if isGlobal then { i with globals := insertOrdered header i.globals }
  else { i with locals := insertOrdered header i.locals }

def note (i : Includes) (topic : Topic) : Includes := { i with topics := i.topics ++ [topic] }

/-- The header that is guessed for a class. -/
def guess (className : String) : String := Text.lowercase className ++ ".h"

/-- Adds the header that declares a class. -/
def addHeader (o : Options) (classes : Custom) (i : Includes) (className : String) : Includes :=
  match header? className with
  | some header => i.insert header true
  | none => match classes.find? className with
    | some n =>
      let header := n.child? "header"
      let path := Text.trim ((header.map Node.text).getD "")
      if path.isEmpty then i.note (.noHeader className)
      else i.insert path (header.bind (·.stringAttribute? "location") == some "global")
    | none =>
      if o.implicitIncludes then
        (i.note (.guessedHeader className (guess className))).insert (guess className) true
      else i

/-- Adds a class and nothing that comes with it. -/
def addAlone (o : Options) (classes : Custom) (i : Includes) (className : String) : Includes :=
  if i.known.contains className then i
  else { i with known := className :: i.known }.addHeader o classes className

/-- The spacing of the tabs of a tool box is set on its layout. -/
def addLayoutOf (o : Options) (classes : Custom) (i : Includes) (className : String) : Includes :=
  if !i.laidOut && classes.derives className "QToolBox" then i.addAlone o classes "QLayout" else i

/-- Adds a class and what comes with it. -/
def addClass (o : Options) (classes : Custom) (i : Includes) (className : String) : Includes :=
  if className.isEmpty || i.known.contains className then i
  else
    let i := i.addLayoutOf o classes className
    if className = "Line" then
      ({ i with known := "Line" :: i.known }.addLayoutOf o classes "QFrame").addAlone o classes
        "QFrame"
    else i.addAlone o classes className

end Includes

/-- The class that is needed for a node. -/
def classOf? (n : Node) : Option String :=
  match n.kind with
  | .widget | .layout => some (n.stringAttribute "class")
  | .customWidget => some (n.string "class")
  | .spacer => some "QSpacerItem"
  | .actionGroup => some "QActionGroup"
  | .action => some "QAction"
  | .buttonGroup => some "QButtonGroup"
  | .property => match n.payload?.map Field.tag with
    | some "date" => some "QDate"
    | some "time" => some "QTime"
    | some "datetime" => some "QDateTime"
    | some "locale" => some "QLocale"
    | _ => none
  | _ => none

/-- Whether a header that a form asks for belongs into the declaration. -/
def isForDeclaration (n : Node) : Bool :=
  let place := n.stringAttribute "impldecl"
  place.isEmpty || place == "in declaration"

/-- Adds what a node needs. -/
def addNode (o : Options) (classes : Custom) (i : Includes) (n : Node) : Includes :=
  match n.kind with
  | .includeFile =>
    if isForDeclaration n then
      i.insert (Text.trim n.text) (n.stringAttribute? "location" == some "global")
    else i
  | kind =>
    let i := match classOf? n with
      | some className => i.addClass o classes className
      | none => i
    { i with laidOut := i.laidOut || kind == .layout }

/-- The classes that every form needs. -/
def commonClasses : List String :=
  ["QApplication", "QVariant", "QAction", "QButtonGroup", "QHeaderView"]

/-- The headers that a form needs. -/
def includesOf (o : Options) (f : Form) : Includes :=
  let classes := Custom.ofForm f
  let i := (f.visits.map Visit.node).foldl (addNode o classes) {}
  commonClasses.foldl (fun i className => i.addClass o classes className) i

def Includes.render (i : Includes) : String :=
  String.join (i.globals.map fun h => "#include <" ++ h ++ ">\n") ++
    String.join (i.locals.map fun h => "#include \"" ++ h ++ "\"\n") ++ "\n"

end FormCompiler.Header
