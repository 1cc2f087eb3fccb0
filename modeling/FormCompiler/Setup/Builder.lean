import FormCompiler.Classes.Custom
import FormCompiler.Code.Statement
import FormCompiler.Form.Property
import FormCompiler.Options
import FormCompiler.Naming.Table

/-!
# Building the setup code

The code that sets up a form is built while the form is walked over.  `Plan` is what stays the same
meanwhile, `Builder` what has been built: statements of the setup function, statements put off to
its end, statements that depend on the language, and what is needed to share variables.
-/

namespace FormCompiler.Setup

open Code Document Naming

/-- A default of the form for a distance of its layouts: a number, or a function to call. -/
structure LayoutDefault where
  value : Option Int
  function : Option String
  deriving Repr, DecidableEq

/-- What stays the same while a form is set up. -/
structure Plan where
  options : Options
  classes : Classes.Custom
  /-- The document whose objects are set up. -/
  document : Nat
  /-- Whether properties are set by setters unless they say otherwise. -/
  usesSetters : Bool
  margin : LayoutDefault
  spacing : LayoutDefault
  /-- The parameter of the setup function. -/
  mainForm : String
  pixmapFunction : String
  /-- Embedded images and the extensions of their files; the last of a name counts. -/
  images : List (String × String)

/-- Where a layout stands, which decides the usual margin. -/
inductive MarginType where
  | unset
  | topLevel
  | child
  | subLayout
  deriving Repr, DecidableEq

def MarginType.usualMargin : MarginType → Int
  | unset => -1
  | topLevel | child => 9
  | subLayout => 0

/-- The two functions code is written for. -/
inductive Section where
  | setup
  | retranslate
  deriving Repr, DecidableEq

structure Builder where
  session : Session
  setup : List Stmt := []
  retranslate : List Stmt := []
  /-- What is put off to the end of the setup function. -/
  delayed : List Stmt := []
  /-- Where actions are placed; all objects exist by then. -/
  delayedActions : List Stmt := []
  /-- The names of the widgets met so far. -/
  widgets : List String := []
  /-- Labels and the names of their buddies. -/
  buddies : List (String × String) := []
  /-- The button groups created so far. -/
  buttonGroups : List String := []
  fonts : List (Font × String) := []
  icons : List (Icon × String) := []
  sizePolicies : List (SizePolicy × String) := []
  /-- Brushes of one color, by the four bytes of the color. -/
  brushes : List (Nat × String) := []
  marginType : MarginType := .topLevel
  /-- Whether the retranslate function refers to the form. -/
  retranslatesForm : Bool := false
  /-- Whether the variable for theme names is declared. -/
  themeDeclared : Bool := false

abbrev Build := StateM Builder

/-- Uses the symbol table. -/
def withSession {α : Type} (m : StateM Session α) : Build α := fun b =>
  let (a, session) := m b.session
  (a, { b with session })

def table : Build Table := do return (← get).session.table

/-- A fresh name for a variable. -/
def freshName (base : String) : Build String := withSession (Session.unique base "")

/-- Notes something about the form. -/
def note (plan : Plan) (topic : Topic) : Build Unit :=
  withSession (Session.note (.about plan.options.formName topic))

def emit (s : Stmt) : Build Unit := modify fun b => { b with setup := b.setup ++ [s] }

def emitAll (l : List Stmt) : Build Unit := modify fun b => { b with setup := b.setup ++ l }

def delay (s : Stmt) : Build Unit := modify fun b => { b with delayed := b.delayed ++ [s] }

def delayAction (s : Stmt) : Build Unit :=
  modify fun b => { b with delayedActions := b.delayedActions ++ [s] }

def emitRetranslate (l : List Stmt) : Build Unit :=
  modify fun b => { b with retranslate := b.retranslate ++ l }

def emitIn (s : Section) (l : List Stmt) : Build Unit :=
  match s with
  | .setup => emitAll l
  | .retranslate => emitRetranslate l

/-! ## Texts -/

/-- Whether a text, or the text that stands in for a missing one, is to be translated. -/
def isTranslated (phrase : Option Phrase) (fallback : String) : Bool :=
  match phrase with
  | some p => p.translatable
  | none => !fallback.isEmpty

/-- A text as it is; nothing if there is neither a text nor one that stands in for it. -/
def plainText (phrase : Option Phrase) (fallback : String) : Expr :=
  match phrase with
  | some p => .utf8 innerDepth p.text
  | none => if fallback.isEmpty then .code "" else .utf8 innerDepth fallback

def translatedText (phrase : Option Phrase) (fallback : String) : Expr :=
  match phrase with
  | some p => .translate p.text p.comment
  | none => .translate fallback ""

/-- A text, translated or not. -/
def shownText (phrase : Option Phrase) (fallback : String) : Expr :=
  if isTranslated phrase fallback then translatedText phrase fallback
  else plainText phrase fallback

/-- The function in which a text is set. -/
def textSection (phrase : Option Phrase) (fallback : String) : Section :=
  if isTranslated phrase fallback then .retranslate else .setup

end FormCompiler.Setup
