import FormCompiler.Code.Literal
import FormCompiler.Number.Integer

/-!
# Statements of generated functions

Generated functions are lists of statements, which are values until they are rendered.  Expressions
tell variables, translated texts and embedded images apart from other code, since what a statement
refers to matters.
-/

namespace FormCompiler.Code

/-- How code is rendered: the unit of indentation, the name of the form's class, and the function
that translates texts if it is not that of the application. -/
structure Style where
  indent : String
  className : String
  translateFunction : String
  deriving Repr, DecidableEq

/-- The indentation of a depth. -/
def Style.indentation (style : Style) (depth : Nat) : String :=
  String.join (List.replicate depth style.indent)

/-- The depth of the statements of a function, which is a member of a class. -/
def bodyDepth : Nat := 2

/-- The depth of what a statement contains. -/
def innerDepth : Nat := 3

/-! ## Expressions -/

inductive Expr where
  /-- Code as it stands. -/
  | code (text : String)
  /-- A variable. -/
  | ref (name : String)
  /-- A string literal, broken for a depth. -/
  | literal (depth : Nat) (text : String)
  /-- A function or constructor applied to one argument. -/
  | wrap (function : String) (e : Expr)
  /-- A method of an object applied to objects. -/
  | invoke (receiver method : String) (args : List String)
  /-- A text translated at run time. -/
  | translate (text comment : String)
  /-- A list of texts translated at run time. -/
  | translatedList (texts : List String) (comment : String)
  /-- A list of texts. -/
  | plainList (texts : List String)
  /-- An image compiled into the class. -/
  | storedImage (name : String)
  /-- An image in the resources of the form. -/
  | resourceImage (file : String)
  deriving Repr, DecidableEq

/-- The function that gives the pictures compiled into a class. -/
def imageFunction : String := "qt_get_icon"

/-- The enumerator of an image. -/
def imageEnumerator (name : String) : String := name ++ "_ID"

namespace Expr

/-- An integer. -/
def int (n : Int) : Expr := code (Number.intText n)

/-- A text in the form of the toolkit. -/
def utf8 (depth : Nat) (text : String) : Expr := wrap "QString::fromUtf8" (literal depth text)

/-- A text that is empty. -/
def emptyText : Expr := code "QString()"

/-- Whether there is nothing to write. -/
def isVoid : Expr → Bool
  | code text => text.isEmpty
  | _ => false

/-- A translated text; an empty one stays as it is. -/
def translated (style : Style) (text comment : String) : String :=
  if text.isEmpty then "QString()"
  else
    let indent := style.indentation innerDepth
    let function :=
      if style.translateFunction.isEmpty then
        "QApplication::translate(\"" ++ style.className ++ "\", "
      else style.translateFunction ++ "("
    let comment := if comment.isEmpty then "nullptr" else textLiteral comment indent
    function ++ textLiteral text indent ++ ", " ++ comment ++ ")"

def render (style : Style) : Expr → String
  | code text => text
  | ref name => name
  | literal depth text => textLiteral text (style.indentation depth)
  | wrap function e => function ++ "(" ++ e.render style ++ ")"
  | invoke receiver method args =>
    receiver ++ "->" ++ method ++ "(" ++ String.intercalate ", " args ++ ")"
  | translate text comment => translated style text comment
  | translatedList texts comment =>
    "QStringList()" ++ String.join (texts.map fun t =>
      "\n" ++ style.indentation bodyDepth ++ "    << " ++ translated style t comment)
  | plainList texts =>
    "QStringList()" ++ String.join (texts.map fun t =>
      " << " ++ textLiteral t (style.indentation innerDepth))
  | storedImage name => imageFunction ++ "(" ++ imageEnumerator name ++ ")"
  | resourceImage file =>
    "QPixmap(QString::fromUtf8(\":/" ++ style.className ++ "/images/" ++ file ++ "\"))"

end Expr

/-- Arguments in parentheses. -/
def renderArgs (style : Style) (args : List Expr) : String :=
  "(" ++ String.intercalate ", " (args.map (·.render style)) ++ ")"

/-! ## Statements -/

/-- How a declared variable gets its value. -/
inductive Init where
  | default
  | args (args : List Expr)
  | value (e : Expr)
  deriving Repr, DecidableEq

/-- A file that shows an icon in a state. -/
structure IconFile where
  path : String
  mode : String
  state : String
  deriving Repr, DecidableEq

inductive Stmt where
  | blank
  /-- Constructs an object and assigns it to a member. -/
  | create (name className : String) (args : List Expr)
  /-- Constructs an object and declares a variable for it. -/
  | createLocal (name className : String) (args : List Expr)
  | assign (name : String) (e : Expr)
  | declare (type name : String) (init : Init)
  /-- Calls a method of an object. -/
  | call (receiver method : String) (args : List Expr)
  /-- Calls a method of a variable that is no pointer. -/
  | modify (name method : String) (args : List Expr)
  /-- Calls a function. -/
  | run (function : String) (args : List Expr)
  /-- Names an object after its variable, unless it has a name. -/
  | nameOnce (name : String)
  /-- Fills a list with items by one call. -/
  | insertItems (receiver : String) (items : List Expr)
  /-- Takes an icon from the theme that was named last, or else from files. -/
  | chooseIcon (name : String) (files : List IconFile)
  /-- States that a parameter is not used. -/
  | unused (name : String)
  /-- Everything up to `endIf` is compiled only if a symbol is not defined. -/
  | ifNotDefined (symbol : String)
  | endIf
  deriving Repr, DecidableEq

/-- The variable that holds the name of an icon in the theme. -/
def themeVariable : String := "iconThemeName"

namespace Init

def render (style : Style) : Init → String
  | default => ""
  | args l => renderArgs style l
  | value e => " = " ++ e.render style

end Init

/-- The arguments that add a file to an icon. -/
def IconFile.args (f : IconFile) (depth : Nat) : List Expr :=
  [.utf8 depth f.path, .code "QSize()", .code ("QIcon::" ++ f.mode), .code ("QIcon::" ++ f.state)]

namespace Stmt

/-- Sets the name of an object to that of its variable. -/
def setObjectName (name : String) : Stmt := call name "setObjectName" [.utf8 innerDepth name]

def render (style : Style) (s : Stmt) : String :=
  let line (depth : Nat) (text : String) : String := style.indentation depth ++ text ++ "\n"
  let body (text : String) : String := line bodyDepth text
  match s with
  | blank => "\n"
  | create name className args =>
    body (name ++ " = new " ++ className ++ renderArgs style args ++ ";")
  | createLocal name className args =>
    body (className ++ " *" ++ name ++ " = new " ++ className ++ renderArgs style args ++ ";")
  | assign name e => body (name ++ " = " ++ e.render style ++ ";")
  | declare type name init => body (type ++ " " ++ name ++ init.render style ++ ";")
  | call receiver method args => body (receiver ++ "->" ++ method ++ renderArgs style args ++ ";")
  | modify name method args => body (name ++ "." ++ method ++ renderArgs style args ++ ";")
  | run function args => body (function ++ renderArgs style args ++ ";")
  | nameOnce name =>
    body ("if (" ++ name ++ "->objectName().isEmpty()) \x7b") ++
      line innerDepth
        (name ++ "->setObjectName" ++ renderArgs style [.utf8 innerDepth name] ++ ";") ++
      body "\x7d"
  | insertItems receiver items =>
    body (receiver ++ "->insertItems(0, QStringList()") ++
      String.join (items.map fun e => body (" << " ++ e.render style)) ++ body ");"
  | chooseIcon name files =>
    body ("if (QIcon::hasThemeIcon(" ++ themeVariable ++ ")) \x7b") ++
      line innerDepth (name ++ " = QIcon::fromTheme(" ++ themeVariable ++ ");") ++
      body "\x7d else \x7b" ++
      String.join (files.map fun f =>
        line innerDepth (name ++ ".addFile" ++ renderArgs style (f.args innerDepth) ++ ";")) ++
      body "\x7d"
  | unused name => body ("(void) " ++ name ++ ";")
  | ifNotDefined symbol => "#if ! defined(" ++ symbol ++ ")\n"
  | endIf => "#endif\n\n"

end Stmt

/-- The text of a list of statements. -/
def renderAll (style : Style) (stmts : List Stmt) : String :=
  String.join (stmts.map (·.render style))

end FormCompiler.Code
