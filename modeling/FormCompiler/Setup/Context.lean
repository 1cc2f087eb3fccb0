import FormCompiler.Setup.Properties

/-!
# Where an object stands

While a form is walked over, each object is given what encloses it.  What is set up for an object
depends on the form only through its own node and this context.
-/

namespace FormCompiler.Setup

open Document Naming

/-- An enclosing widget or layout: its variable and its class. -/
structure Frame where
  name : String
  className : String
  deriving Repr, DecidableEq

structure Context where
  /-- The nearest enclosing widget. -/
  widget : Option Frame := none
  /-- The layout whose items are walked over; none directly inside a widget. -/
  layout : Option Frame := none
  /-- The name of the nearest enclosing group of actions. -/
  group : Option String := none
  /-- The way to the layout that gets no margins unless it asks for some. -/
  bareLayout : Option (List Nat) := none
  deriving Repr, DecidableEq

namespace Context

/-- The variable of the enclosing widget, empty outside the form. -/
def widgetName (c : Context) : String := (c.widget.map Frame.name).getD ""

/-- The class of the enclosing widget, empty outside the form. -/
def widgetClass (c : Context) : String := (c.widget.map Frame.className).getD ""

/-- The object that owns layouts and actions. -/
def ownerName (c : Context) (plan : Plan) : String := (c.widget.map Frame.name).getD plan.mainForm

/-- The object that owns an action: the group it belongs to, or else the widget. -/
def actionOwner (c : Context) (plan : Plan) : String := c.group.getD (c.ownerName plan)

/-- A target for properties. -/
def target (c : Context) (name className : String) (isLayout : Bool) : Target :=
  ⟨name, className, c.widget.isSome, isLayout⟩

end Context

/-- The name of the object at a visit, empty for an item that holds nothing. -/
def nameAt (plan : Plan) (visit : Visit) : Build String := do
  return (← withSession (Session.nameOfVisit? plan.document visit)).getD ""

end FormCompiler.Setup
