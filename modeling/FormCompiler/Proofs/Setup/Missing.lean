import FormCompiler.Proofs.Header.Members

/-!
# What the setup of a form never creates

Names in a form are looked up in the table of everything that it declares, whether or not the setup
function creates it.  Two kinds of declared objects may never be created: actions that stand for a
menu, unless the form has that menu, and button groups, unless a button joins them.  Apart from
objects, a gradient whose type is unknown is filled without having been declared.
-/

namespace FormCompiler

/-! ## Brushes -/

/-- A gradient of a type that can be declared. -/
def Gradient.Typed (g : Gradient) : Prop :=
  g.type = some "LinearGradient" ∨ g.type = some "RadialGradient" ∨
    g.type = some "ConicalGradient"

instance (g : Gradient) : Decidable g.Typed := inferInstanceAs (Decidable (_ ∨ _ ∨ _))

namespace Brush

/-- The styles of brushes that paint with a gradient. -/
def UsesGradient (b : Brush) : Prop :=
  b.styleName = "LinearGradientPattern" ∨ b.styleName = "RadialGradientPattern" ∨
    b.styleName = "ConicalGradientPattern"

instance (b : Brush) : Decidable b.UsesGradient := inferInstanceAs (Decidable (_ ∨ _ ∨ _))

/-- A brush that paints with a gradient has one of a known type. -/
def Typed (b : Brush) : Prop := b.UsesGradient → ∃ g, b.fill = .gradient g ∧ g.Typed

end Brush

/-- The brushes that a palette sets by their roles. -/
def ColorGroup.brushes (g : ColorGroup) : List Brush :=
  (g.roles.filter (·.role.isSome)).map ColorRole.brush

/-- The brushes that setting a value needs. -/
def Value.brushes : Value → List Brush
  | brush b => [b]
  | palette p =>
    (p.active.toList ++ p.inactive.toList ++ p.disabled.toList).flatMap ColorGroup.brushes
  | _ => []

namespace Setup

open Document Naming
open Header (nameIn groupNameIn groupNodes declaredGroups)

/-- The properties that are set have brushes with known gradients only. -/
def Painted (plan : Plan) (className : String) (isLayout : Bool) (ps : List Property) : Prop :=
  ∀ p ∈ ps, treatment plan ⟨"", className, true, isLayout⟩ false p = .set →
    ∀ b ∈ p.value.brushes, b.Typed

/-! ## Objects -/

/-- The name under which a button gives its group. -/
def groupOf? (button : Node) : Option String :=
  (Property.find? button.containerAttributes "buttonGroup").map fun p =>
    (p.string?.map Phrase.text).getD ""

/-- A visit meets a button of the group declared under a name. -/
def Joins (plan : Plan) (v : Visit) (declared : String) : Prop :=
  v.node.kind = .widget ∧ plan.classes.isButton (v.node.stringAttribute "class") = true ∧
    groupOf? v.node = some declared

/-- The node by which a form declares a button group; the first one of a name counts. -/
def groupNode? (f : Form) (declared : String) : Option Node :=
  (groupNodes f).find? (·.stringAttribute "name" == declared)

/-- The setup of a form: its plan, its root widget, and a table in which its objects have names. -/
structure Job where
  plan : Plan
  form : Form
  root : Visit
  table : Table

namespace Job

variable (job : Job)

/-- The variable of the object that a visit meets. -/
def name (v : Visit) : String := nameIn job.plan.document job.table v

/-- The objects of the form are the root widget and some of what is below it. -/
def visits : List Visit := job.root :: job.root.node.descendants job.root.path

/-- A visit meets a menu in the form that an action can stand for. -/
def IsMenu (v : Visit) : Prop :=
  v.path ≠ job.root.path ∧ v.node.kind = .widget ∧
    job.plan.classes.derives (v.node.stringAttribute "class") "QMenu" = true

/-- An action stands for a menu that the form does not have. -/
def LacksMenu (x : String) : Prop :=
  job.table.actionIsMenu? x = some true ∧
    ∀ v ∈ job.form.visits, job.IsMenu v → job.name v ++ "Action" ≠ x

/-- A declared button group has no button. -/
def LacksButton (x : String) : Prop :=
  ∃ d ∈ declaredGroups job.form, groupNameIn job.table d = x ∧
    ∀ v ∈ job.form.visits, ¬ Joins job.plan v d

/-- A declared object is never created. -/
def Missing (x : String) : Prop := job.LacksMenu x ∨ job.LacksButton x

/-- A widget of the form places an action under a name. -/
def Places (x : String) : Prop :=
  x ≠ "separator" ∧
    ∃ v ∈ job.form.visits, v.node.kind = .actionRef ∧ v.node.stringAttribute "name" = x

/-- The gradients that are needed to set up the object at a visit have known types. -/
def Paints (v : Visit) : Prop :=
  match v.node.kind with
  | .widget =>
    Painted job.plan (v.node.stringAttribute "class") false v.node.properties ∧
      ∀ d, Joins job.plan v d → ∀ n, groupNode? job.form d = some n →
        Painted job.plan "QButtonGroup" false n.properties
  | .layout => Painted job.plan (v.node.stringAttribute "class") true v.node.properties
  | .actionGroup => Painted job.plan "QActionGroup" false v.node.properties
  | .action =>
    v.node.attribute? "menu" = none → Painted job.plan "QAction" false v.node.properties
  | _ => True

end Job

end Setup

end FormCompiler
