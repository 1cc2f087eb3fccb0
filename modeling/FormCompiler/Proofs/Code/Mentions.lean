import FormCompiler.Code.Statement

/-!
# What code mentions

Two things in the code of a form are more than text of its own: references to embedded images, and
texts that are translated at run time.  `Stmt.mentions` collects both.  How code is rendered depends
on the function that translates only where a translation is mentioned (`renderAll_untranslated`).
-/

namespace FormCompiler.Code

/-- A reference to an embedded image: by its enumerator, or by the name of its file. -/
inductive ImageRef where
  | stored (name : String)
  | resource (file : String)
  deriving Repr, DecidableEq

@[simp] def Expr.images : Expr → List ImageRef
  | .wrap _ e => e.images
  | .storedImage name => [.stored name]
  | .resourceImage file => [.resource file]
  | _ => []

@[simp] def Init.images : Init → List ImageRef
  | .default => []
  | .args l => l.flatMap Expr.images
  | .value e => e.images

@[simp] def Stmt.images : Stmt → List ImageRef
  | .create _ _ args | .createLocal _ _ args | .call _ _ args | .modify _ _ args | .run _ args
  | .insertItems _ args => args.flatMap Expr.images
  | .assign _ e => e.images
  | .declare _ _ init => init.images
  | _ => []

/-- The images that statements refer to. -/
def imagesOf (l : List Stmt) : List ImageRef := l.flatMap Stmt.images

@[simp] theorem imagesOf_append (l l' : List Stmt) :
    imagesOf (l ++ l') = imagesOf l ++ imagesOf l' := List.flatMap_append

/-! ## Images and translations -/

inductive Mention where
  | image (r : ImageRef)
  | translation
  deriving Repr, DecidableEq

def Mention.image? : Mention → Option ImageRef
  | .image r => some r
  | .translation => none

@[simp] def Expr.mentions : Expr → List Mention
  | .wrap _ e => e.mentions
  | .storedImage name => [.image (.stored name)]
  | .resourceImage file => [.image (.resource file)]
  | .translate _ _ | .translatedList _ _ => [.translation]
  | _ => []

@[simp] def Init.mentions : Init → List Mention
  | .default => []
  | .args l => l.flatMap Expr.mentions
  | .value e => e.mentions

@[simp] def Stmt.mentions : Stmt → List Mention
  | .create _ _ args | .createLocal _ _ args | .call _ _ args | .modify _ _ args | .run _ args
  | .insertItems _ args => args.flatMap Expr.mentions
  | .assign _ e => e.mentions
  | .declare _ _ init => init.mentions
  | _ => []

def mentionsOf (l : List Stmt) : List Mention := l.flatMap Stmt.mentions

@[simp] theorem mentionsOf_nil : mentionsOf [] = [] := rfl

@[simp] theorem mentionsOf_cons (s : Stmt) (l : List Stmt) :
    mentionsOf (s :: l) = s.mentions ++ mentionsOf l := rfl

@[simp] theorem mentionsOf_append (l l' : List Stmt) :
    mentionsOf (l ++ l') = mentionsOf l ++ mentionsOf l' := List.flatMap_append

theorem mentionsOf_eq_nil {l : List Stmt} : mentionsOf l = [] ↔ ∀ s ∈ l, s.mentions = [] :=
  List.flatMap_eq_nil_iff

@[simp] theorem mentions_int (n : Int) : (Expr.int n).mentions = [] := rfl

@[simp] theorem mentions_utf8 (depth : Nat) (text : String) :
    (Expr.utf8 depth text).mentions = [] := rfl

@[simp] theorem mentions_emptyText : Expr.emptyText.mentions = [] := rfl

theorem images_expr (e : Expr) : e.images = e.mentions.filterMap Mention.image? := by
  induction e with
  | wrap function e ih => exact ih
  | _ => rfl

theorem images_args (l : List Expr) :
    l.flatMap Expr.images = (l.flatMap Expr.mentions).filterMap Mention.image? := by
  rw [List.filterMap_flatMap]
  exact congrArg (List.flatMap · l) (funext images_expr)

theorem images_stmt (s : Stmt) : s.images = s.mentions.filterMap Mention.image? := by
  cases s with
  | assign name e => exact images_expr e
  | declare type name init =>
    cases init with
    | default => rfl
    | args l => exact images_args l
    | value e => exact images_expr e
  | create | createLocal | call | modify | run | insertItems => exact images_args _
  | _ => rfl

theorem imagesOf_eq (l : List Stmt) : imagesOf l = (mentionsOf l).filterMap Mention.image? := by
  rw [mentionsOf, List.filterMap_flatMap]
  exact congrArg (List.flatMap · l) (funext images_stmt)

/-! ## The function that translates -/

/-- A style with another function that translates. -/
def Style.translating (style : Style) (function : String) : Style :=
  { style with translateFunction := function }

variable (style : Style) (function : String)

theorem render_untranslated {e : Expr} (h : .translation ∉ e.mentions) :
    e.render (style.translating function) = e.render style := by
  induction e with
  | wrap name e ih => exact congrArg (fun text => name ++ "(" ++ text ++ ")") (ih h)
  | translate | translatedList => exact absurd (List.mem_singleton.mpr rfl) h
  | _ => rfl

theorem renderArgs_untranslated {l : List Expr} (h : .translation ∉ l.flatMap Expr.mentions) :
    renderArgs (style.translating function) l = renderArgs style l := by
  have hargs : l.map (·.render (style.translating function)) = l.map (·.render style) :=
    List.map_congr_left fun e he =>
      render_untranslated style function fun hm => h (List.mem_flatMap.mpr ⟨e, he, hm⟩)
  rw [renderArgs, hargs, renderArgs]

theorem renderStmt_untranslated {s : Stmt} (h : .translation ∉ s.mentions) :
    s.render (style.translating function) = s.render style := by
  unfold Stmt.render
  cases s with
  | assign name e =>
    dsimp only
    rw [render_untranslated style function (e := e) h]
    rfl
  | declare type name init =>
    have hinit : init.render (style.translating function) = init.render style := by
      cases init with
      | default => rfl
      | args l => exact renderArgs_untranslated style function h
      | value e => exact congrArg (" = " ++ ·) (render_untranslated style function h)
    dsimp only
    rw [hinit]
    rfl
  | insertItems receiver items =>
    have hitems : ∀ e ∈ items, e.render (style.translating function) = e.render style :=
      fun e he =>
        render_untranslated style function fun hm => h (List.mem_flatMap.mpr ⟨e, he, hm⟩)
    dsimp only
    rw [List.map_congr_left fun e he => by rw [hitems e he]]
    rfl
  | create | createLocal | call | modify | run =>
    dsimp only
    rw [renderArgs_untranslated style function h]
    rfl
  | _ => rfl

theorem renderAll_untranslated {l : List Stmt} (h : .translation ∉ mentionsOf l) :
    renderAll (style.translating function) l = renderAll style l := by
  refine congrArg String.join (List.map_congr_left fun s hs => ?_)
  exact renderStmt_untranslated style function fun hm => h (List.mem_flatMap.mpr ⟨s, hs, hm⟩)

end FormCompiler.Code
