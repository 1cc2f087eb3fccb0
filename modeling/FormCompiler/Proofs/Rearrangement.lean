import FormCompiler.Compile
import FormCompiler.Files.Store
import FormCompiler.Proofs.Document.Rearranging
import FormCompiler.Proofs.Extraction
import FormCompiler.Proofs.Setup.Assembly
import Mathlib.Logic.Relation

/-!
# Documents that mean the same

The order of children with different tags and the order of attributes mean nothing: however a
document is rearranged, it is read as the same form and compiled to the same header
(`order_immaterial`).  Only the notices about numbers that cannot be read may come in another order,
so the header has to be independent of them, which is what `Blind` says of every step.
-/

namespace FormCompiler

open Document Naming

/-! ## Notices make no difference to a header -/

namespace Setup

theorem blind_functions (o : Options) (document : Nat) (f : Form) (root : Visit) :
    Blind (functions o document f root) := by
  intro s s' h
  have hname := Blind.nameOfVisit document root s s' h
  rw [Header.functions_run, Header.functions_run]
  generalize Session.nameOfVisit? document root s = r at hname ⊢
  generalize Session.nameOfVisit? document root s' = r' at hname ⊢
  obtain ⟨name, table, notices⟩ := r
  obtain ⟨_, _, notices'⟩ := r'
  obtain ⟨rfl, rfl⟩ := hname
  -- the sessions after the root has its name differ in their notices only
  obtain ⟨after, hbuilt⟩ := (piece_setUp f).blind
    (admitted_start (Plan.ofForm o document f (name.getD "")) ⟨table, notices⟩) notices'
  have hsame : built (Plan.ofForm o document f (name.getD "")) f ⟨table, notices'⟩ =
      (built (Plan.ofForm o document f (name.getD "")) f ⟨table, notices⟩).noting after :=
    congrArg Prod.snd hbuilt
  simp only [hsame]
  exact ⟨rfl, rfl⟩

end Setup

namespace Header

theorem blind_member (document : Nat) (v : Visit) : Blind (member? document v) := by
  unfold member?
  split
  · exact .pure _
  · exact .bind (.nameOfVisit document v) fun _ => .pure _

theorem blind_gallery (images : List Image) : Blind (gallery images) := by
  intro s s' h
  have hrun : ∀ s, gallery images s = (⟨(declareImages images s.table).1,
      declaredImages (declareImages images s.table).2 images, namedImages images⟩,
      { s with table := (declareImages images s.table).2 }) := fun _ => rfl
  rw [hrun, hrun, h]
  exact ⟨rfl, rfl⟩

theorem blind_declaration (o : Options) (document : Nat) (f : Form) (root : Visit) :
    Blind (declaration o document f root) := by
  refine .bind (.nameOfVisit document root) fun _ =>
    .bind (.filterMapM _ (blind_member document)) fun _ =>
    .bind (.bind (.mapM _ fun _ => .take _) fun _ => .pure _) fun _ =>
    .bind (Setup.blind_functions o document f root) fun _ => ?_
  dsimp only
  split
  · split
    · exact .bind (.pure _) fun _ => .pure _
    · exact .bind (.map _ (blind_gallery _)) fun _ => .pure _
  · exact .bind (.pure _) fun _ => .pure _

end Header

theorem blind_headerOf (o : Options) (document : Nat) (f : Form) :
    Blind (headerOf o document f) := by
  unfold headerOf
  split
  · exact .pure _
  · next root _ =>
    refine .map _ (.bind ?_ fun _ => .bind ?_ fun _ => .pure _)
    · exact .bind (.forM _ fun _ => .note _) fun _ => .pure _
    · exact .bind (Header.blind_declaration o document f root) fun _ => .pure _

theorem blind_report (o : Options) (problem : String) : Blind (report o problem) :=
  .bind (.note _) fun _ _ _ h => ⟨rfl, congrArg (·.addProblem problem) h⟩

section Compiling

variable {m : Type → Type} [Monad m] [LawfulMonad m] (a : Files.Access m) (o : Options)
  (document : Nat)

theorem compileForm_blind (f : Form) {s s' : Session} (h : s.table = s'.table) :
    (fun r => (r.1, r.2.table)) <$> (compileForm a o document f).run s =
      (fun r => (r.1, r.2.table)) <$> (compileForm a o document f).run s' := by
  obtain ⟨hheader, htable⟩ := blind_headerOf o document f s s' h
  cases hs : (headerOf o document f s).1 with
  | error e =>
    rw [compileForm_error a o document f s e hs,
      compileForm_error a o document f s' e (hheader ▸ hs), map_pure, map_pure, htable]
  | ok header =>
    rw [compileForm_ok a o document f s header hs,
      compileForm_ok a o document f s' header (hheader ▸ hs), map_bind, map_bind]
    congr 1
    funext problems
    rw [map_pure, map_pure, (Blind.forM problems (blind_report o) _ _ htable).2]

theorem compile_ofText {source : String} {f : Form} (h : (Form.ofText source).2 = .ok f)
    (s : Session) :
    (compile a o document source).run s =
      (compileForm a o document f).run
        { s with notices := s.notices ++ (Form.ofText source).1 } := by
  have hload : (load source).run s =
      (.ok f, { s with notices := s.notices ++ (Form.ofText source).1 }) := Prod.ext h rfl
  rw [compile, StateT.run_bind, StateT.run_modifyGet, hload, pure_bind]

end Compiling

/-! ## Whole documents -/

/-- Documents that can be rearranged into each other, step by step, are read as the same form or not
at all.  Compiled with the same table, they give the same header, or the same error, and leave the
same table. -/
theorem order_immaterial {source source' : String}
    (h : Relation.ReflTransGen Rearranges source source') :
    (∀ f, (Form.ofText source).2 = .ok f ↔ (Form.ofText source').2 = .ok f) ∧
    ∀ f, (Form.ofText source).2 = .ok f →
      ∀ (m : Type → Type) [Monad m] [LawfulMonad m] (a : Files.Access m) (o : Options)
        (document : Nat) (s : Session),
        (fun r => (r.1, r.2.table)) <$> (compile a o document source).run s =
          (fun r => (r.1, r.2.table)) <$> (compile a o document source').run s := by
  have hsame : (Form.ofText source).2.toOption = (Form.ofText source').2.toOption := by
    induction h with
    | refl => rfl
    | tail _ hstep ih => exact ih.trans (Form.ofText_rearranges hstep)
  have hread : ∀ f, (Form.ofText source).2 = .ok f ↔ (Form.ofText source').2 = .ok f := by
    have hiff : ∀ (r : Except Error Form) f, r = .ok f ↔ r.toOption = some f := by
      intro r f
      cases r with
      | error e => simp [Except.toOption]
      | ok g => simp [Except.toOption]
    intro f
    rw [hiff, hiff, hsame]
  refine ⟨hread, fun f hf m _ _ a o document s => ?_⟩
  rw [compile_ofText a o document hf, compile_ofText a o document ((hread f).mp hf)]
  exact compileForm_blind a o document f rfl

/-! ## A document and what it may be rearranged to -/

namespace Shuffled

def formClass : String := "<class>F</class>"

def remark : String := "\n<!-- --> "

def rootWidget : String := "<widget class = \"W\" name='F'/>"

/-- The root widget with its attributes the other way round. -/
def turnedWidget : String := "<widget name='F' class = \"W\"/>"

def widgetClass : Xml.Spelling := ⟨[' '], "class".toList, [' '], [' '], '"', ['W']⟩

def widgetName : Xml.Spelling := ⟨[' '], "name".toList, [], [], '\'', ['F']⟩

/-- A document with two children. -/
def document (first second : String) : String :=
  "<ui>" ++ (first ++ (remark ++ (second ++ "</ui>")))

theorem document_toList (first second : String) : (document first second).toList =
    "<ui>".toList ++ (first.toList ++ (remark.toList ++ (second.toList ++ "</ui>".toList))) := by
  simp only [document, String.toList_append]

theorem opensTags_ui : OpensTags "<ui>".toList ["ui"] := ⟨.inl rfl, rfl⟩

theorem isElement_formClass : IsElement formClass.toList "class" :=
  ⟨_, _, ⟨_, 16, rfl, rfl⟩, @Xml.Forms.element "class" (.ok []) 7 16 [.text (.ok "F") 8] []
    [⟨.text (.ok "F"), 8⟩] [] (.text .nil) .nil, rfl⟩

theorem isElement_rootWidget : IsElement rootWidget.toList "widget" :=
  ⟨_, _, ⟨_, 30, rfl, rfl⟩, @Xml.Forms.element "widget" (.ok [("class", "W"), ("name", "F")]) 30 30
    [] [] [] [] .nil .nil, rfl⟩

theorem isText_remark : IsText remark.toList := by
  refine ⟨.inr ⟨_, rfl⟩, rfl, fun t ht => ?_⟩
  rw [List.mem_singleton.mp ht]
  exact ⟨_, rfl⟩

theorem rearranges_children :
    Rearranges (document formClass rootWidget) (document rootWidget formClass) :=
  .children opensTags_ui rfl rfl isElement_formClass isText_remark isElement_rootWidget (by decide)
    (document_toList ..) (document_toList ..)

theorem rearranges_attributes :
    Rearranges (document rootWidget formClass) (document turnedWidget formClass) := by
  have hroot : rootWidget.toList =
      '<' :: (Xml.spelledTag "widget".toList [widgetClass, widgetName] [] ++ ['/', '>']) := by
    decide +kernel
  have hturned : turnedWidget.toList =
      '<' :: (Xml.spelledTag "widget".toList [widgetName, widgetClass] [] ++ ['/', '>']) := by
    decide +kernel
  have hsource := document_toList rootWidget formClass
  have hsource' := document_toList turnedWidget formClass
  rw [hroot, List.cons_append, List.append_assoc] at hsource
  rw [hturned, List.cons_append, List.append_assoc] at hsource'
  have hproper : ∀ a ∈ [widgetClass, widgetName], a.Proper := by
    simp only [List.forall_mem_cons, List.not_mem_nil, false_implies, implies_true, and_true]
    decide +kernel
  exact .attributes opensTags_ui (by decide +kernel) hproper (by decide +kernel) (by simp)
    (.inr rfl) (.swap ..) hsource hsource'

end Shuffled

theorem order_immaterial_shuffled :
    let source := Shuffled.document Shuffled.formClass Shuffled.rootWidget
    let source' := Shuffled.document Shuffled.turnedWidget Shuffled.formClass
    Relation.ReflTransGen Rearranges source source' ∧
      ∃ f, (Form.ofText source).2 = .ok f ∧ (Form.ofText source').2 = .ok f ∧
        (fun r => (r.1, r.2.table)) <$> (compile Files.Store.access {} 0 source).run {} =
          (fun r => (r.1, r.2.table)) <$> (compile Files.Store.access {} 0 source').run {} := by
  intro source source'
  have hchain : Relation.ReflTransGen Rearranges source source' :=
    .tail (.single Shuffled.rearranges_children) Shuffled.rearranges_attributes
  have hread : (Form.ofText source).2.toOption.isSome = true := by
    rw [Form.ofText_outcome, Xml.tokens, Shuffled.document_toList]
    decide +kernel
  obtain ⟨hsame, hcompile⟩ := order_immaterial hchain
  cases hf : (Form.ofText source).2 with
  | error e => simp [hf, Except.toOption] at hread
  | ok f =>
    exact ⟨hchain, f, rfl, (hsame f).mp hf,
      hcompile f hf (StateM Files.Store) Files.Store.access {} 0 {}⟩

end FormCompiler
