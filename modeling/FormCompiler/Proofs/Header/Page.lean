import FormCompiler.Compile

/-!
# The text of a header

A header holds the class of a form, and the class holds a line for each member and the statements of
its functions, one after the other (`Declaration.Printed`).  What is proved of the members and the
statements of a declaration is so proved of the lines of a header (`declaration_inHeader`).
-/

namespace FormCompiler

open Code Document Naming

/-! ## Running stateful code -/

section Runs

variable {σ α β : Type} (s : σ)

theorem bind_run (m : StateM σ α) (k : α → StateM σ β) : (m >>= k) s = k (m s).1 (m s).2 := rfl

theorem map_run (f : α → β) (m : StateM σ α) : (f <$> m) s = (f (m s).1, (m s).2) := rfl

theorem pure_run (a : α) : (pure a : StateM σ α) s = (a, s) := rfl

theorem get_run : (get : StateM σ σ) s = (s, s) := rfl

theorem modify_run (f : σ → σ) : (modify f : StateM σ Unit) s = ((), f s) := rfl

theorem ite_run (c : Prop) [Decidable c] (m m' : StateM σ α) :
    (if c then m else m') s = if c then m s else m' s := by
  split <;> rfl

theorem forM_eq_foldlM (l : List α) (m : α → StateM σ Unit) :
    l.forM m = l.foldlM (fun _ a => m a) () := by
  induction l with
  | nil => rfl
  | cons a l ih => exact congrArg (m a >>= fun _ => ·) ih

end Runs

/-! ## Texts in texts -/

/-- One text occurs in another. -/
def Occurs (part whole : String) : Prop := part.toList <:+: whole.toList

namespace Occurs

variable {part whole text : String}

theorem refl (part : String) : Occurs part part := List.infix_rfl

theorem trans (h : Occurs part whole) (h' : Occurs whole text) : Occurs part text :=
  List.IsInfix.trans h h'

theorem before (h : Occurs part whole) (text : String) : Occurs part (whole ++ text) := by
  unfold Occurs
  rw [String.toList_append]
  exact List.infix_append_of_infix_left h

theorem after (h : Occurs part whole) (text : String) : Occurs part (text ++ whole) := by
  unfold Occurs
  rw [String.toList_append]
  exact List.infix_append_of_infix_right h

theorem join {texts : List String} (h : Occurs part text) (htext : text ∈ texts) :
    Occurs part (String.join texts) := by
  obtain ⟨l, r, rfl⟩ := List.append_of_mem htext
  unfold Occurs
  rw [String.toList_join, List.flatMap_append, List.flatMap_cons]
  exact List.infix_append_of_infix_right (List.infix_append_of_infix_left h)

end Occurs

/-! ## The class in the header -/

theorem occurs_protect (symbol text : String) : Occurs text (protect symbol text) :=
  (((Occurs.refl text).after _).before _ |>.before _).before _

theorem headerOf_class (o : Options) (document : Nat) {f : Form} {root : Visit} (s : Session)
    (hroot : f.rootVisit? = some root) :
    ∃ header, (headerOf o document f s).1 = .ok header ∧
      Occurs ((Header.declaration o document f root (includesText o f s).2).1.render o
        (Setup.style o f)) header := by
  refine ⟨(headerText o document f root s).1, ?_, ?_⟩
  · simp only [headerOf, hroot, map_run]
  · unfold headerText classText
    simp only [bind_run, pure_run]
    refine Occurs.after ?_ _
    split
    · exact ((Occurs.refl _).after _).trans (occurs_protect _ _)
    · exact (Occurs.refl _).after _

namespace Header

/-! ## Members and statements -/

/-- The text of a function with its statements. -/
def bodyText (style : Style) (name : String) (fs : Setup.Functions) (body : List Stmt) : String :=
  style.indent ++ "void " ++ name ++ "(" ++ fs.formClass ++ " *" ++ fs.form ++ ")\n" ++
    style.indent ++ "\x7b\n" ++ String.join (body.map (·.render style)) ++
    style.indent ++ "\x7d\n\n"

/-- A text holds the members of a declaration, one to a line, and then its functions. -/
def Declaration.Printed (d : Declaration) (style : Style) (text : String) : Prop :=
  Occurs
    (String.join (d.members.map fun m => style.indent ++ m.className ++ " *" ++ m.name ++ ";\n") ++
      "\n" ++ (bodyText style "setupUi" d.functions d.functions.setup ++
        bodyText style "retranslateUi" d.functions d.functions.retranslate)) text

theorem Declaration.printed (o : Options) (f : Form) (d : Declaration) :
    d.Printed (Setup.style o f) (d.render o (Setup.style o f)) := by
  have hclass : Occurs (d.classText o (Setup.style o f)) (d.render o (Setup.style o f)) :=
    (((((Occurs.refl _).after _).before _).before _).before _).before _
  have hbody : ∀ head members functions : String,
      Occurs (members ++ "\n" ++ functions) (head ++ members ++ "\n" ++ functions) := by
    intro head members functions
    rw [@String.append_assoc head, @String.append_assoc head]
    exact (Occurs.refl _).after head
  exact (((hbody _ _ _).before _).before _).trans hclass

/-- The headers that are compiled with this session after their included headers hold a
declaration. -/
def Declaration.InHeader (d : Declaration) (o : Options) (document : Nat) (f : Form)
    (s : Session) : Prop :=
  ∀ earlier, (includesText o f earlier).2 = s →
    ∃ header, (headerOf o document f earlier).1 = .ok header ∧ d.Printed (Setup.style o f) header

theorem declaration_inHeader (o : Options) (document : Nat) {f : Form} {root : Visit} (s : Session)
    (hroot : f.rootVisit? = some root) :
    ((declaration o document f root).run s).1.InHeader o document f s := by
  rintro earlier rfl
  obtain ⟨header, hheader, hclass⟩ := headerOf_class o document earlier hroot
  exact ⟨header, hheader, (Declaration.printed o f _).trans hclass⟩

end Header

end FormCompiler
