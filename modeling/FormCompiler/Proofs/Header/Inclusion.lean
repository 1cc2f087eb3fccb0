import FormCompiler.Proofs.Classes.Inheritance
import FormCompiler.Proofs.Header.Gallery

/-!
# What a header includes

A header includes what its classes need, each header once and in ascending order: first those of the
system, then those of the form's own project (`includes_exactly`).  The classes are collected on the
walk over the form, where every class counts once; a class that is met again never lacks a header
that it would have brought later, because all that comes with it is there already (`Settled`).

A line stands for a frame, so that a header which the form declares for the class `Line` is left out
(`line_header_omitted`).
-/

namespace FormCompiler.Header

open Document Classes Naming

/-! ## What a form needs -/

/-- A node names a class: its own, or the one that stands for its kind. -/
def Names (n : Node) (c : String) : Prop :=
  (n.kind = .widget ∨ n.kind = .layout) ∧ c = n.stringAttribute "class" ∨
    n.kind = .customWidget ∧ c = n.string "class" ∨
    (n.kind, c) ∈ [(.spacer, "QSpacerItem"), (.actionGroup, "QActionGroup"), (.action, "QAction"),
      (.buttonGroup, "QButtonGroup")] ∨
    n.kind = .property ∧ ∃ value, n.payload? = some value ∧
      (value.tag, c) ∈ [("date", "QDate"), ("time", "QTime"), ("datetime", "QDateTime"),
        ("locale", "QLocale")]

/-- A node asks for the class that it names, and a line for a frame as well. -/
def Asks (n : Node) (c : String) : Prop :=
  ∃ d, Names n d ∧ d ≠ "" ∧ (c = d ∨ d = "Line" ∧ c = "QFrame")

/-- The nodes of a form, in the order of the walk. -/
def walked (f : Form) : List Node := f.visits.map Visit.node

/-- A node that is met before the first layout of a form, or is it. -/
def MetEarly (f : Form) (n : Node) : Prop :=
  ∃ l r, walked f = l ++ n :: r ∧ ∀ m ∈ l, m.kind ≠ .layout

/-- A class is a tool box. -/
def IsToolBox (f : Form) (c : String) : Prop :=
  Relation.ReflTransGen (Custom.ofForm f).Extends c "QToolBox"

/-- The classes that a form needs.  Layouts are needed for a tool box if it is not asked for only
after the first layout. -/
inductive Needed (f : Form) : String → Prop
  | asked {n : Node} {c : String} (hn : n ∈ walked f) (hc : Asks n c) : Needed f c
  | common {c : String} (hc : c ∈ commonClasses) : Needed f c
  | early {n : Node} {c : String} (hn : MetEarly f n) (hc : Asks n c) (hbox : IsToolBox f c) :
    Needed f "QLayout"
  | unplaced {c : String} (hnone : ∀ n ∈ walked f, n.kind ≠ .layout) (hc : Needed f c)
    (hbox : IsToolBox f c) : Needed f "QLayout"

/-- The header that the declaration of a class names. -/
def headerPath (n : Node) : String := Text.trim (((n.child? "header").map Node.text).getD "")

/-- Whether a text says that a header is one of the system. -/
def isSystem (location : Option String) : Bool := location == some "global"

/-- The header of a class, and whether it is one of the system: that of the toolkit, else the one
that the last declaration of the class names, else one that is guessed. -/
inductive Provides (o : Options) (f : Form) (c : String) : String → Bool → Prop
  | toolkit {h : String} (hh : header? c = some h) : Provides o f c h true
  | declared {n : Node} (hh : header? c = none)
    (hn : Custom.declaration? (Custom.declarations f) c = some n) (hpath : headerPath n ≠ "") :
    Provides o f c (headerPath n)
      (isSystem ((n.child? "header").bind (·.stringAttribute? "location")))
  | guessed (hh : header? c = none)
    (hn : Custom.declaration? (Custom.declarations f) c = none) (ho : o.implicitIncludes = true) :
    Provides o f c (Text.lowercase c ++ ".h") true

/-- A node that asks for a header in the declaration. -/
def Requests (n : Node) (h : String) (system : Bool) : Prop :=
  n.kind = .includeFile ∧
    (n.stringAttribute "impldecl" = "" ∨ n.stringAttribute "impldecl" = "in declaration") ∧
    h = Text.trim n.text ∧ h ≠ "" ∧ system = isSystem (n.stringAttribute? "location")

/-- The headers that a form needs, if the classes in `exempt` do not count. -/
def Included (exempt : List String) (o : Options) (f : Form) (h : String) (system : Bool) : Prop :=
  (∃ c, Needed f c ∧ c ∉ exempt ∧ Provides o f c h system) ∨
    ∃ n ∈ walked f, Requests n h system

/-- A text lists the headers that a form needs, each once and in ascending order, first those of the
system. -/
def Lists (exempt : List String) (o : Options) (f : Form) (text : String) : Prop :=
  ∃ globals locals : List String,
    text = String.join (globals.map fun h => "#include <" ++ h ++ ">\n") ++
      String.join (locals.map fun h => "#include \"" ++ h ++ "\"\n") ++ "\n" ∧
    globals.Pairwise (· < ·) ∧ locals.Pairwise (· < ·) ∧
    (∀ h, h ∈ globals ↔ Included exempt o f h true) ∧
    ∀ h, h ∈ locals ↔ Included exempt o f h false

/-! ## Ordered lists -/

theorem mem_insertOrdered (s x : String) (l : List String) :
    x ∈ insertOrdered s l ↔ x = s ∨ x ∈ l := by
  induction l with
  | nil => simp [insertOrdered]
  | cons t rest ih =>
    rw [insertOrdered]
    split
    · rename_i heq
      simp [heq]
    · split <;> simp [ih, or_left_comm]

theorem pairwise_insertOrdered (s : String) {l : List String} (hl : l.Pairwise (· < ·)) :
    (insertOrdered s l).Pairwise (· < ·) := by
  induction l with
  | nil => simp [insertOrdered]
  | cons t rest ih =>
    have hrest := List.pairwise_cons.mp hl
    rw [insertOrdered]
    split
    · exact hl
    · rename_i hne
      split
      · rename_i hlt
        refine List.pairwise_cons.mpr ⟨fun x hx => ?_, hl⟩
        rcases List.mem_cons.mp hx with rfl | hx
        · exact hlt
        · exact String.lt_trans hlt (hrest.1 x hx)
      · rename_i hge
        have hlt : t < s :=
          String.not_le.mp fun hle => hne (String.le_antisymm hle (String.not_lt.mp hge))
        refine List.pairwise_cons.mpr ⟨fun x hx => ?_, ih hrest.2⟩
        rcases (mem_insertOrdered s x rest).mp hx with rfl | hx
        · exact hlt
        · exact hrest.1 x hx

namespace Includes

/-- The headers of the system, or those of the form's own project. -/
def headers (i : Includes) (system : Bool) : List String := if system then i.globals else i.locals

variable {i : Includes} {o : Options} {f : Form} {c h : String}

theorem mem_insert (i : Includes) (header : String) (isGlobal : Bool) (x : String)
    (system : Bool) : x ∈ (i.insert header isGlobal).headers system ↔
      x ∈ i.headers system ∨ header ≠ "" ∧ x = header ∧ system = isGlobal := by
  rw [insert]
  split
  · rename_i hempty
    simp [String.isEmpty_iff.mp hempty]
  · rename_i hempty
    have hne : header ≠ "" := fun heq => hempty (heq ▸ rfl)
    cases isGlobal <;> cases system <;> simp [headers, mem_insertOrdered, hne, or_comm]

theorem ordered_insert (header : String) (isGlobal : Bool)
    (hi : ∀ system, (i.headers system).Pairwise (· < ·)) (system : Bool) :
    ((i.insert header isGlobal).headers system).Pairwise (· < ·) := by
  have hglobals := hi true
  have hlocals := hi false
  rw [insert]
  split
  · exact hi system
  · cases isGlobal <;> cases system
    · exact pairwise_insertOrdered header hlocals
    · exact hglobals
    · exact hlocals
    · exact pairwise_insertOrdered header hglobals

@[simp]
theorem insert_known (i : Includes) (header : String) (isGlobal : Bool) :
    (i.insert header isGlobal).known = i.known := by
  unfold insert
  split_ifs <;> rfl

@[simp]
theorem insert_laidOut (i : Includes) (header : String) (isGlobal : Bool) :
    (i.insert header isGlobal).laidOut = i.laidOut := by
  unfold insert
  split_ifs <;> rfl

/-! ## The header of one class -/

theorem header?_ne_empty (hh : header? c = some h) : h ≠ "" := by
  have hall : ∀ e ∈ toolkitHeaders, e.2 ≠ "" := by decide
  obtain ⟨l, l', hl, -⟩ := List.lookup_eq_some_iff.mp hh
  exact hall (c, h) (hl ▸ by simp)

theorem guess_ne_empty (c : String) : guess c ≠ "" := by
  intro h
  have hlength := congrArg String.length h
  simp [guess] at hlength

theorem addHeader_cases (i : Includes) (o : Options) (t : Custom) (c : String) :
    ∃ noted, i.addHeader o t c = { i with topics := noted } ∨
      ∃ header isGlobal, i.addHeader o t c = { i with topics := noted }.insert header isGlobal := by
  unfold addHeader
  cases header? c with
  | some header => exact ⟨i.topics, .inr ⟨header, true, rfl⟩⟩
  | none =>
    cases t.find? c with
    | some n =>
      dsimp only
      split
      · exact ⟨_, .inl rfl⟩
      · exact ⟨i.topics, .inr ⟨_, _, rfl⟩⟩
    | none =>
      dsimp only
      split
      · exact ⟨_, .inr ⟨_, _, rfl⟩⟩
      · exact ⟨i.topics, .inl rfl⟩

@[simp]
theorem addHeader_known (i : Includes) (o : Options) (t : Custom) (c : String) :
    (i.addHeader o t c).known = i.known := by
  obtain ⟨noted, h | ⟨_, _, h⟩⟩ := addHeader_cases i o t c <;> simp [h]

@[simp]
theorem addHeader_laidOut (i : Includes) (o : Options) (t : Custom) (c : String) :
    (i.addHeader o t c).laidOut = i.laidOut := by
  obtain ⟨noted, h | ⟨_, _, h⟩⟩ := addHeader_cases i o t c <;> simp [h]

theorem ordered_addHeader (o : Options) (t : Custom) (c : String)
    (hi : ∀ system, (i.headers system).Pairwise (· < ·)) (system : Bool) :
    ((i.addHeader o t c).headers system).Pairwise (· < ·) := by
  obtain ⟨noted, h | ⟨header, isGlobal, h⟩⟩ := addHeader_cases i o t c
  · rw [h]
    exact hi system
  · rw [h]
    exact @ordered_insert { i with topics := noted } header isGlobal hi system

theorem mem_addHeader (i : Includes) (o : Options) (f : Form) (c x : String) (system : Bool) :
    x ∈ (i.addHeader o (Custom.ofForm f) c).headers system ↔
      x ∈ i.headers system ∨ Provides o f c x system := by
  rw [addHeader]
  cases hh : header? c with
  | some header =>
    rw [mem_insert]
    refine or_congr_right ⟨?_, ?_⟩
    · rintro ⟨-, rfl, rfl⟩
      exact .toolkit hh
    · intro hprovides
      cases hprovides with
      | toolkit hx => exact ⟨header?_ne_empty hh, Option.some.inj (hx.symm.trans hh), rfl⟩
      | declared hnone => exact absurd (hh.symm.trans hnone) (by simp)
      | guessed hnone => exact absurd (hh.symm.trans hnone) (by simp)
  | none =>
    rw [Custom.find?_ofForm]
    cases hn : Custom.declaration? (Custom.declarations f) c with
    | some n =>
      have hiff : Provides o f c x system ↔ headerPath n ≠ "" ∧ x = headerPath n ∧
          system = isSystem ((n.child? "header").bind (·.stringAttribute? "location")) := by
        constructor
        · intro hprovides
          cases hprovides with
          | toolkit hx => exact absurd (hh.symm.trans hx) (by simp)
          | declared hnone hm hpath =>
            cases hn.symm.trans hm
            exact ⟨hpath, rfl, rfl⟩
          | guessed _ hm => exact absurd (hn.symm.trans hm) (by simp)
        · rintro ⟨hpath, rfl, rfl⟩
          exact .declared hh hn hpath
      by_cases hpath : headerPath n = ""
      · have hempty : (headerPath n).isEmpty = true := by rw [hpath]; rfl
        simp only [headerPath] at hempty
        simp [hempty, hiff, hpath, note, headers]
      · have hempty : ¬(headerPath n).isEmpty = true := fun h => hpath (String.isEmpty_iff.mp h)
        simp only [headerPath] at hempty
        simp only [hempty, Bool.false_eq_true, if_false]
        rw [mem_insert, hiff]
        rfl
    | none =>
      have hiff : Provides o f c x system ↔
          o.implicitIncludes = true ∧ x = guess c ∧ system = true := by
        constructor
        · intro hprovides
          cases hprovides with
          | toolkit hx => exact absurd (hh.symm.trans hx) (by simp)
          | declared _ hm => exact absurd (hn.symm.trans hm) (by simp)
          | guessed _ _ ho => exact ⟨ho, rfl, rfl⟩
        · rintro ⟨ho, rfl, rfl⟩
          exact .guessed hh hn ho
      rw [hiff]
      dsimp only
      split
      · rename_i ho
        rw [mem_insert]
        simp [ho, guess_ne_empty, note, headers]
      · rename_i ho
        simp [ho]

/-! ## The classes that come with a class -/

/-- What comes with a class: a tool box brings layouts, unless there was one. -/
def Brings (t : Custom) (laidOut : Bool) (c x : String) : Prop :=
  x = c ∨ x = "QLayout" ∧ laidOut = false ∧ t.derives c "QToolBox" = true

/-- All that comes with the classes that were met is there. -/
structure Settled (t : Custom) (i : Includes) : Prop where
  frame : "Line" ∈ i.known → "QFrame" ∈ i.known
  layout : ∀ c ∈ i.known, ∀ x, Brings t i.laidOut c x → x ∈ i.known

/-- The headers are those of the classes that were met, save the line, and others that `P` gives. -/
structure Complete (o : Options) (f : Form) (P : String → Bool → Prop) (i : Includes) : Prop where
  ordered : ∀ system, (i.headers system).Pairwise (· < ·)
  mem_headers : ∀ h system, h ∈ i.headers system ↔
    (∃ c ∈ i.known, c ≠ "Line" ∧ Provides o f c h system) ∨ P h system

variable {t : Custom} {P : String → Bool → Prop}

@[simp]
theorem mem_known_addAlone (i : Includes) (o : Options) (t : Custom) (c x : String) :
    x ∈ (i.addAlone o t c).known ↔ x = c ∨ x ∈ i.known := by
  unfold addAlone
  split
  · rename_i hc
    simp only [List.contains_iff_mem] at hc
    constructor
    · exact .inr
    · rintro (rfl | hx)
      · exact hc
      · exact hx
  · simp

@[simp]
theorem addAlone_laidOut (i : Includes) (o : Options) (t : Custom) (c : String) :
    (i.addAlone o t c).laidOut = i.laidOut := by
  unfold addAlone
  split <;> simp

theorem Complete.addAlone (hi : i.Complete o f P) (hc : c ≠ "Line") :
    (i.addAlone o (Custom.ofForm f) c).Complete o f P := by
  rw [Includes.addAlone]
  split
  · exact hi
  · refine ⟨ordered_addHeader _ _ _ hi.ordered, fun h system => ?_⟩
    rw [mem_addHeader, addHeader_known]
    have hmem := hi.mem_headers h system
    simp only [headers] at hmem ⊢
    rw [hmem]
    simp only [List.mem_cons, exists_eq_or_imp, ne_eq, hc, not_false_eq_true, true_and]
    rw [or_right_comm, or_comm (a := ∃ _, _)]

@[simp]
theorem addLayoutOf_laidOut (i : Includes) (o : Options) (t : Custom) (c : String) :
    (i.addLayoutOf o t c).laidOut = i.laidOut := by
  unfold addLayoutOf
  split <;> simp

theorem mem_known_addLayoutOf (i : Includes) (o : Options) (t : Custom) (c x : String) :
    x ∈ (i.addLayoutOf o t c).known ↔ x ∈ i.known ∨
      x = "QLayout" ∧ i.laidOut = false ∧ t.derives c "QToolBox" = true := by
  unfold addLayoutOf
  split
  · rename_i h
    simp only [Bool.and_eq_true, Bool.not_eq_true'] at h
    simp [h, or_comm]
  · rename_i h
    simp only [Bool.and_eq_true, Bool.not_eq_true'] at h
    simp [h]

theorem Complete.addLayoutOf (hi : i.Complete o f P) (c : String) :
    (i.addLayoutOf o (Custom.ofForm f) c).Complete o f P := by
  rw [Includes.addLayoutOf]
  split
  · exact hi.addAlone (by decide)
  · exact hi

/-- The classes that a name stands for. -/
def StandsFor (c d : String) : Prop := d = c ∨ c = "Line" ∧ d = "QFrame"

/-- A class that is met adds what comes with it.  If it was met before, all that is there. -/
theorem mem_known_addClass (hi : i.Settled t) (o : Options) (c x : String) :
    x ∈ (i.addClass o t c).known ↔ x ∈ i.known ∨
      c ≠ "" ∧ ∃ d, StandsFor c d ∧ Brings t i.laidOut d x := by
  unfold addClass
  split
  · rename_i h
    simp only [Bool.or_eq_true, String.isEmpty_iff, List.contains_iff_mem] at h
    refine ⟨.inl, ?_⟩
    rintro (hx | ⟨hne, d, hd, hx⟩)
    · exact hx
    · have hc := h.resolve_left hne
      refine hi.layout d ?_ x hx
      rcases hd with rfl | ⟨rfl, rfl⟩
      · exact hc
      · exact hi.frame hc
  · rename_i h
    simp only [Bool.or_eq_true, String.isEmpty_iff, List.contains_iff_mem, not_or] at h
    split
    · rename_i hline
      subst hline
      simp only [mem_known_addAlone, mem_known_addLayoutOf, List.mem_cons, addLayoutOf_laidOut,
        Brings, StandsFor]
      simp
      tauto
    · rename_i hline
      simp only [mem_known_addAlone, mem_known_addLayoutOf, Brings, StandsFor]
      simp [h.1, hline]
      tauto

@[simp]
theorem addClass_laidOut (i : Includes) (o : Options) (t : Custom) (c : String) :
    (i.addClass o t c).laidOut = i.laidOut := by
  unfold addClass
  split
  · rfl
  · split <;> simp

theorem Complete.addClass (hi : i.Complete o f P) (c : String) :
    (i.addClass o (Custom.ofForm f) c).Complete o f P := by
  have hlayout := hi.addLayoutOf c
  unfold Includes.addClass
  split
  · exact hi
  · split
    · -- The line itself is noted without a header.
      have hline : Complete o f P { i.addLayoutOf o (Custom.ofForm f) c with
          known := "Line" :: (i.addLayoutOf o (Custom.ofForm f) c).known } :=
        ⟨hlayout.ordered, fun h system => by
          simpa [headers] using hlayout.mem_headers h system⟩
      exact (hline.addLayoutOf "QFrame").addAlone (by decide)
    · rename_i hline
      exact hlayout.addAlone hline

theorem Settled.addClass (hi : i.Settled t) (o : Options) (c : String) :
    (i.addClass o t c).Settled t := by
  refine ⟨?_, ?_⟩
  · simp only [mem_known_addClass hi]
    rintro (hline | ⟨hne, d, hd, rfl | ⟨h, -⟩⟩)
    · exact .inl (hi.frame hline)
    · rcases hd with rfl | ⟨-, h⟩
      · exact .inr ⟨hne, "QFrame", .inr ⟨rfl, rfl⟩, .inl rfl⟩
      · exact absurd h (by decide)
    · exact absurd h (by decide)
  · intro y hy x hx
    rw [addClass_laidOut] at hx
    rw [mem_known_addClass hi] at hy ⊢
    rcases hy with hy | ⟨hne, d, hd, rfl | ⟨rfl, hbox⟩⟩
    · exact .inl (hi.layout y hy x hx)
    · exact .inr ⟨hne, y, hd, hx⟩
    · -- What a layout brings is a layout again.
      have hxl : x = "QLayout" := hx.elim id And.left
      exact .inr ⟨hne, d, hd, .inr ⟨hxl, hbox⟩⟩

/-! ## Collecting the classes -/

theorem foldl_addClass (o : Options) (l : List String) (hi : i.Settled (Custom.ofForm f))
    (hc : i.Complete o f P) :
    let j := l.foldl (fun i c => i.addClass o (Custom.ofForm f) c) i
    j.Complete o f P ∧ ∀ x, x ∈ j.known ↔ x ∈ i.known ∨
      ∃ c ∈ l, c ≠ "" ∧ ∃ d, StandsFor c d ∧ Brings (Custom.ofForm f) i.laidOut d x := by
  induction l generalizing i with
  | nil => exact ⟨hc, by simp⟩
  | cons c l ih =>
    obtain ⟨hcomplete, hknown⟩ := ih (hi.addClass o c) (hc.addClass c)
    refine ⟨hcomplete, fun x => ?_⟩
    rw [List.foldl_cons, hknown, mem_known_addClass hi, addClass_laidOut, or_assoc,
      List.exists_mem_cons_iff]

end Includes

theorem names_iff (n : Node) (c : String) : Names n c ↔ classOf? n = some c := by
  unfold Names classOf?
  cases n.kind with
  | property =>
    cases n.payload? with
    | none => simp
    | some value =>
      simp only [Option.map_some, reduceCtorEq, false_or, false_and, List.mem_cons, Prod.mk.injEq,
        List.not_mem_nil, or_false, true_and, Option.some.injEq, exists_eq_left']
      generalize value.tag = tag
      split <;> simp_all [eq_comm]
  | _ => simp [eq_comm]

theorem asks_iff (n : Node) (d : String) :
    Asks n d ↔ ∃ c, classOf? n = some c ∧ c ≠ "" ∧ Includes.StandsFor c d := by
  simp only [Asks, names_iff, Includes.StandsFor]

theorem requests_iff (n : Node) (h : String) (system : Bool) :
    Requests n h system ↔ n.kind = .includeFile ∧ isForDeclaration n = true ∧
      Text.trim n.text ≠ "" ∧ h = Text.trim n.text ∧
      system = isSystem (n.stringAttribute? "location") := by
  simp only [Requests, isForDeclaration, Bool.or_eq_true, String.isEmpty_iff, beq_iff_eq]
  constructor
  · rintro ⟨hkind, hplace, rfl, hne, hsystem⟩
    exact ⟨hkind, hplace, hne, rfl, hsystem⟩
  · rintro ⟨hkind, hplace, hne, rfl, hsystem⟩
    exact ⟨hkind, hplace, rfl, hne, hsystem⟩

/-! ## Collecting what nodes need -/

namespace Includes

variable {i : Includes} {o : Options} {f : Form} {P : String → Bool → Prop}

theorem Settled.layout_met {t : Custom} (hi : i.Settled t) (laidOut : Bool)
    (h : laidOut = false → i.laidOut = false) : Settled t { i with laidOut := laidOut } := by
  refine ⟨hi.frame, fun c hc x hx => hi.layout c hc x (hx.imp_right ?_)⟩
  rintro ⟨hxl, hnone, hbox⟩
  exact ⟨hxl, h hnone, hbox⟩

theorem Complete.insert (hc : i.Complete o f P) (header : String) (isGlobal : Bool) :
    (i.insert header isGlobal).Complete o f fun h system =>
      P h system ∨ header ≠ "" ∧ h = header ∧ system = isGlobal := by
  refine ⟨ordered_insert header isGlobal hc.ordered, fun h system => ?_⟩
  rw [mem_insert, hc.mem_headers, insert_known, or_assoc]

theorem Complete.congr {Q : String → Bool → Prop} (hc : i.Complete o f P)
    (h : ∀ header system, P header system ↔ Q header system) : i.Complete o f Q :=
  ⟨hc.ordered, fun header system => by rw [hc.mem_headers, h]⟩

theorem addNode_request {n : Node} (hkind : n.kind = .includeFile) (o : Options) (t : Custom) :
    addNode o t i n = if isForDeclaration n then
      i.insert (Text.trim n.text) (isSystem (n.stringAttribute? "location")) else i := by
  simp only [addNode, hkind]
  rfl

theorem addNode_other {n : Node} (hkind : n.kind ≠ .includeFile) (o : Options) (t : Custom) :
    addNode o t i n = { (classOf? n).elim i (i.addClass o t ·) with
      laidOut := i.laidOut || n.kind == .layout } := by
  unfold addNode
  split
  · rename_i h
    exact absurd h hkind
  · cases classOf? n <;> simp

/-- One node adds the classes that it asks for with what comes with them, and the header that it
requests. -/
theorem addNode_spec (n : Node) (hi : i.Settled (Custom.ofForm f)) (hc : i.Complete o f P) :
    let j := addNode o (Custom.ofForm f) i n
    j.Settled (Custom.ofForm f) ∧
      j.Complete o f (fun h system => P h system ∨ Requests n h system) ∧
      j.laidOut = (i.laidOut || n.kind == .layout) ∧
      ∀ x, x ∈ j.known ↔ x ∈ i.known ∨
        ∃ d, Asks n d ∧ Brings (Custom.ofForm f) i.laidOut d x := by
  intro j
  by_cases hkind : n.kind = .includeFile
  · have hj := @addNode_request i n hkind o (Custom.ofForm f)
    have hknown : j.known = i.known := by simp only [j, hj]; split <;> simp
    have hlaidOut : j.laidOut = i.laidOut := by simp only [j, hj]; split <;> simp
    have hclass : classOf? n = none := by simp [classOf?, hkind]
    refine ⟨⟨by rw [hknown]; exact hi.frame, by rw [hknown, hlaidOut]; exact hi.layout⟩, ?_,
      by simp [hlaidOut, hkind], fun x => by simp [hknown, asks_iff, hclass]⟩
    simp only [j, hj]
    split
    · rename_i hplace
      exact (hc.insert _ _).congr fun header system => by simp [requests_iff, hkind, hplace]
    · rename_i hplace
      exact hc.congr fun header system => by simp [requests_iff, hplace]
  · have hrequest (h : String) (system : Bool) : P h system ↔ P h system ∨ Requests n h system := by
      simp [requests_iff, hkind]
    have hj := @addNode_other i n hkind o (Custom.ofForm f)
    cases hclass : classOf? n with
    | some c =>
      rw [hclass, Option.elim_some] at hj
      rw [show j = _ from hj]
      refine ⟨(hi.addClass o c).layout_met _ fun h => ?_, ?_, rfl, fun x => ?_⟩
      · rw [addClass_laidOut]
        exact (Bool.or_eq_false_iff.mp h).1
      · have hcomplete := (hc.addClass c).congr hrequest
        exact ⟨hcomplete.ordered, hcomplete.mem_headers⟩
      · rw [mem_known_addClass hi]
        simp only [asks_iff, hclass, Option.some.injEq, exists_eq_left', and_assoc, exists_and_left]
    | none =>
      rw [hclass, Option.elim_none] at hj
      rw [show j = _ from hj]
      have hcomplete := hc.congr hrequest
      exact ⟨hi.layout_met _ fun h => (Bool.or_eq_false_iff.mp h).1,
        ⟨hcomplete.ordered, hcomplete.mem_headers⟩, rfl, fun x => by simp [asks_iff, hclass]⟩

/-- A node of a list brings a class, where layouts before it in the list count. -/
def BroughtBy (t : Custom) (laidOut : Bool) (l : List Node) (x : String) : Prop :=
  ∃ pre n post, l = pre ++ n :: post ∧
    ∃ d, Asks n d ∧ Brings t (laidOut || pre.any (·.kind == .layout)) d x

theorem broughtBy_cons (t : Custom) (laidOut : Bool) (n : Node) (l : List Node) (x : String) :
    BroughtBy t laidOut (n :: l) x ↔ (∃ d, Asks n d ∧ Brings t laidOut d x) ∨
      BroughtBy t (laidOut || n.kind == .layout) l x := by
  constructor
  · rintro ⟨pre, m, post, hl, d, hd, hx⟩
    cases pre with
    | nil =>
      obtain ⟨rfl, -⟩ := List.cons.inj hl
      exact .inl ⟨d, hd, by simpa using hx⟩
    | cons p pre =>
      obtain ⟨rfl, rfl⟩ := List.cons.inj hl
      exact .inr ⟨pre, m, post, rfl, d, hd, by simpa [Bool.or_assoc] using hx⟩
  · rintro (⟨d, hd, hx⟩ | ⟨pre, m, post, rfl, d, hd, hx⟩)
    · exact ⟨[], n, l, rfl, d, hd, by simpa using hx⟩
    · exact ⟨n :: pre, m, post, rfl, d, hd, by simpa [Bool.or_assoc] using hx⟩

theorem foldl_addNode (l : List Node) (hi : i.Settled (Custom.ofForm f))
    (hc : i.Complete o f P) :
    let j := l.foldl (addNode o (Custom.ofForm f)) i
    j.Settled (Custom.ofForm f) ∧
      j.Complete o f (fun h system => P h system ∨ ∃ n ∈ l, Requests n h system) ∧
      j.laidOut = (i.laidOut || l.any (·.kind == .layout)) ∧
      ∀ x, x ∈ j.known ↔ x ∈ i.known ∨ BroughtBy (Custom.ofForm f) i.laidOut l x := by
  induction l generalizing i P with
  | nil =>
    refine ⟨hi, hc.congr (by simp), by simp, fun x => ?_⟩
    simp [BroughtBy]
  | cons n l ih =>
    obtain ⟨hsettled, hcomplete, hlaidOut, hknown⟩ := addNode_spec n hi hc
    obtain ⟨hsettled', hcomplete', hlaidOut', hknown'⟩ := ih hsettled hcomplete
    refine ⟨hsettled', hcomplete'.congr fun h system => ?_, ?_, fun x => ?_⟩
    · rw [List.exists_mem_cons_iff, or_assoc]
    · rw [List.foldl_cons, hlaidOut', hlaidOut, List.any_cons, Bool.or_assoc]
    · rw [List.foldl_cons, hknown', hknown, hlaidOut, broughtBy_cons, or_assoc]

end Includes

/-! ## The classes of a form -/

/-- A common class brings a class after the walk over a form. -/
def BroughtLast (f : Form) (x : String) : Prop :=
  ∃ c ∈ commonClasses, c ≠ "" ∧ ∃ d, Includes.StandsFor c d ∧
    Includes.Brings (Custom.ofForm f) ((walked f).any (·.kind == .layout)) d x

theorem includesOf_spec (o : Options) (f : Form) :
    (includesOf o f).Complete o f (fun h system => ∃ n ∈ walked f, Requests n h system) ∧
      ∀ x, x ∈ (includesOf o f).known ↔
        Includes.BroughtBy (Custom.ofForm f) false (walked f) x ∨ BroughtLast f x := by
  have hempty : Includes.Settled (Custom.ofForm f) {} := ⟨by simp, by simp⟩
  have hnone : Includes.Complete o f (fun _ _ => False) {} :=
    ⟨fun system => by cases system <;> simp [Includes.headers], fun h system => by
      cases system <;> simp [Includes.headers]⟩
  obtain ⟨hsettled, hcomplete, hlaidOut, hknown⟩ :=
    Includes.foldl_addNode (walked f) hempty hnone
  obtain ⟨hcomplete', hknown'⟩ := Includes.foldl_addClass o commonClasses hsettled hcomplete
  refine ⟨hcomplete'.congr fun h system => by simp, fun x => (hknown' x).trans ?_⟩
  simp only [hknown x, hlaidOut, Bool.false_or, List.not_mem_nil, false_or, BroughtLast]

theorem needed_iff (f : Form) (x : String) :
    Needed f x ↔
      Includes.BroughtBy (Custom.ofForm f) false (walked f) x ∨ BroughtLast f x := by
  constructor
  · intro h
    induction h with
    | asked hn hc =>
      obtain ⟨pre, post, hl⟩ := List.append_of_mem hn
      exact .inl ⟨pre, _, post, hl, _, hc, .inl rfl⟩
    | @common c hc =>
      have hne : ∀ c ∈ commonClasses, c ≠ "" := by decide
      exact .inr ⟨c, hc, hne c hc, c, .inl rfl, .inl rfl⟩
    | early hn hc hbox =>
      obtain ⟨pre, post, hl, hnone⟩ := hn
      have hany : pre.any (·.kind == .layout) = false := by simpa using hnone
      exact .inl ⟨pre, _, post, hl, _, hc, .inr ⟨rfl, hany, Custom.derives_iff.mpr hbox⟩⟩
    | unplaced hnone _ hbox ih =>
      have hbox := Custom.derives_iff.mpr hbox
      rcases ih with ⟨pre, n, post, hl, d, hd, rfl | ⟨rfl, hlayout⟩⟩ |
        ⟨c, hc, hne, d, hd, rfl | ⟨rfl, hlayout⟩⟩
      · have hany : pre.any (·.kind == .layout) = false := by
          rw [List.any_eq_false]
          intro m hm
          simpa using hnone m (by rw [hl]; simp [hm])
        exact .inl ⟨pre, n, post, hl, _, hd, .inr ⟨rfl, hany, hbox⟩⟩
      · exact .inl ⟨pre, n, post, hl, d, hd, .inr ⟨rfl, hlayout⟩⟩
      · have hany : (walked f).any (·.kind == .layout) = false := by simpa using hnone
        exact .inr ⟨c, hc, hne, _, hd, .inr ⟨rfl, hany, hbox⟩⟩
      · exact .inr ⟨c, hc, hne, d, hd, .inr ⟨rfl, hlayout⟩⟩
  · rintro (⟨pre, n, post, hl, d, hd, rfl | ⟨rfl, hany, hbox⟩⟩ |
      ⟨c, hc, -, d, hd, hx⟩)
    · exact .asked (by rw [hl]; simp) hd
    · refine .early ⟨pre, post, hl, ?_⟩ hd (Custom.derives_iff.mp hbox)
      simpa using hany
    · have hline : "Line" ∉ commonClasses := by decide
      have hdc : d = c := hd.resolve_right fun h => hline (h.1 ▸ hc)
      subst hdc
      rcases hx with rfl | ⟨rfl, hany, hbox⟩
      · exact .common hc
      · exact .unplaced (by simpa using hany) (.common hc) (Custom.derives_iff.mp hbox)

/-! ## Main result -/

/-- The included headers are exactly those that a form needs, for all options.  Only the class
`Line` does not count, as it stands for a frame. -/
theorem includes_exactly (o : Options) (f : Form) (s : Session) :
    Lists ["Line"] o f ((includesText o f).run s).1 := by
  obtain ⟨hcomplete, hknown⟩ := includesOf_spec o f
  have hmem (h : String) (system : Bool) : h ∈ (includesOf o f).headers system ↔
      Included ["Line"] o f h system := by
    simp only [hcomplete.mem_headers, Included, hknown, ← needed_iff, List.mem_singleton]
  exact ⟨(includesOf o f).globals, (includesOf o f).locals, rfl, hcomplete.ordered true,
    hcomplete.ordered false, (hmem · true), (hmem · false)⟩

/-- A declaration of the class of lines. -/
def ruler : Node :=
  .mk .customWidget []
    [.value "class" (.string "Line"), .value "extends" (.string "QFrame"),
      .node "header" (.mk .header [("location", .string "global")] [] "lines.h")] ""

/-- A form with a line, which declares the class of lines. -/
def ruled : Form :=
  ⟨.mk .ui []
    [.node "widget" (.mk .widget [("class", .string "QWidget"), ("name", .string "Form")]
      [.node "widget" (.mk .widget [("class", .string "Line"), ("name", .string "rule")] [] "")]
      ""),
      .node "customwidgets" (.mk .customWidgets [] [.node "customwidget" ruler] "")]
    ""⟩

/-- If the class `Line` counted, then the header that is declared for it would be needed; but it is
not included. -/
theorem line_header_omitted : ¬Lists [] {} ruled ((includesText {} ruled).run {}).1 := by
  rintro ⟨globals, locals, htext, -, -, hglobals, -⟩
  have hline : ∃ n ∈ walked ruled, classOf? n = some "Line" := by decide +kernel
  obtain ⟨n, hn, hclass⟩ := hline
  have hneeded : Needed ruled "Line" :=
    .asked hn ((asks_iff n "Line").mpr ⟨"Line", hclass, by decide, .inl rfl⟩)
  have hruler : Custom.declaration? (Custom.declarations ruled) "Line" = some ruler := rfl
  have hpath : headerPath ruler = "lines.h" := by decide +kernel
  have hsystem :
      isSystem ((ruler.child? "header").bind (·.stringAttribute? "location")) = true := by
    decide +kernel
  have hprovides : Provides {} ruled "Line" (headerPath ruler) _ :=
    .declared (by decide +kernel) hruler (by rw [hpath]; decide)
  rw [hpath, hsystem] at hprovides
  have hmem := (hglobals "lines.h").mpr (.inl ⟨"Line", hneeded, by simp, hprovides⟩)
  have hoccurs : Occurs "#include <lines.h>\n" ((includesText {} ruled).run {}).1 := by
    rw [htext]
    refine .before (.before (.join (.refl _) ?_) _) _
    exact List.mem_map.mpr ⟨"lines.h", hmem, rfl⟩
  revert hoccurs
  unfold Occurs
  decide +kernel

end FormCompiler.Header
