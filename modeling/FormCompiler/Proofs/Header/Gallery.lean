import FormCompiler.Proofs.Header.Page
import FormCompiler.Proofs.Setup.Pictures

/-!
# The images that a header holds

Enumerators, arrays and cases are each cleared of repeated names in a way of their own: against the
images that the table knows, after that table has grown, and without the table.  With a table that
knows no image all three come out as the first image of every name, in the order of the form.
-/

namespace FormCompiler

open Code Document Naming

/-! ## Before the images are declared -/

theorem quiet_naming (document : Nat) (f : Form) (root : Visit) :
    Quiet (Header.naming document f root) := by
  have hmember : ∀ v, Quiet (Header.member? document v) := by
    intro v
    unfold Header.member?
    split
    · exact .pure _
    · exact .bind (.nameOfVisit document v) fun _ => .pure _
  refine .bind (.nameOfVisit document root) fun _ => .bind (.filterMapM _ hmember) fun _ => ?_
  exact .bind (.bind (.mapM _ .nameOfGroup) fun _ => .pure _) fun _ => .pure _

theorem quiet_includesText (o : Options) (f : Form) : Quiet (includesText o f) :=
  .bind (.forM _ fun _ => .note _) fun _ => .pure _

namespace Header

theorem pixmaps_functions (o : Options) (document : Nat) (f : Form) (root : Visit) (s : Session) :
    (Setup.functions o document f root (naming document f root s).2).2.table.pixmaps =
      s.table.pixmaps :=
  (Setup.functions_pictured o document f root _).1.trans
    ((quiet_naming document f root).pixmaps s)

/-! ## First images -/

/-- The names of images that are not empty, in the order in which they first occur. -/
def distinctNames (images : List Image) : List String :=
  ((images.map Image.name).filter (· ≠ "")).eraseDups

theorem firstOfName_cons (i : Image) (images : List Image) :
    firstOfName (i :: images) =
      i :: firstOfName (images.filter fun j => decide ((j.name == i.name) = false)) :=
  List.eraseDupsBy_cons

theorem names_firstOfName (images : List Image) :
    (firstOfName images).map Image.name = (images.map Image.name).eraseDups := by
  match images with
  | [] => rfl
  | i :: images =>
    rw [firstOfName_cons, List.map_cons, List.map_cons, List.eraseDups_cons,
      names_firstOfName (images.filter _), List.filter_map]
    congr 3
    refine List.filter_congr fun j _ => ?_
    cases h : j.name == i.name <;> simp [h]
termination_by images.length
decreasing_by exact Nat.lt_succ_of_le (List.length_filter_le _ _)

/-- A name is looked up among the images of a class of names as among all, if it belongs there. -/
theorem find_of_class (p : String → Bool) {name : String} (hname : p name = true)
    (images : List Image) :
    (images.filter fun i => p i.name).find? (·.name == name) = images.find? (·.name == name) := by
  rw [List.find?_filter]
  congr 1
  funext i
  by_cases hi : i.name = name
  · simp [hi, hname]
  · simp [hi]

/-- Among images of a name, the first of all is kept. -/
theorem find_firstOfName (images : List Image) (i : Image) (hi : i ∈ firstOfName images) :
    images.find? (·.name == i.name) = some i := by
  match images with
  | [] => cases hi
  | j :: images =>
    rw [firstOfName_cons] at hi
    rcases List.mem_cons.mp hi with rfl | hi
    · exact List.find?_cons_of_pos (beq_self_eq_true _)
    · have hfound := find_firstOfName _ i hi
      have hother := (List.mem_filter.mp (List.mem_of_find?_eq_some hfound)).2
      have hne : ¬(j.name == i.name) = true := by
        rw [BEq.comm, of_decide_eq_true hother]
        exact Bool.false_ne_true
      rw [find_of_class (fun n => decide ((n == j.name) = false)) hother] at hfound
      rw [List.find?_cons_of_neg (by exact hne), hfound]
termination_by images.length
decreasing_by exact Nat.lt_succ_of_le (List.length_filter_le _ _)

/-! ## Declaring images -/

theorem insertPixmap_new {t : Table} {name : String} (h : t.containsPixmap name = false) :
    (t.insertPixmap name).pixmaps = name :: t.pixmaps := by
  unfold Table.containsPixmap at h
  rw [Table.insertPixmap, if_neg (by rw [h]; exact Bool.false_ne_true)]

theorem declareImages_names (images : List Image) (t : Table) :
    (declareImages images t).1 =
      ((images.map Image.name).filter fun n => n ≠ "" ∧ n ∉ t.pixmaps).eraseDups := by
  fun_induction declareImages images t with
  | case1 t => rfl
  | case2 i rest t h ih =>
    rw [ih, List.map_cons, List.filter_cons_of_neg]
    simp only [Table.containsPixmap, Bool.or_eq_true, String.isEmpty_iff,
      List.contains_iff_mem] at h
    rw [decide_eq_true_eq]
    exact fun hnew => h.elim hnew.1 hnew.2
  | case3 i rest t h names t' heq ih =>
    simp only [Bool.or_eq_true, not_or, Bool.not_eq_true] at h
    rw [heq, insertPixmap_new h.2] at ih
    have hnew : i.name ≠ "" ∧ i.name ∉ t.pixmaps := by
      simpa [Table.containsPixmap] using h
    rw [List.map_cons, List.filter_cons_of_pos (by exact decide_eq_true hnew),
      List.eraseDups_cons, List.filter_filter]
    refine congrArg (i.name :: ·) (ih.trans (congrArg List.eraseDups ?_))
    refine List.filter_congr fun n _ => ?_
    grind

theorem declareImages_pixmaps (images : List Image) (t : Table) (n : String) :
    n ∈ (declareImages images t).2.pixmaps ↔ n ∈ t.pixmaps ∨ n ∈ (declareImages images t).1 := by
  fun_induction declareImages images t with
  | case1 t => simp
  | case2 i rest t h ih => exact ih
  | case3 i rest t h names t' heq ih =>
    simp only [Bool.or_eq_true, not_or, Bool.not_eq_true] at h
    rw [heq, insertPixmap_new h.2, List.mem_cons] at ih
    rw [ih, List.mem_cons]
    grind

/-! ## Galleries -/

theorem mem_distinctNames {images : List Image} {i : Image} (hi : i ∈ images) :
    i.name ∈ distinctNames images ↔ i.name ≠ "" := by
  rw [distinctNames, List.mem_eraseDups, List.mem_filter, decide_eq_true_eq]
  exact and_iff_right (List.mem_map_of_mem hi)

theorem names_namedImages (images : List Image) :
    (namedImages images).map Image.name = distinctNames images := by
  rw [namedImages, names_firstOfName, distinctNames, List.filter_map]
  congr 2
  refine List.filter_congr fun i _ => ?_
  rw [Bool.eq_iff_iff]
  simp

theorem find_namedImages {images : List Image} {i : Image} (hi : i ∈ namedImages images) :
    images.find? (·.name == i.name) = some i := by
  have hfound := find_firstOfName _ i hi
  have hnamed := (List.mem_filter.mp (List.mem_of_find?_eq_some hfound)).2
  rwa [find_of_class (fun n => !n.isEmpty) hnamed] at hfound

theorem gallery_fresh (images : List Image) {s : Session} (hs : s.table.pixmaps = []) :
    (gallery images s).1 = ⟨distinctNames images, namedImages images, namedImages images⟩ := by
  have hnames : (declareImages images s.table).1 = distinctNames images := by
    rw [declareImages_names, hs, distinctNames]
    congr 2
    funext n
    simp
  have hdeclared : declaredImages (declareImages images s.table).2 images = namedImages images := by
    unfold declaredImages namedImages
    congr 1
    refine List.filter_congr fun i hi => ?_
    have hiff := declareImages_pixmaps images s.table i.name
    rw [hs, hnames, mem_distinctNames hi] at hiff
    rw [Bool.eq_iff_iff, Table.containsPixmap, List.contains_iff_mem, hiff]
    simp
  change Gallery.mk _ _ _ = _
  rw [hnames, hdeclared]

theorem declaration_gallery {o : Options} {f : Form} {images : List Image} (document : Nat)
    (root : Visit) (s : Session) (himages : f.images? = some images)
    (hextract : o.extractImages = false) :
    (declaration o document f root s).1.gallery =
      some (gallery images
        (Setup.functions o document f root (naming document f root s).2).2).1 := by
  simp only [declaration, himages, hextract, Bool.false_eq_true, if_false]
  rfl

theorem compiled_gallery {o : Options} {f : Form} {images : List Image} {s : Session}
    (document : Nat) (root : Visit) (himages : f.images? = some images)
    (hextract : o.extractImages = false) (hs : s.table.pixmaps = []) :
    (declaration o document f root (includesText o f s).2).1.gallery =
      some ⟨distinctNames images, namedImages images, namedImages images⟩ := by
  have hfresh : (Setup.functions o document f root
      (naming document f root (includesText o f s).2).2).2.table.pixmaps = [] := by
    rw [pixmaps_functions, ← hs]
    exact (quiet_includesText o f).pixmaps s
  rw [declaration_gallery document root _ himages hextract, gallery_fresh images hfresh]

/-! ## Texts -/

theorem Declaration.render_gallery (o : Options) (style : Style) {d : Declaration} {g : Gallery}
    (hg : d.gallery = some g) : Occurs (g.render o.indent) (d.render o style) := by
  have hclass : Occurs (g.render o.indent) (d.classText o style) := by
    unfold Declaration.classText
    rw [hg]
    exact ((Occurs.refl _).after _).before _
  exact ((((hclass.after _).before _).before _).before _).before _

/-- The lines that open the array of an image. -/
def arrayOpening (indent : String) (i : Image) : String :=
  if i.isSourceText then
    indent ++ "/* XPM */\n" ++
      indent ++ "static const char* const " ++ (i.name ++ "_data") ++ "[] = \x7b \n"
  else indent ++ "static const unsigned char " ++ (i.name ++ "_data") ++ "[] =\n"

theorem imageText_opening (indent : String) (breaksRows : Bool) (i : Image) :
    ∃ contents, imageText indent breaksRows i = arrayOpening indent i ++ contents := by
  unfold imageText arrayOpening dataName
  split
  · rw [String.append_assoc, String.append_assoc]
    exact ⟨_, rfl⟩
  · rw [String.append_assoc, String.append_assoc]
    exact ⟨_, rfl⟩

theorem occurs_caseText (indent : String) (i : Image) :
    Occurs ("case " ++ (i.name ++ "_ID")) (caseText indent i) ∧
      Occurs (i.name ++ "_data") (caseText indent i) := by
  have hname := Occurs.refl (dataName i.name)
  unfold caseText
  dsimp only
  constructor
  · rw [@String.append_assoc (indent ++ indent) "case "]
    exact (((Occurs.refl _).after _).before _).before _
  · refine Occurs.after ?_ _
    split
    · exact (hname.after _).before _
    · exact (((((hname.after _).before _).before _).before _).before _).before _

/-- A gallery of the first image of every name: each has one enumerator, one array and one case, all
in the order of the names, and there is one default. -/
structure Gallery.HoldsFirst (g : Gallery) (indent : String) (images : List Image) : Prop where
  enumerators : g.enumerators = distinctNames images
  distinct : g.enumerators.Nodup
  arrays : g.arrays.map Image.name = distinctNames images
  cases : g.cases = g.arrays
  first : ∀ i ∈ g.arrays, images.find? (·.name == i.name) = some i
  array : ∀ i ∈ g.arrays, ∃ contents, imageText indent true i = arrayOpening indent i ++ contents
  label : ∀ i ∈ g.arrays, Occurs ("case " ++ (i.name ++ "_ID")) (caseText indent i) ∧
    Occurs (i.name ++ "_data") (caseText indent i)
  text : g.render indent =
    "\nprotected:\n" ++ indent ++ "enum IconID\n" ++ indent ++ "\x7b\n" ++
      String.join ((distinctNames images).map fun name =>
        indent ++ indent ++ (name ++ "_ID") ++ ",\n") ++
      indent ++ indent ++ "unknown_ID\n" ++ indent ++ "\x7d;\n" ++
      (indent ++ "static QPixmap " ++ "qt_get_icon" ++ "(IconID id)\n" ++ indent ++ "\x7b\n" ++
        String.join (g.arrays.map (imageText indent true)) ++
        indent ++ "switch (id) \x7b\n" ++ String.join (g.arrays.map (caseText indent)) ++
        indent ++ indent ++ "default: return QPixmap();\n" ++
        indent ++ "\x7d // switch\n" ++ indent ++ "\x7d // icon\n\n")

/-- Compiled from a table that knows no image, a header has the enumerators, the arrays and the
cases of the first image of every name. -/
theorem gallery_agrees {o : Options} {f : Form} {root : Visit} {images : List Image} {s : Session}
    (document : Nat) (hroot : f.rootVisit? = some root) (himages : f.images? = some images)
    (hextract : o.extractImages = false) (hs : s.table.pixmaps = []) :
    ∃ (g : Gallery) (header : String),
      (declaration o document f root (includesText o f s).2).1.gallery = some g ∧
      (headerOf o document f s).1 = .ok header ∧ Occurs (g.render o.indent) header ∧
      g.HoldsFirst o.indent images := by
  have hgallery := compiled_gallery document root himages hextract hs
  obtain ⟨header, hheader, hclass⟩ := headerOf_class o document s hroot
  have hrender := (Declaration.render_gallery o (Setup.style o f) hgallery).trans hclass
  refine ⟨_, header, hgallery, hheader, hrender, ?_⟩
  constructor
  case enumerators => rfl
  case distinct => exact eraseDups_nodup _
  case arrays => exact names_namedImages images
  case cases => rfl
  case first => exact fun i hi => find_namedImages hi
  case array => exact fun i _ => imageText_opening o.indent true i
  case label => exact fun i _ => occurs_caseText o.indent i
  case text => rfl

/-- A form with images of the same name, of an empty name and of none. -/
def illustrated : Form :=
  let image (attributes : List (String × Scalar)) (format : String) : Field :=
    .node "image" (.mk .image attributes
      [.node "data" (.mk .imageData [("format", .string format)] [] "8950")] "")
  ⟨.mk .ui []
    [.node "widget" (.mk .widget [("class", .string "QWidget"), ("name", .string "Form")] [] ""),
      .node "images" (.mk .images []
        [image [("name", .string "logo")] "PNG", image [] "PNG",
          image [("name", .string "mark")] "XPM.GZ", image [("name", .string "logo")] "GIF",
          image [("name", .string "")] "PNG", image [("name", .string "mark")] "PNG"] "")] ""⟩

theorem gallery_agrees_illustrated :
    ∃ root images, illustrated.rootVisit? = some root ∧ illustrated.images? = some images ∧
      images.map Image.name = ["logo", "", "mark", "logo", "", "mark"] ∧
      distinctNames images = ["logo", "mark"] ∧
      ∃ (g : Gallery) (header : String),
        (declaration {} 0 illustrated root (includesText {} illustrated {}).2).1.gallery = some g ∧
        (headerOf {} 0 illustrated {}).1 = .ok header ∧ Occurs (g.render "    ") header ∧
        g.HoldsFirst "    " images := by
  refine ⟨_, _, rfl, rfl, ?_, ?_, gallery_agrees 0 rfl rfl rfl rfl⟩
  · decide +kernel
  · decide +kernel

end Header

end FormCompiler
