import FormCompiler.Proofs.Files.Paths
import FormCompiler.Proofs.Header.Gallery

/-!
# Images that the code refers to

The code refers to an embedded image by its enumerator or, if images are extracted, by the path of
its file among the resources.  An enumerator is always declared.  A resource is there only if a
resource file is written, which the options may leave out although they ask for extraction; and an
image with an absolute name is written elsewhere than where the resource file looks for it.
-/

namespace FormCompiler

open Code Document Naming

namespace Files

/-! ## Recorded changes -/

/-- What can be done to files. -/
inductive Change where
  | create (path : String)
  | overwrite (path : String) (bytes : List UInt8)
  | makeDirectory (path : String)
  deriving Repr, DecidableEq

/-- Access to files at which nothing fails, with a record of what was done. -/
def recording (contents : String → List UInt8) (isDirectory : String → Bool) :
    Access (StateM (List Change)) where
  read path := return .ok (contents path)
  create path := do
    modify (· ++ [.create path])
    return .ok ()
  overwrite path bytes := do
    modify (· ++ [.overwrite path bytes])
    return .ok ()
  isDirectory path := return isDirectory path
  makeDirectory path := do
    modify (· ++ [.makeDirectory path])
    return .ok ()

/-! ## Paths of images -/

theorem length_join (directory path : String) :
    path.toList.length ≤ (join directory path).toList.length := by
  unfold join
  split
  · exact Nat.le_refl _
  · split <;> simp only [String.toList_append, List.length_append] <;> omega

theorem join_relative (directory : String) :
    ∃ front, ∀ path : String, path.startsWith "/" = false →
      join directory path = front ++ path := by
  by_cases hempty : directory = ""
  · exact ⟨"", fun path _ => by simp [join, hempty]⟩
  · by_cases hend : directory.endsWith "/" = true
    · exact ⟨directory, fun path hpath => by simp [join, *]⟩
    · exact ⟨directory ++ "/", fun path hpath => by simp [join, *]⟩

theorem images_end (text : String) : (text ++ "images").endsWith "/" = false := by
  rw [Bool.eq_false_iff, Ne, endsWith_iff, String.toList_append]
  rintro ⟨cs, hcs⟩
  have hlast := congrArg List.getLast? hcs
  simp at hlast

theorem images_start (text : String) : ("images" ++ text).startsWith "/" = false := by
  rw [String.startsWith_string_eq_false_iff, String.toList_append]
  rintro ⟨cs, hcs⟩
  cases hcs

/-- The file of an image is the one that the list of resources names, unless its name is an absolute
path. -/
theorem join_images (directory file : String) :
    join (join directory "images") file = join directory ("images/" ++ file) ↔
      file.startsWith "/" = false := by
  cases habsolute : file.startsWith "/" with
  | true =>
    refine iff_of_false (fun h => ?_) (by simp)
    rw [join, if_pos (.inl habsolute)] at h
    have hlength := length_join directory ("images/" ++ file)
    rw [← h, String.toList_append, List.length_append] at hlength
    have himages : "images/".toList.length = 7 := rfl
    omega
  | false =>
    refine iff_of_true ?_ rfl
    obtain ⟨front, hjoin⟩ := join_relative directory
    have hnonempty : front ++ "images" ≠ "" := by simp
    have hdirectory : join directory "images" = front ++ "images" := hjoin _ (images_start "")
    have hfile : join directory ("images/" ++ file) = front ++ ("images/" ++ file) :=
      hjoin _ (images_start ("/" ++ file))
    rw [hdirectory, hfile, join, if_neg (by simp [habsolute, hnonempty]),
      if_neg (by simp [images_end]), show "images/" = "images" ++ "/" from rfl]
    simp only [String.append_assoc]

end Files

open Files

/-! ## Compiling with access to files -/

section Compiling

variable {m : Type → Type} [Monad m] [LawfulMonad m] (a : Access m) (o : Options) (document : Nat)

theorem compileForm_error (f : Form) (s : Session) (e : Error)
    (h : (headerOf o document f s).1 = .error e) :
    (compileForm a o document f).run s = pure (.error e, (headerOf o document f s).2) := by
  have hrun : (headerOf o document f).run s = (.error e, (headerOf o document f s).2) :=
    Prod.ext h rfl
  rw [compileForm, StateT.run_bind, StateT.run_modifyGet, hrun, pure_bind]
  rfl

theorem compileForm_ok (f : Form) (s : Session) (header : String)
    (h : (headerOf o document f s).1 = .ok header) :
    (compileForm a o document f).run s = extractImages a o f >>= fun problems =>
      pure (.ok header, (problems.forM (report o) (headerOf o document f s).2).2) := by
  have hrun : (headerOf o document f).run s = (.ok header, (headerOf o document f s).2) :=
    Prod.ext h rfl
  rw [compileForm, StateT.run_bind, StateT.run_modifyGet, hrun, pure_bind]
  simp only [StateT.run_bind, StateT.run_lift, StateT.run_modify, StateT.run_pure, bind_assoc,
    pure_bind]
  rfl

end Compiling

theorem compileForm_header {σ : Type} (a : Access (StateM σ)) {o : Options} {document : Nat}
    {f : Form} {s s' : Session} {header : String}
    (h : headerOf o document f s = (.ok header, s')) (x : σ) :
    ((compileForm a o document f).run s).run x =
      ((.ok header, (((extractImages a o f x).1.forM (report o)).run s').2),
        (extractImages a o f x).2) := by
  rw [compileForm_ok a o document f s header (congrArg Prod.fst h), h]
  rfl

/-! ## What extraction does -/

section Recorded

variable (contents : String → List UInt8) (isDirectory : String → Bool)

def imageChanges (directory : String) (i : Image) : List Change :=
  [.create (Files.join directory i.fileName),
    .overwrite (Files.join directory i.fileName) i.fileBytes]

/-- The directory for the images of a resource file. -/
def imageDirectory (resource : String) : String := Files.join (Files.parent resource) "images"

def resourceChanges (resource className : String) (images : List Image) : List Change :=
  [.create resource] ++
    (if isDirectory (imageDirectory resource) then []
      else [.makeDirectory (imageDirectory resource)]) ++
    images.flatMap (imageChanges (imageDirectory resource)) ++
    [.overwrite resource (Text.utf8 (manifest className images))]

theorem create_recorded (path : String) (log : List Change) :
    (recording contents isDirectory).create path log = (.ok (), log ++ [.create path]) := rfl

theorem overwrite_recorded (path : String) (bytes : List UInt8) (log : List Change) :
    (recording contents isDirectory).overwrite path bytes log =
      (.ok (), log ++ [.overwrite path bytes]) := rfl

theorem writeImage_recorded (directory : String) (i : Image) (log : List Change) :
    writeImage (recording contents isDirectory) directory i log =
      ([], log ++ imageChanges directory i) := by
  rw [imageChanges, List.append_cons]
  rfl

theorem writeImage_all (directory : String) (images : List Image) (log : List Change) :
    images.mapM (writeImage (recording contents isDirectory) directory) log =
      (images.map fun _ => [], log ++ images.flatMap (imageChanges directory)) := by
  induction images generalizing log with
  | nil =>
    rw [List.flatMap_nil, List.append_nil]
    rfl
  | cons i images ih =>
    rw [List.mapM_cons, bind_run, writeImage_recorded, bind_run, ih, List.flatMap_cons,
      List.append_assoc]
    rfl

theorem ensureDirectory_recorded (path : String) (log : List Change) :
    ensureDirectory (recording contents isDirectory) path log =
      (.ok (), log ++ if isDirectory path then [] else [.makeDirectory path]) := by
  have hrun : ensureDirectory (recording contents isDirectory) path log =
      (if isDirectory path then pure (.ok ())
        else (recording contents isDirectory).makeDirectory path) log := rfl
  rw [hrun]
  cases isDirectory path with
  | true =>
    rw [if_pos rfl, if_pos rfl, List.append_nil]
    rfl
  | false =>
    rw [if_neg Bool.false_ne_true, if_neg Bool.false_ne_true]
    rfl

theorem writeImages_recorded (resource className : String) (images : List Image)
    (log : List Change) :
    writeImages (recording contents isDirectory) resource className images log =
      ([], log ++ resourceChanges isDirectory resource className images) := by
  have hnone : (images.map fun _ => ([] : List String)).flatten = [] := by simp
  unfold writeImages
  simp only [bind_run, create_recorded]
  rw [← imageDirectory, ensureDirectory_recorded]
  dsimp only
  rw [bind_run, writeImage_all, bind_run, overwrite_recorded, hnone, resourceChanges]
  simp only [List.append_assoc]
  rfl

/-- What compiling a form does to files. -/
def extraction (o : Options) (f : Form) : List Change :=
  match o.extractImages, f.images?, o.resourceFile with
  | true, some images, some file =>
    resourceChanges isDirectory file (f.className ++ o.classPostfix) images
  | _, _, _ => []

theorem extractImages_recorded (o : Options) (f : Form) (log : List Change) :
    extractImages (recording contents isDirectory) o f log =
      ([], log ++ extraction isDirectory o f) := by
  unfold extractImages extraction
  cases o.extractImages <;> cases f.images? <;> cases o.resourceFile
  case true.some.some => exact writeImages_recorded ..
  all_goals
    dsimp only
    rw [List.append_nil]
    rfl

theorem compileForm_recorded (o : Options) (document : Nat) (f : Form) {s s' : Session}
    {header : String} (h : headerOf o document f s = (.ok header, s')) :
    ((compileForm (recording contents isDirectory) o document f).run s).run [] =
      ((.ok header, s'), extraction isDirectory o f) := by
  rw [compileForm_header _ h, extractImages_recorded, List.nil_append]
  rfl

end Recorded

/-! ## References -/

theorem lookup_named (images : List Image) (text : String) :
    (images.filterMap fun i => i.name?.map (·, i.extension)).lookup text =
      (images.find? (·.name? == some text)).map Image.extension := by
  induction images with
  | nil => rfl
  | cons i images ih =>
    cases hname : i.name? with
    | none => simp [hname, ih]
    | some name =>
      by_cases htext : name = text
      · simp [hname, htext]
      · have hother : (text == name) = false := beq_false_of_ne (Ne.symm htext)
        simp [hname, htext, hother, ih, List.lookup_cons]

/-- What the code of a form refers to is the last image of a name, by a reference of the kind that
the options ask for. -/
theorem embedded_image {o : Options} {document : Nat} {f : Form} {mainForm : String}
    {r : ImageRef} (h : (Setup.Plan.ofForm o document f mainForm).Embeds r) :
    ∃ images i, f.images? = some images ∧
      images.reverse.find? (·.name? == some i.name) = some i ∧ i.name ≠ "" ∧
      r = if o.extractImages then .resource i.fileName else .stored i.name := by
  obtain ⟨text, htext, hr⟩ := h
  have hplan : (Setup.Plan.ofForm o document f mainForm).images.reverse =
      (f.images?.getD []).reverse.filterMap fun i => i.name?.map (·, i.extension) :=
    List.filterMap_reverse.symm
  obtain ⟨extension, hlookup, hr⟩ := Option.map_eq_some_iff.mp (Option.mem_toList.mp hr)
  rw [hplan, lookup_named] at hlookup
  obtain ⟨i, hfind, rfl⟩ := Option.map_eq_some_iff.mp hlookup
  have hname : i.name = text := by
    have h := List.find?_some hfind
    rw [Image.name, eq_of_beq h]
    rfl
  subst hname
  cases himages : f.images? with
  | none =>
    rw [himages] at hfind
    cases hfind
  | some images =>
    rw [himages] at hfind
    exact ⟨images, i, rfl, hfind, htext, hr.symm⟩

/-- What it takes for the path of an image among the resources to lead somewhere: a resource file
that lists the file of the image under a class, and that file.  It stands where the list says, below
the directory of the resource file, unless its name is an absolute path. -/
structure Backed (log : List Change) (resource className : String) (i : Image) : Prop where
  created : .create resource ∈ log
  listed : ∃ list, Occurs ("<file>images/" ++ i.fileName ++ "</file>") list ∧
    .overwrite resource (Text.utf8
      ("<RCC>\n    <qresource prefix=\"/" ++ className ++ "\" >\n" ++ list)) ∈ log
  written : ∃ path, [.create path, .overwrite path i.fileBytes] <:+: log ∧
    (path = Files.join (Files.parent resource) ("images/" ++ i.fileName) ↔
      i.fileName.startsWith "/" = false)

theorem occurs_manifest (className : String) {images : List Image} {i : Image} (hi : i ∈ images) :
    ∃ list, Occurs ("<file>images/" ++ i.fileName ++ "</file>") list ∧
      manifest className images =
        "<RCC>\n    <qresource prefix=\"/" ++ className ++ "\" >\n" ++ list := by
  have hline : Occurs ("<file>images/" ++ i.fileName ++ "</file>")
      ("        <file>images/" ++ i.fileName ++ "</file>\n") := by
    have hsplit : "        <file>images/" ++ i.fileName ++ "</file>\n" =
        "        " ++ ("<file>images/" ++ i.fileName ++ "</file>") ++ "\n" := by
      rw [show "        <file>images/" = "        " ++ "<file>images/" from rfl,
        show "</file>\n" = "</file>" ++ "\n" from rfl]
      simp only [String.append_assoc]
    rw [hsplit]
    exact ((Occurs.refl _).after _).before _
  have hlines := hline.join (List.mem_map_of_mem
    (f := fun i : Image => "        <file>images/" ++ i.fileName ++ "</file>\n") hi)
  exact ⟨_, hlines.before _, String.append_assoc⟩

theorem backed_resource (isDirectory : String → Bool) (resource className : String)
    {images : List Image} {i : Image} (hi : i ∈ images) :
    Backed (resourceChanges isDirectory resource className images) resource className i := by
  obtain ⟨list, hlist, hmanifest⟩ := occurs_manifest className hi
  constructor
  case created => simp [resourceChanges]
  case listed =>
    refine ⟨list, hlist, ?_⟩
    rw [← hmanifest]
    simp [resourceChanges]
  case written =>
    refine ⟨Files.join (imageDirectory resource) i.fileName, ?_, Files.join_images _ _⟩
    obtain ⟨l, r, rfl⟩ := List.append_of_mem hi
    unfold resourceChanges
    rw [List.flatMap_append, List.flatMap_cons]
    refine List.infix_append_of_infix_left (List.infix_append_of_infix_right ?_)
    exact List.infix_append_of_infix_right (List.infix_append_of_infix_left List.infix_rfl)

/-! ## Compiling -/

/-- Every image that the code of a form refers to has an enumerator, if images are compiled in.  If
they are extracted, the reference leads to a file exactly if there is a resource file to list it;
otherwise nothing at all is written. -/
theorem references_backed (o : Options) (document : Nat) {f : Form} {root : Visit} {s : Session}
    (contents : String → List UInt8) (isDirectory : String → Bool)
    (hroot : f.rootVisit? = some root) (hs : s.table.pixmaps = []) :
    let d := (Header.declaration o document f root (includesText o f s).2).1
    let run := ((compileForm (recording contents isDirectory) o document f).run s).run []
    (∃ header, run.1.1 = .ok header ∧ Occurs (d.render o (Setup.style o f)) header) ∧
      ∀ r ∈ imagesOf (d.functions.setup ++ d.functions.retranslate),
        ∃ images i, f.images? = some images ∧
          images.reverse.find? (·.name? == some i.name) = some i ∧
          (o.extractImages = false → r = .stored i.name ∧
            ∃ g, d.gallery = some g ∧ i.name ∈ g.enumerators) ∧
          (o.extractImages = true → r = .resource i.fileName ∧
            (o.resourceFile = none → run.2 = []) ∧
            ∀ resource, o.resourceFile = some resource →
              Backed run.2 resource (Setup.style o f).className i) := by
  intro d run
  obtain ⟨header, hheader, hclass⟩ := headerOf_class o document s hroot
  have hrun : run = ((.ok header, (headerOf o document f s).2), extraction isDirectory o f) :=
    compileForm_recorded contents isDirectory o document f (Prod.ext hheader rfl)
  refine ⟨⟨header, by rw [hrun], hclass⟩, fun r hr => ?_⟩
  have hfunctions := (Header.declaration_members o document f root (includesText o f s).2).2
  rw [show d.functions = _ from hfunctions] at hr
  obtain ⟨images, i, himages, hlast, hname, href⟩ :=
    embedded_image ((Setup.functions_pictured o document f root _).2 r hr)
  have hi : i ∈ images := List.mem_reverse.mp (List.mem_of_find?_eq_some hlast)
  refine ⟨images, i, himages, hlast, fun hstored => ?_, fun hextract => ?_⟩
  · rw [hstored] at href
    refine ⟨href, _, Header.compiled_gallery document root himages hstored hs, ?_⟩
    exact (Header.mem_distinctNames hi).mpr hname
  · rw [hextract] at href
    refine ⟨href, fun hnone => ?_, fun resource hresource => ?_⟩
    · rw [hrun]
      simp only [extraction, hextract, himages, hnone]
    · rw [hrun]
      simp only [extraction, hextract, himages, hresource]
      exact backed_resource isDirectory resource _ hi

/-- A form with a label that shows the second of two images of one name. -/
def labelled : Form :=
  let image (format : String) : Field := .node "image" (.mk .image [("name", .string "logo")]
    [.node "data" (.mk .imageData [("format", .string format)] [] "8950")] "")
  ⟨.mk .ui []
    [.value "class" (.string "Form"),
      .node "widget" (.mk .widget [("class", .string "QLabel"), ("name", .string "Form")]
        [.node "property" (.mk .property [("name", .string "pixmap")]
          [.node "pixmap" (.mk .resourcePixmap [] [] "logo")] "")] ""),
      .node "images" (.mk .images [] [image "GIF", image "PNG"] "")] ""⟩

/-- Without a resource file the label refers to a file that is not written; with one it is. -/
theorem references_backed_labelled :
    ∃ root, labelled.rootVisit? = some root ∧
      let unlisted : Options := { extractImages := true }
      let listed : Options := { extractImages := true, resourceFile := some "out/form.qrc" }
      let stmts (o : Options) : List Stmt :=
        let d := (Header.declaration o 0 labelled root (includesText o labelled {}).2).1
        d.functions.setup ++ d.functions.retranslate
      let log (o : Options) : List Change :=
        (((compileForm (recording (fun _ => []) fun _ => false) o 0 labelled).run {}).run []).2
      .resource "logo.png" ∈ imagesOf (stmts unlisted) ∧ log unlisted = [] ∧
        .resource "logo.png" ∈ imagesOf (stmts listed) ∧
        ∃ i, i.fileName = "logo.png" ∧ Backed (log listed) "out/form.qrc" "Form" i := by
  refine ⟨_, rfl, ?_⟩
  intro unlisted listed stmts log
  have hshown : .resource "logo.png" ∈ imagesOf (stmts unlisted) := by
    subst unlisted stmts
    decide +kernel
  have hshown' : .resource "logo.png" ∈ imagesOf (stmts listed) := by
    subst listed stmts
    decide +kernel
  obtain ⟨_, _, _, _, _, hunlisted⟩ :=
    (references_backed unlisted 0 (fun _ => []) (fun _ => false) rfl rfl).2 _ hshown
  obtain ⟨_, i, _, _, _, hlisted⟩ :=
    (references_backed listed 0 (fun _ => []) (fun _ => false) rfl rfl).2 _ hshown'
  obtain ⟨hfile, _, hbacked⟩ := hlisted rfl
  refine ⟨hshown, (hunlisted rfl).2.1 rfl, hshown', i, ?_, hbacked _ rfl⟩
  exact (ImageRef.resource.inj hfile).symm

end FormCompiler
