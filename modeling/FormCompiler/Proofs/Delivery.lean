import FormCompiler.Proofs.Extraction
import FormCompiler.Proofs.Files.Disks

/-!
# What extraction leaves on a disk

Extracted images are written to files beside a resource file that lists them.  On a disk where any
operation can fail, either a problem is recorded or every file is there: the resource file with its
list, and for every listed name the last image that has it (`Delivered`).  The header does not
depend on any of this.
-/

namespace FormCompiler

open Document Files Naming

/-! ## Single files -/

theorem Files.Disk.write_ok {d d' : Disk} {path : String} {bytes : List UInt8}
    (h : Disk.access.write path bytes d = (.ok (), d')) :
    ∃ place, d.store.writable path = .ok place ∧ d'.store = d.store.put place (.file bytes) := by
  rw [Access.write, bind_run] at h
  cases hcreate : Disk.access.create path d with
  | mk r t =>
    rw [hcreate] at h
    cases r with
    | error fault => cases h
    | ok u =>
      obtain ⟨place, hplace, ht⟩ := create_ok hcreate
      obtain ⟨place', hplace', hd'⟩ := overwrite_ok h
      have hgrows : d.store.Grows t.store := ht ▸ Store.grows_file hplace []
      obtain rfl : place' = place := hgrows.writable hplace hplace'
      have hempty : t.store.bytesAt place' = [] := by
        rw [ht, Store.bytesAt, Store.get_put _ (Store.writable_ne_root hplace), if_pos rfl]
      refine ⟨place', hplace, ?_⟩
      rw [hd', hempty, List.drop_nil, List.append_nil, ht, Store.put_put]

theorem writeImage_ok {directory : String} {i : Image} {d d' : Disk}
    (h : writeImage Disk.access directory i d = ([], d')) :
    ∃ place, d.store.writable (Files.join directory i.fileName) = .ok place ∧
      d'.store = d.store.put place (.file i.fileBytes) := by
  rw [writeImage, bind_run] at h
  cases hwrite : Disk.access.write (Files.join directory i.fileName) i.fileBytes d with
  | mk r t =>
    rw [hwrite] at h
    cases r with
    | error fault => cases h
    | ok u =>
      cases h
      exact Disk.write_ok hwrite

/-! ## Places of images -/

section Places

variable {s t : Store} {resource name : String} {directory : List String}

theorem fileName_noSlash {i : Image} (h : '/' ∉ i.name.toList ∧ '/' ∉ i.extension.toList) :
    '/' ∉ i.fileName.toList := by
  rw [Image.fileName, String.toList_append, String.toList_append]
  simp [h.1, h.2]

theorem startsWith_noSlash {file : String} (hslash : '/' ∉ file.toList) :
    file.startsWith "/" = false := by
  rw [Bool.eq_false_iff, Ne, startsWith_slash]
  exact fun hhead => hslash (List.mem_of_head? hhead)

theorem namesOn_image {file : String} (hslash : '/' ∉ file.toList) (hne : file ≠ "") :
    Store.namesOn ("images/" ++ file) = ["images"] ++ [file] := by
  have hsingle := namesOn_single hslash (by simpa using hne)
  rw [String.ofList_toList] at hsingle
  rw [show "images/" ++ file = "images" ++ "/" ++ file from rfl, namesOn_append_slash, hsingle]
  rfl

theorem image_place {i : Image} {place : List String} (hgrows : s.Grows t)
    (hfile : s.writable resource = .ok (directory ++ [name])) (hslash : '/' ∉ i.fileName.toList)
    (h : t.writable (Files.join (imageDirectory resource) i.fileName) = .ok place) :
    place = directory ++ ["images", i.fileName] := by
  obtain ⟨hresource, hend⟩ := Store.writable_name hfile
  obtain ⟨goal, found, rfl, hresolve, -⟩ := Store.writable_ok h
  have hne : i.fileName ≠ "" := by simp [Image.fileName]
  rw [imageDirectory, (join_images _ _).mpr (startsWith_noSlash hslash)] at hresolve
  obtain ⟨rfl, hfollow⟩ := Store.resolve_beside hgrows hresource hend
    (images_start ("/" ++ i.fileName)) (namesOn_image hslash hne) hresolve
  rw [Store.follow_single (by decide) (by decide) hfollow]
  simp

theorem ensureDirectory_ok {d d' : Disk} (hgrows : s.Grows d.store)
    (hfile : s.writable resource = .ok (directory ++ [name]))
    (h : ensureDirectory Disk.access (imageDirectory resource) d = (.ok (), d')) :
    (d.store.get? (directory ++ ["images"]) = none ∨
      d.store.get? (directory ++ ["images"]) = some .directory) ∧
    d.store.Grows d'.store ∧ ∀ place, d'.store.get? place =
      if place = directory ++ ["images"] then some .directory else d.store.get? place := by
  obtain ⟨hresource, hend⟩ := Store.writable_name hfile
  have hplace {goal : List String} {found : String}
      (hresolve : d.store.resolve (imageDirectory resource) = .ok (.name goal found)) :
      goal = directory ∧ found = "images" := by
    obtain ⟨rfl, hfollow⟩ := Store.resolve_beside hgrows hresource hend (images_start "")
      (show Store.namesOn "images" = [] ++ ["images"] from rfl) hresolve
    exact ⟨(Except.ok.inj hfollow).symm, rfl⟩
  have hnames : Store.namesOn (imageDirectory resource) =
      Store.namesOn (Files.parent resource) ++ ["images"] := namesOn_join (images_start "")
  rw [ensureDirectory, bind_run] at h
  have hlook : Disk.access.isDirectory (imageDirectory resource) d =
    (d.store.isDirectory (imageDirectory resource), d) := rfl
  rw [hlook] at h
  cases hthere : d.store.isDirectory (imageDirectory resource) with
  | true =>
    rw [hthere, if_pos rfl] at h
    cases h
    obtain ⟨goal, found, hresolve, hget⟩ :=
      Store.isDirectory_named hthere hnames (by decide)
    obtain ⟨rfl, rfl⟩ := hplace hresolve
    refine ⟨.inr hget, .refl _, fun place => ?_⟩
    split
    · next heq => rw [heq, hget]
    · rfl
  | false =>
    rw [hthere, if_neg Bool.false_ne_true] at h
    obtain ⟨goal, found, hresolve, hget, hput⟩ := Disk.makeDirectory_ok h
    obtain ⟨rfl, rfl⟩ := hplace hresolve
    refine ⟨.inl hget, hput ▸ Store.grows_put (by simp) (.inl rfl), fun place => ?_⟩
    rw [hput, Store.get_put _ (by simp)]

end Places

/-! ## All images -/

/-- Puts images into the directory of a resource file, one after the other. -/
def putImages (directory : List String) (images : List Image) (s : Store) : Store :=
  images.foldl (fun s i => s.put (directory ++ ["images", i.fileName]) (.file i.fileBytes)) s

theorem get_putImages (directory : List String) (images : List Image) (s : Store)
    (place : List String) :
    (putImages directory images s).get? place =
      ((images.reverse.find? fun i => place = directory ++ ["images", i.fileName]).map
        fun i => .file i.fileBytes).or (s.get? place) := by
  induction images generalizing s with
  | nil => rfl
  | cons i images ih =>
    rw [putImages, List.foldl_cons, ← putImages, ih, List.reverse_cons, List.find?_append,
      Option.map_or, Option.or_assoc, Store.get_put _ (by simp)]
    congr 1
    by_cases hplace : place = directory ++ ["images", i.fileName] <;> simp [hplace]

theorem get_putImages_other {directory place : List String} {images : List Image} (s : Store)
    (h : ∀ i ∈ images, place ≠ directory ++ ["images", i.fileName]) :
    (putImages directory images s).get? place = s.get? place := by
  rw [get_putImages, List.find?_eq_none.mpr, Option.map_none, Option.none_or]
  exact fun i hi heq => h i (List.mem_reverse.mp hi) (of_decide_eq_true heq)

theorem get_putImages_last {images : List Image} {file : String} {j : Image}
    (directory : List String) (s : Store)
    (h : images.reverse.find? (fun i => i.fileName = file) = some j) :
    (putImages directory images s).get? (directory ++ ["images", file]) =
      some (.file j.fileBytes) := by
  have hsame : (fun i : Image => decide (directory ++ ["images", file] =
      directory ++ ["images", i.fileName])) = fun i => decide (i.fileName = file) := by
    funext i
    simp [eq_comm]
  rw [get_putImages, hsame, h]
  rfl

theorem writeImages_all {s : Store} {resource name : String} {directory : List String}
    {images : List Image} {d d' : Disk} {problems : List (List String)} (hgrows : s.Grows d.store)
    (hfile : s.writable resource = .ok (directory ++ [name]))
    (hslash : ∀ i ∈ images, '/' ∉ i.fileName.toList)
    (h : images.mapM (writeImage Disk.access (imageDirectory resource)) d = (problems, d'))
    (hnone : problems.flatten = []) :
    d'.store = putImages directory images d.store ∧ d.store.Grows d'.store ∧
      ∀ i ∈ images, ∃ t : Store, t.Grows d'.store ∧
        t.writable (Files.join (imageDirectory resource) i.fileName) =
          .ok (directory ++ ["images", i.fileName]) := by
  induction images generalizing d problems with
  | nil =>
    cases h
    exact ⟨rfl, .refl _, by simp⟩
  | cons i images ih =>
    rw [List.mapM_cons, bind_run] at h
    cases hfirst : writeImage Disk.access (imageDirectory resource) i d with
    | mk first t =>
      rw [hfirst, bind_run] at h
      cases hrest : images.mapM (writeImage Disk.access (imageDirectory resource)) t with
      | mk rest t' =>
        rw [hrest] at h
        cases h
        obtain ⟨rfl, hnone⟩ := List.append_eq_nil_iff.mp hnone
        obtain ⟨place, hplace, ht⟩ := writeImage_ok hfirst
        obtain rfl := image_place hgrows hfile (hslash i List.mem_cons_self) hplace
        have hstep : d.store.Grows t.store := ht ▸ Store.grows_file hplace _
        obtain ⟨hput, hlater, hread⟩ := ih (hgrows.trans hstep)
          (fun j hj => hslash j (List.mem_cons_of_mem _ hj)) hrest hnone
        refine ⟨?_, hstep.trans hlater, fun j hj => ?_⟩
        · rw [hput, ht]
          rfl
        · rcases List.mem_cons.mp hj with rfl | hj
          · exact ⟨d.store, hstep.trans hlater, hplace⟩
          · exact hread j hj

/-- What can be found after images were extracted. -/
structure Delivered (before after : Store) (resource className : String) (images : List Image) :
    Prop where
  /-- The resource file lists every image, in the order of the form. -/
  listed : after.read resource = .ok (Text.utf8
    ("<RCC>\n    <qresource prefix=\"/" ++ className ++ "\" >\n" ++
      String.join (images.map fun i =>
        "        <file>images/" ++ (i.name ++ "." ++ i.extension) ++ "</file>\n") ++
      "    </qresource>\n</RCC>\n"))
  /-- Every file that is listed holds the last image of this file name. -/
  written : ∀ i ∈ images, ∃ j,
    images.reverse.find? (fun k => k.name ++ "." ++ k.extension = i.name ++ "." ++ i.extension) =
      some j ∧
    after.read (Files.join (Files.parent resource) ("images/" ++ (i.name ++ "." ++ i.extension))) =
      .ok (if j.format = "XPM.GZ" then Text.utf8 (Header.imageText "" false j) else j.bytes)
  /-- Nothing else has changed, except that the directory of the images is there. -/
  others : ∃ directory name, before.resolve resource = .ok (.name directory name) ∧
    (before.get? (directory ++ ["images"]) = none ∨
      before.get? (directory ++ ["images"]) = some .directory) ∧
    after.get? (directory ++ ["images"]) = some .directory ∧
    ∀ place, place ≠ directory ++ [name] → place ≠ directory ++ ["images"] →
      (∀ i ∈ images, place ≠ directory ++ ["images", i.name ++ "." ++ i.extension]) →
      after.get? place = before.get? place

theorem writeImages_steps {resource className : String} {images : List Image} {d d' : Disk}
    (h : writeImages Disk.access resource className images d = ([], d')) :
    ∃ t u v problems, Disk.access.create resource d = (.ok (), t) ∧
      ensureDirectory Disk.access (imageDirectory resource) t = (.ok (), u) ∧
      images.mapM (writeImage Disk.access (imageDirectory resource)) u = (problems, v) ∧
      problems.flatten = [] ∧
      Disk.access.overwrite resource (Text.utf8 (manifest className images)) v = (.ok (), d') := by
  rw [writeImages, bind_run] at h
  cases hcreate : Disk.access.create resource d with
  | mk r t =>
    rw [hcreate] at h
    cases r with
    | error fault => cases h
    | ok _ =>
      dsimp only at h
      rw [← imageDirectory, bind_run] at h
      cases hensure : ensureDirectory Disk.access (imageDirectory resource) t with
      | mk r u =>
        rw [hensure] at h
        cases r with
        | error fault => cases h
        | ok _ =>
          dsimp only at h
          rw [bind_run] at h
          cases hall : images.mapM (writeImage Disk.access (imageDirectory resource)) u with
          | mk problems v =>
            rw [hall, bind_run] at h
            dsimp only at h
            cases hlast : Disk.access.overwrite resource
                (Text.utf8 (manifest className images)) v with
            | mk r w =>
              rw [hlast] at h
              obtain ⟨hproblems, rfl⟩ := Prod.mk.inj h
              obtain ⟨hnone, hr⟩ := List.append_eq_nil_iff.mp hproblems
              cases r with
              | error fault => cases hr
              | ok _ => exact ⟨t, u, v, problems, rfl, hensure, hall, hnone, hlast⟩

theorem fileBytes_eq (i : Image) : i.fileBytes =
    if i.format = "XPM.GZ" then Text.utf8 (Header.imageText "" false i) else i.bytes := by
  by_cases h : i.format = "XPM.GZ" <;> simp [Image.fileBytes, Image.isSourceText, h]

theorem exists_last {images : List Image} {i : Image} (hi : i ∈ images) :
    ∃ j, images.reverse.find? (fun k => k.fileName = i.fileName) = some j := by
  rw [← Option.isSome_iff_exists, List.find?_isSome]
  exact ⟨i, List.mem_reverse.mpr hi, by simp⟩

theorem writeImages_ok {resource className : String} {images : List Image} {d d' : Disk}
    (hslash : ∀ i ∈ images, '/' ∉ i.fileName.toList)
    (h : writeImages Disk.access resource className images d = ([], d')) :
    Delivered d.store d'.store resource className images := by
  obtain ⟨t, u, v, problems, hcreate, hensure, hall, hnone, hlast⟩ := writeImages_steps h
  obtain ⟨place, hplace, ht⟩ := Disk.create_ok hcreate
  obtain ⟨directory, name, rfl, hresource, -⟩ := Store.writable_ok hplace
  have hcreated : d.store.Grows t.store := ht ▸ Store.grows_file hplace []
  obtain ⟨hbefore, hmade, hu⟩ := ensureDirectory_ok hcreated hplace hensure
  obtain ⟨hv, hput, hfiles⟩ := writeImages_all (hcreated.trans hmade) hplace hslash hall hnone
  have hgrows : d.store.Grows v.store := (hcreated.trans hmade).trans hput
  obtain ⟨place, hplace', hd'⟩ := Disk.overwrite_ok hlast
  obtain rfl := hgrows.writable hplace hplace'
  have hlater : v.store.Grows d'.store := hd' ▸ Store.grows_file hplace' _
  -- The resource file is not in the way of the directory, or this could not have been made.
  have hname : directory ++ ["images"] ≠ directory ++ [name] := by
    intro heq
    rw [ht, heq, Store.get_put _ (by simp), if_pos rfl] at hbefore
    rcases hbefore with hno | hno <;> cases hno
  have hempty : v.store.bytesAt (directory ++ [name]) = [] := by
    rw [Store.bytesAt, hv, get_putImages_other _ (by simp), hu, if_neg hname.symm, ht,
      Store.get_put _ (by simp), if_pos rfl]
  rw [hempty, List.drop_nil, List.append_nil] at hd'
  have hother {q : List String} (hq : q ≠ directory ++ [name]) :
      d'.store.get? q = (putImages directory images u.store).get? q := by
    rw [hd', Store.get_put _ (by simp), if_neg hq, hv]
  constructor
  case listed =>
    refine (hgrows.trans hlater).read hplace ?_
    rw [hd', Store.get_put _ (by simp), if_pos rfl]
    rfl
  case written =>
    intro i hi
    obtain ⟨j, hj⟩ := exists_last hi
    refine ⟨j, hj, ?_⟩
    obtain ⟨w, hw, hwritable⟩ := hfiles i hi
    rw [imageDirectory, (join_images _ _).mpr (startsWith_noSlash (hslash i hi))] at hwritable
    rw [← fileBytes_eq]
    refine (hw.trans hlater).read hwritable ?_
    rw [hother (by simp)]
    exact get_putImages_last directory u.store hj
  case others =>
    refine ⟨directory, name, hresource, ?_, ?_, fun q hq himages hfile => ?_⟩
    · rwa [ht, Store.get_put _ (by simp), if_neg hname] at hbefore
    · rw [hother hname, get_putImages_other _ (by simp), hu, if_pos rfl]
    · rw [hother hq, get_putImages_other _ hfile, hu, if_neg himages, ht,
        Store.get_put _ (by simp), if_neg hq]

/-- The resource file begins with the list, whatever is in the names of the images. -/
theorem writeImages_listed {resource className : String} {images : List Image} {d d' : Disk}
    (h : writeImages Disk.access resource className images d = ([], d')) :
    ∃ rest, d'.store.read resource = .ok (Text.utf8 (manifest className images) ++ rest) := by
  obtain ⟨t, u, v, problems, -, -, -, -, hlast⟩ := writeImages_steps h
  obtain ⟨place, hplace, hd'⟩ := Disk.overwrite_ok hlast
  have hlater : v.store.Grows d'.store := hd' ▸ Store.grows_file hplace _
  generalize (v.store.bytesAt place).drop _ = rest at hd'
  refine ⟨rest, hlater.read hplace ?_⟩
  rw [hd', Store.get_put _ (Store.writable_ne_root hplace), if_pos rfl]

theorem writeImages_failed {resource : String} {d : Disk} {fault : Fault} (className : String)
    (images : List Image) (h : (Disk.access.create resource d).1 = .error fault) :
    (writeImages Disk.access resource className images d).1 =
        [problemText "create resource file" resource fault] ∧
      (writeImages Disk.access resource className images d).2.store = d.store := by
  cases hcreate : Disk.access.create resource d with
  | mk r d' =>
    rw [hcreate] at h
    subst h
    rw [writeImages, bind_run, hcreate]
    exact ⟨rfl, Disk.create_error hcreate⟩

/-! ## Compiling -/

theorem quiet_declaration {o : Options} (document : Nat) (f : Form) (root : Visit)
    (h : o.extractImages = true) : Quiet (Header.declaration o document f root) := by
  intro s
  refine Eq.trans ?_ ((Setup.quiet_functions o document f root _).trans
    (quiet_naming document f root s))
  cases himages : f.images? with
  | none =>
    simp only [Header.declaration, himages]
    rfl
  | some images =>
    simp only [Header.declaration, himages, h, if_true]
    rfl

theorem quiet_headerOf {o : Options} (document : Nat) (f : Form) (h : o.extractImages = true) :
    Quiet (headerOf o document f) := by
  unfold headerOf
  split
  · exact .pure _
  · next root _ =>
    exact .map _ (.bind (quiet_includesText o f) fun _ =>
      .bind (.bind (quiet_declaration document f root h) fun _ => .pure _) fun _ => .pure _)

theorem problems_report (o : Options) (problems : List String) (s : Session) :
    ((problems.forM (report o)).run s).2.table.problems = s.table.problems ++ problems := by
  induction problems generalizing s with
  | nil => exact (List.append_nil _).symm
  | cons problem problems ih =>
    rw [List.append_cons]
    exact ih _

theorem compileForm_extracts {σ : Type} (a : Access (StateM σ)) {o : Options} (document : Nat)
    {f : Form} {root : Visit} (s : Session) (x : σ) (hroot : f.rootVisit? = some root)
    (hextract : o.extractImages = true) :
    let run := ((compileForm a o document f).run s).run x
    run.1.1 = (headerOf o document f s).1 ∧
      run.1.2.table.problems = s.table.problems ++ (extractImages a o f x).1 ∧
      run.2 = (extractImages a o f x).2 := by
  obtain ⟨header, hheader, -⟩ := headerOf_class o document s hroot
  have hproblems : (headerOf o document f s).2.table.problems = s.table.problems :=
    (quiet_headerOf document f hextract).problems s
  dsimp only
  rw [compileForm_header a (Prod.ext hheader rfl), hheader, problems_report, hproblems]
  exact ⟨rfl, rfl, rfl⟩

theorem compileForm_written {o : Options} {document : Nat} {f : Form} {images : List Image}
    {resource : String} {s : Session} {d : Disk} (hroot : f.rootVisit? ≠ none)
    (hextract : o.extractImages = true) (himages : f.images? = some images)
    (hresource : o.resourceFile = some resource)
    (h : (((compileForm Disk.access o document f).run s).run d).1.2.table.problems =
      s.table.problems) :
    writeImages Disk.access resource (f.className ++ o.classPostfix) images d =
      ([], (((compileForm Disk.access o document f).run s).run d).2) := by
  obtain ⟨root, hroot⟩ := Option.ne_none_iff_exists'.mp hroot
  obtain ⟨-, hproblems, hdisk⟩ := compileForm_extracts Disk.access document s d hroot hextract
  have hextracted : extractImages Disk.access o f d =
      writeImages Disk.access resource (f.className ++ o.classPostfix) images d := by
    simp only [extractImages, hextract, himages, hresource]
  rw [hextracted] at hproblems hdisk
  exact Prod.ext (List.append_right_eq_self.mp (hproblems.symm.trans h)) hdisk.symm

/-- Compiling a form whose images are extracted.  Its header does not depend on the files.  If the
resource file cannot be made, this is the only problem and nothing is changed; and if there is no
problem at all, everything is where it should be.  A form without a root widget is refused before
any file is touched. -/
theorem extraction_delivers {o : Options} (document : Nat) {f : Form} {images : List Image}
    {resource : String} (s : Session) (hextract : o.extractImages = true)
    (himages : f.images? = some images) (hresource : o.resourceFile = some resource)
    (hslash : ∀ i ∈ images, '/' ∉ i.name.toList ∧ '/' ∉ i.extension.toList) :
    (∀ (σ : Type) (a : Access (StateM σ)) (x : σ),
      (((compileForm a o document f).run s).run x).1.1 = (headerOf o document f s).1) ∧
    ∀ d : Disk,
      let run := ((compileForm Disk.access o document f).run s).run d
      (f.rootVisit? = none → run.1.1 = .error .noRootWidget ∧ run.2 = d ∧
        run.1.2.table.problems = s.table.problems) ∧
      (f.rootVisit? ≠ none →
        (∀ fault, (Disk.access.create resource d).1 = .error fault →
          run.2.store = d.store ∧ run.1.2.table.problems = s.table.problems ++
            ["could not create resource file " ++ resource ++ ": " ++ fault.message]) ∧
        (run.1.2.table.problems = s.table.problems →
          Delivered d.store run.2.store resource (f.className ++ o.classPostfix) images)) := by
  have hextracted (d : Disk) : extractImages Disk.access o f d =
      writeImages Disk.access resource (f.className ++ o.classPostfix) images d := by
    simp only [extractImages, hextract, himages, hresource]
  have hnames : ∀ i ∈ images, '/' ∉ i.fileName.toList :=
    fun i hi => fileName_noSlash (hslash i hi)
  cases hroot : f.rootVisit? with
  | none =>
    have hheader : headerOf o document f s = (.error .noRootWidget, s) := by
      rw [headerOf, hroot]
      rfl
    refine ⟨fun σ a x => ?_, fun d => ⟨fun _ => ?_, fun hno => absurd rfl hno⟩⟩
    · rw [compileForm_error a o document f s _ (congrArg Prod.fst hheader), hheader]
      rfl
    · rw [compileForm_error _ o document f s _ (congrArg Prod.fst hheader), hheader]
      exact ⟨rfl, rfl, rfl⟩
  | some root =>
    refine ⟨fun σ a x => (compileForm_extracts a document s x hroot hextract).1, fun d => ?_⟩
    obtain ⟨-, hproblems, hdisk⟩ :=
      compileForm_extracts Disk.access document s d hroot hextract
    intro run
    refine ⟨fun hno => (by cases hno), fun _ => ⟨fun fault hfault => ?_, fun hnone => ?_⟩⟩
    · obtain ⟨hone, hsame⟩ := writeImages_failed (f.className ++ o.classPostfix) images hfault
      rw [show run.2 = _ from hdisk, show run.1.2.table.problems = _ from hproblems, hextracted,
        hone]
      exact ⟨hsame, rfl⟩
    · exact writeImages_ok hnames
        (compileForm_written (by simp [hroot]) hextract himages hresource hnone)

/-- A form with two images of one file name. -/
def repainted : Form :=
  let image (payload : String) : Field := .node "image" (.mk .image [("name", .string "logo")]
    [.node "data" (.mk .imageData [("format", .string "PNG")] [] payload)] "")
  ⟨.mk .ui []
    [.value "class" (.string "Form"),
      .node "widget" (.mk .widget [("class", .string "QWidget"), ("name", .string "Form")] [] ""),
      .node "images" (.mk .images [] [image "89", image "50"] "")] ""⟩

/-- A disk with an empty directory, on which the given outages are to come. -/
def emptyDisk (outages : List (Option Outage)) : Disk := ⟨⟨[], [(["out"], .directory)]⟩, outages⟩

/-- The second image is there in the end; and if the resource file cannot be made, nothing is. -/
theorem extraction_delivers_repainted :
    let o : Options := { extractImages := true, resourceFile := some "out/form.qrc" }
    let images : List Image := [⟨some "logo", "PNG", [137]⟩, ⟨some "logo", "PNG", [80]⟩]
    let run (d : Disk) := ((compileForm Disk.access o 0 repainted).run {}).run d
    repainted.images? = some images ∧
      (∀ i ∈ images, '/' ∉ i.name.toList ∧ '/' ∉ i.extension.toList) ∧
      (run (emptyDisk [])).1.2.table.problems = [] ∧
      Delivered (emptyDisk []).store (run (emptyDisk [])).2.store "out/form.qrc" "Form" images ∧
      ∀ fault written rest, let d := emptyDisk (some ⟨fault, written⟩ :: rest)
        (run d).2.store = d.store ∧ (run d).1.2.table.problems =
          ["could not create resource file " ++ "out/form.qrc" ++ ": " ++ fault.message] := by
  intro o images
  dsimp only
  have himages : repainted.images? = some images := by decide +kernel
  have hslash : ∀ i ∈ images, '/' ∉ i.name.toList ∧ '/' ∉ i.extension.toList := by decide +kernel
  have hnone : (((compileForm Disk.access o 0 repainted).run {}).run
      (emptyDisk [])).1.2.table.problems = [] := by decide +kernel
  have hclass : repainted.className ++ o.classPostfix = "Form" := by decide +kernel
  have hroot : repainted.rootVisit? ≠ none := by decide +kernel
  have hextract : o.extractImages = true := rfl
  have hresource : o.resourceFile = some "out/form.qrc" := rfl
  obtain ⟨-, hdelivers⟩ := extraction_delivers 0 {} hextract himages hresource hslash
  rw [hclass] at hdelivers
  refine ⟨himages, hslash, hnone, ((hdelivers (emptyDisk [])).2 hroot).2 hnone, ?_⟩
  intro fault written rest
  exact ((hdelivers (emptyDisk (some ⟨fault, written⟩ :: rest))).2 hroot).1 fault rfl

end FormCompiler
