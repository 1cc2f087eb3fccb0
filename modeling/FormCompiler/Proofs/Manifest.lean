import FormCompiler.Proofs.Delivery
import FormCompiler.Proofs.Xml.Spellings
import FormCompiler.Proofs.Xml.Yield

/-!
# Reading a list of resources

The resource file is written without escaping anything.  It can be read again, and is found to list
the images under the class of the form, exactly if no name in it has a character that means
something else in the place where it stands.
-/

namespace FormCompiler

namespace Xml

/-! ## Documents as trees -/

mutual

def Markup.tokens : Markup → List Token
  | .mk tag attributes content => .start tag (.ok attributes) :: (partsTokens content ++ [.stop])

def partsTokens : List Part → List Token
  | [] => []
  | .text s :: rest => .text (.ok s) :: partsTokens rest
  | .element m :: rest => m.tokens ++ partsTokens rest

end

/-- A document can be read to its end, and consists of the given parts. -/
def Reads (source : String) (parts : List Part) : Prop :=
  (tokens source).map Located.token = partsTokens parts ++ [.finish]

def elementsOf : List Part → List Markup
  | [] => []
  | .text _ :: rest => elementsOf rest
  | .element m :: rest => m :: elementsOf rest

/-- The character data of content that has nothing else. -/
def plainData? : List Part → Option String
  | [] => some ""
  | .text s :: rest => (plainData? rest).map (s ++ ·)
  | .element _ :: _ => none

open Scanner

theorem partsTokens_cons {parts : List Part} {m : Markup} {ms : List Markup}
    (h : elementsOf parts = m :: ms) : ∃ texts rest, elementsOf rest = ms ∧
      partsTokens parts = dataTokens texts ++ .start m.tag (.ok m.attributes) ::
        (partsTokens m.content ++ .stop :: partsTokens rest) := by
  induction parts with
  | nil => cases h
  | cons part parts ih =>
    cases part with
    | text s =>
      obtain ⟨texts, rest, hrest, htokens⟩ := ih h
      exact ⟨s :: texts, rest, hrest, congrArg (Token.text (.ok s) :: ·) htokens⟩
    | element m' =>
      obtain ⟨rfl, hrest⟩ := List.cons.inj h
      obtain ⟨tag, attributes, content⟩ := m'
      refine ⟨[], parts, hrest, ?_⟩
      rw [partsTokens, Markup.tokens, List.cons_append, List.append_assoc]
      rfl

theorem partsTokens_plain {parts : List Part} {data : String} (h : plainData? parts = some data) :
    ∃ texts, partsTokens parts = dataTokens texts ∧ String.join texts = data := by
  induction parts generalizing data with
  | nil => exact ⟨[], rfl, Option.some.inj h⟩
  | cons part parts ih =>
    cases part with
    | text s =>
      obtain ⟨rest, hrest, rfl⟩ := Option.map_eq_some_iff.mp h
      obtain ⟨texts, htokens, rfl⟩ := ih hrest
      exact ⟨s :: texts, congrArg (Token.text (.ok s) :: ·) htokens, String.join_cons⟩
    | element m => cases h

end Xml

open Xml Xml.Scanner

/-! ## The list of files -/

/-- What stands behind the tag that opens the list of resources. -/
def listing : List String → List Char
  | [] => "\n    </qresource>\n</RCC>\n".toList
  | file :: files =>
    "\n        <file>".toList ++ (file.toList ++ ("</file>".toList ++ listing files))

theorem listing_cons (file : String) (files : List String) : listing (file :: files) =
    "\n        <file>".toList ++ (file.toList ++ ("</file>".toList ++ listing files)) := rfl

theorem listing_images (images : List Image) :
    listing (images.map fun i => "images/" ++ i.fileName) = "\n".toList ++
      ((String.join (images.map fun i =>
        "        <file>images/" ++ i.fileName ++ "</file>\n")).toList ++
      "    </qresource>\n</RCC>\n".toList) := by
  induction images with
  | nil => rfl
  | cons i images ih =>
    have hbefore : "        <file>images/".toList =
        "        <file>".toList ++ "images/".toList := rfl
    have hafter : "</file>\n".toList = "</file>".toList ++ "\n".toList := rfl
    have hline : "\n        <file>".toList = "\n".toList ++ "        <file>".toList := rfl
    rw [List.map_cons, List.map_cons, listing_cons, ih, String.join_cons, hline]
    simp only [String.toList_append, hbefore, hafter]
    simp only [List.append_assoc]

theorem manifest_listing (className : String) (images : List Image) :
    (manifest className images).toList = "<RCC>\n    <qresource prefix=\"/".toList ++
      (className.toList ++ ("\" >".toList ++
        listing (images.map fun i => "images/" ++ i.fileName))) := by
  have hafter : "\" >\n".toList = "\" >".toList ++ "\n".toList := rfl
  rw [listing_images]
  unfold manifest
  simp only [String.toList_append]
  simp only [hafter]
  simp only [List.append_assoc]

theorem tokensFrom_file (names : List (List Char)) (rest : List Char) :
    tokensFrom .between names ("\n        <file>".toList ++ rest) =
      .text (.ok "\n        ") :: .start "file" (.ok []) ::
        tokensFrom .between ("file".toList :: names) rest := by
  have hfeed : feed ⟨.between, 0, names⟩ "\n        <file>".toList =
      (⟨.between, 15, "file".toList :: names⟩,
        [⟨.text (.ok "\n        "), 9⟩, ⟨.start "file" (.ok []), 15⟩]) := rfl
  exact tokensFrom_append hfeed rest

theorem tokensFrom_listingEnd :
    tokensFrom .between ["qresource".toList, "RCC".toList] (listing []) =
      [.text (.ok "\n    "), .stop, .text (.ok "\n"), .stop, .text (.ok "\n"), .finish] := rfl

def Unmarked (text : String) : Prop := '<' ∉ text.toList ∧ '&' ∉ text.toList

theorem tokensFrom_plain {file : String} (hne : file ≠ "") (hplain : Unmarked file)
    (names : List (List Char)) (rest : List Char) :
    tokensFrom .between ("file".toList :: names) (file.toList ++ ("</file>".toList ++ rest)) =
      .text (.ok file) :: .stop :: tokensFrom .between names rest := by
  obtain ⟨c, cs, hcs⟩ : ∃ c cs, file.toList = c :: cs :=
    List.exists_cons_of_ne_nil (by simpa using hne)
  have hpending : pending file.toList = .text (c :: cs).reverse := by
    rw [hcs]
    rfl
  have hdata : unread (.text (c :: cs).reverse) = [.text (.ok file)] := by
    rw [unread, textToken, List.reverse_reverse, ← hcs, unescape_unmarked hplain.2,
      String.ofList_toList]
    rfl
  have hfile : feed ⟨.between, 0, "file".toList :: names⟩ file.toList = _ :=
    feed_pending [] file.toList 0 ("file".toList :: names) fun d hd heq => hplain.1 (heq ▸ hd)
  rw [List.nil_append, hpending] at hfile
  have hend : feed ⟨.opened, 1, "file".toList :: names⟩ "/file>".toList =
      (⟨.between, 7, names⟩, [⟨.stop, 7⟩]) := rfl
  have hmarkup := run_markup 0 (.inr ⟨(c :: cs).reverse, rfl⟩) ("file".toList :: names)
    "/file>".toList rest
  rw [hdata, hend] at hmarkup
  rw [tokensFrom_append hfile]
  exact hmarkup.trans (congrArg ([Token.text (.ok file), Token.stop] ++ ·)
    (tokens_run ⟨.between, 7, names⟩ rest))

/-! ## Files that end late -/

/-- The parts of a list of resources that are files, with the paths in them. -/
def FileParts (parts : List Part) (files : List String) : Prop :=
  (elementsOf parts).map (fun m => (m.tag, plainData? m.content)) =
    files.map fun file => ("file", some file)

theorem FileParts.cons {parts : List Part} {file : String} {files : List String}
    (h : FileParts parts (file :: files)) : ∃ texts attributes data rest,
      String.join data = file ∧ FileParts rest files ∧
      partsTokens parts = dataTokens texts ++ .start "file" (.ok attributes) ::
        (dataTokens data ++ .stop :: partsTokens rest) := by
  unfold FileParts at h
  cases helements : elementsOf parts with
  | nil =>
    rw [helements] at h
    cases h
  | cons m ms =>
    rw [helements] at h
    obtain ⟨hfirst, hfiles⟩ := List.cons.inj h
    obtain ⟨htag, hdata⟩ := Prod.mk.inj hfirst
    obtain ⟨texts, rest, rfl, htokens⟩ := partsTokens_cons helements
    obtain ⟨data, hcontent, hjoin⟩ := partsTokens_plain hdata
    rw [htag, hcontent] at htokens
    exact ⟨texts, m.attributes, data, rest, hjoin, hfiles, htokens⟩

/-- No end tag begins in a piece of a document. -/
def noEndTag : List Char → Bool
  | [] => true
  | [c] => c != '<'
  | c :: d :: cs => !(c == '<' && d == '/') && noEndTag (d :: cs)

/-- What begins with an end tag does not reach into a piece in which none begins. -/
theorem endTag_behind {front behind rest : List Char} (hfront : noEndTag front = true)
    (h : '<' :: '/' :: rest <:+ front ++ behind) : '<' :: '/' :: rest <:+ behind := by
  induction front with
  | nil => exact h
  | cons c front ih =>
    rcases List.suffix_cons_iff.mp h with heq | h
    · obtain ⟨rfl, hslash⟩ := List.cons.inj heq
      cases front with
      | nil => cases hfront
      | cons d front =>
        obtain ⟨rfl, -⟩ := List.cons.inj hslash
        cases hfront
    · refine ih ?_ h
      cases front with
      | nil => rfl
      | cons d front => exact (Bool.and_eq_true_iff.mp hfront).2

/-- Only the end tags of the list itself stand behind the last file, and none of them closes a
file. -/
theorem late_last {name rest : List Char} {outer : List (List Char)} {more : List Token}
    (hsuffix : '<' :: '/' :: rest <:+ "/file>".toList ++ listing [])
    (hrun : tokensFrom (.closing []) (name :: outer) rest = .stop :: more) :
    reportedTag (String.ofList name) ≠ "file" := by
  have hname : name = endName ((rest.takeWhile (· != '>')).reverse ++ []) := by
    obtain ⟨outer', hnames, -⟩ | ⟨fault, more', hbroken⟩ := run_closing [] rest (name :: outer) 0
    · exact (List.cons.inj hnames).1
    · cases (List.cons.inj (hbroken.symm.trans hrun)).1
  have hlist : '<' :: '/' :: rest <:+ '<' :: ("/qresource>\n".toList ++ '<' :: "/RCC>\n".toList) :=
    endTag_behind (show noEndTag "/file>\n    ".toList = true from rfl) hsuffix
  rcases List.suffix_cons_iff.mp hlist with heq | hlist
  · cases heq
    rw [hname]
    decide
  · rcases List.suffix_cons_iff.mp (endTag_behind rfl hlist) with heq | hlist
    · cases heq
      rw [hname]
      decide
    · have hnothing : '<' :: '/' :: rest <:+ [] :=
        endTag_behind (show noEndTag "/RCC>\n".toList = true from rfl) hlist
      cases List.suffix_nil.mp hnothing

theorem late_next {file : String} {files : List String} {rest : List Char}
    (hsuffix : '<' :: '/' :: rest <:+ "/file>".toList ++ listing (file :: files)) :
    '<' :: '/' :: rest <:+ file.toList ++ ("</file>".toList ++ listing files) :=
  endTag_behind (show noEndTag "/file>\n        <file>".toList = true from rfl) hsuffix

/-- Character data of a given length that is read too late in a list of files ends too late. -/
theorem late_end {file : String} {files : List String} {before rest cs : List Char}
    (hcs : cs <:+ file.toList ++ ("</file>".toList ++ listing files))
    (hsplit : cs = before ++ '<' :: '/' :: rest)
    (hlate : cs.length + file.toList.length <
      (file.toList ++ ("</file>".toList ++ listing files)).length + before.length) :
    '<' :: '/' :: rest <:+ "/file>".toList ++ listing files := by
  have hwhole : "/file>".toList ++ listing files <:+
      file.toList ++ ("</file>".toList ++ listing files) :=
    (List.suffix_cons '<' _).trans (List.suffix_append _ _)
  have hend : '<' :: '/' :: rest <:+ cs := hsplit ▸ List.suffix_append before _
  refine List.suffix_of_suffix_length_le (hend.trans hcs) hwhole ?_
  have hclosing : "</file>".toList = '<' :: "/file>".toList := rfl
  rw [hclosing] at hlate
  simp only [hsplit, List.length_append, List.length_cons] at hlate ⊢
  omega

/-- An element that ends behind the end tag of its file, where a list of resources goes on with
further files, cannot be a file. -/
theorem no_late_end {files : List String} (hfiles : ∀ file ∈ files, file ≠ "")
    {parts : List Part} {more : List Token} {name rest : List Char} {outer : List (List Char)}
    (hsuffix : '<' :: '/' :: rest <:+ "/file>".toList ++ listing files)
    (hrun : tokensFrom (.closing []) (name :: outer) rest = .stop :: (partsTokens parts ++ more))
    (hparts : FileParts parts files) : reportedTag (String.ofList name) ≠ "file" := by
  induction files generalizing parts name rest outer with
  | nil => exact late_last hsuffix hrun
  | cons file files ih =>
    intro _
    have hne := hfiles file List.mem_cons_self
    obtain ⟨texts, attributes, data, parts', rfl, hparts', htokens⟩ := hparts.cons
    -- The next file is read from behind this end tag on, so that it ends late in its turn.
    obtain ⟨outer', hnames, hclosed⟩ | ⟨fault, more', hbroken⟩ :=
      run_closing [] rest (name :: outer) 0
    · obtain ⟨-, rfl⟩ := List.cons.inj hnames
      have hbehind := (List.cons.inj (hclosed.symm.trans hrun)).2
      rw [htokens, List.append_assoc, List.cons_append, List.append_assoc, List.cons_append]
        at hbehind
      obtain ⟨cs, name', hcs, htag, hmore | hmore⟩ := run_start hbehind
      · cases data with
        | nil => exact hne rfl
        | cons t data => cases (List.cons.inj hmore).1
      · obtain ⟨before, rest', hsplit, hlength, -, hrun'⟩ := tokensFrom_stop hmore.symm
        refine ih (fun f hf => hfiles f (List.mem_cons_of_mem _ hf)) ?_ hrun' hparts' htag.symm
        have hnext := late_next hsuffix
        have hrest : cs <:+ rest :=
          (hcs.trans (List.tail_suffix _)).trans (List.dropWhile_suffix _)
        have hwhole : cs <:+ _ :=
          (hrest.trans (List.suffix_append ['<', '/'] rest)).trans hnext
        refine late_end hwhole hsplit ?_
        have := hrest.length_le
        have := hnext.length_le
        simp only [List.length_cons] at this
        omega
    · cases (List.cons.inj (hbroken.symm.trans hrun)).1

theorem reportedTag_file : reportedTag (String.ofList "file".toList) = "file" := by decide +kernel

/-- If a list of files can be read as such, none of them has a mark in its name. -/
theorem files_unmarked {files : List String} (hfiles : ∀ file ∈ files, file ≠ "")
    {parts : List Part} {more : List Token} {names : List (List Char)}
    (h : tokensFrom .between names (listing files) = partsTokens parts ++ more)
    (hparts : FileParts parts files) : ∀ file ∈ files, Unmarked file := by
  induction files generalizing parts with
  | nil => simp
  | cons file files ih =>
    obtain ⟨texts, attributes, data, parts', hdata, hparts', htokens⟩ := hparts.cons
    have hrest : ∀ f ∈ files, f ≠ "" := fun f hf => hfiles f (List.mem_cons_of_mem _ hf)
    rw [listing_cons, tokensFrom_file, htokens, List.append_assoc, List.cons_append,
      List.append_assoc, List.cons_append] at h
    have hcontent : tokensFrom .between ("file".toList :: names)
        (file.toList ++ ("</file>".toList ++ listing files)) =
          dataTokens data ++ .stop :: (partsTokens parts' ++ more) :=
      (dataTokens_inj (show dataTokens ["\n        "] ++ _ = _ from h) rfl rfl).2
    have hplain : Unmarked file := by
      obtain ⟨before, rest, hsplit, hlength, hmark, hrun⟩ := tokensFrom_stop hcontent
      rw [hdata] at hlength hmark
      -- Data that reaches just as far as the name is the name; other data ends late.
      rcases Nat.eq_or_lt_of_le hlength with hsame | hlate
      · obtain ⟨rfl, -⟩ := List.append_inj hsplit hsame
        constructor <;> intro hmem
        · exact absurd (hmark (.inl hmem)) (Nat.lt_irrefl _)
        · exact absurd (hmark (.inr hmem)) (Nat.lt_irrefl _)
      · have hsuffix := late_end List.suffix_rfl hsplit (by omega)
        exact absurd reportedTag_file (no_late_end hrest hsuffix hrun hparts')
    refine List.forall_mem_cons.mpr ⟨hplain, ih hrest ?_ hparts'⟩
    rw [tokensFrom_plain (hfiles file List.mem_cons_self) hplain] at hcontent
    exact (dataTokens_inj (show dataTokens [file] ++ _ = _ from hcontent) rfl rfl).2

/-! ## The class -/

/-- The path of a list of resources, as it is written. -/
def pathSpelling (value : List Char) : Spelling :=
  ⟨[' '], "prefix".toList, [], [], '"', '/' :: value⟩

theorem proper_pathSpelling {value : List Char} (h : '"' ∉ value) :
    (pathSpelling value).Proper := by
  constructor
  case lead => exact ⟨List.cons_ne_nil _ _, by simp [pathSpelling, isSpace]⟩
  case name => exact ⟨List.cons_ne_nil _ _, by simp [pathSpelling, isSpace]⟩
  case left => simp [pathSpelling]
  case right => simp [pathSpelling]
  case quote => exact .inl rfl
  case value =>
    intro c hc heq
    rcases List.mem_cons.mp hc with rfl | hc
    · cases heq
    · exact h ((show c = '"' from heq) ▸ hc)

theorem attributes_path {value : List Char} (h : '"' ∉ value) (rest : List Char) : ∃ pos seen,
    (attributes ("qresource".toList ++ ((pathSpelling value).chars ++ rest))).toOption =
      (unescape ('/' :: value)).toOption.bind fun path =>
        (attributesFrom pos seen .gap rest).toOption.map (("prefix", path) :: ·) := by
  obtain ⟨pos, start, hspelling⟩ := attributesFrom_spelling 9 [] (pathSpelling value)
    (proper_pathSpelling h) rest (by simp)
  have hname := takeWhile_name "qresource" (by decide) ((pathSpelling value).chars ++ rest)
    (by simp [pathSpelling, Spelling.chars, isSpace])
  have hreported : (pathSpelling value).reported? =
      (unescape ('/' :: value)).toOption.map (("prefix", ·)) := rfl
  refine ⟨pos, [("prefix".toList, start)], ?_⟩
  simp only [attributes, hname]
  rw [List.drop_left]
  refine hspelling.trans ?_
  rw [hreported, Option.bind_map]
  rfl

/-- A list of resources from the name of its tag on. -/
def listMarkup (className rest : List Char) : List Char :=
  "qresource".toList ++ (" prefix=\"/".toList ++ (className ++ ("\" >".toList ++ rest)))

theorem listMarkup_spelled (className rest : List Char) : listMarkup className rest =
    (spelledTag "qresource".toList [pathSpelling className] [' '] ++ ['>']) ++ rest := by
  have hassoc (tag path : List Char) : tag ++ (path ++ (className ++ (['"', ' ', '>'] ++ rest))) =
      ((tag ++ (((path ++ (className ++ ['"'])) ++ []) ++ [' '])) ++ ['>']) ++ rest := by simp
  exact hassoc "qresource".toList " prefix=\"/".toList

theorem listMarkup_path {className rest value behind : List Char}
    (h : className ++ ("\" >".toList ++ rest) = value ++ '"' :: behind) :
    listMarkup className rest =
      spelledTag "qresource".toList [pathSpelling value] [] ++ behind := by
  have hassoc (tag path : List Char) : tag ++ (path ++ (value ++ '"' :: behind)) =
      (tag ++ (((path ++ (value ++ ['"'])) ++ []) ++ [])) ++ behind := by simp
  exact (congrArg (fun cs => "qresource".toList ++ (" prefix=\"/".toList ++ cs)) h).trans
    (hassoc "qresource".toList " prefix=\"/".toList)

theorem spelledTag_path (name value blanks : List Char) :
    spelledTag name [pathSpelling value] blanks =
      name ++ ((pathSpelling value).chars ++ blanks) := by
  rw [spelledTag, List.flatMap_singleton]

theorem ok_of_toOption {α ε : Type} {x : Except ε α} {a : α} (h : x.toOption = some a) :
    x = .ok a := by
  cases x with
  | error e => cases h
  | ok b => exact congrArg Except.ok (Option.some.inj h)

theorem tagName_list : TagName "qresource".toList := by decide +kernel

theorem lowercase_list :
    Text.lowercase (String.ofList (localName "qresource".toList)) = "qresource" := by decide +kernel

theorem tokensFrom_class {className : String} (hquote : '"' ∉ className.toList)
    (hmark : '&' ∉ className.toList) (names : List (List Char)) (rest : List Char) :
    tokensFrom .opened names (listMarkup className.toList rest) =
      .start "qresource" (.ok [("prefix", "/" ++ className)]) ::
        tokensFrom .between ("qresource".toList :: names) rest := by
  have hproper : ∀ a ∈ [pathSpelling className.toList], a.Proper := by
    simpa using proper_pathSpelling hquote
  have hblank : ∀ c ∈ [' '], isSpace c = true := by simp [isSpace]
  have hmarkup := listMarkup_spelled className.toList rest
  have hpath : unescape ('/' :: className.toList) = .ok ("/" ++ className) := by
    rw [unescape_unmarked (by simpa using hmark), ← String.ofList_toList (s := "/" ++ className),
      String.toList_append]
    rfl
  have hattributes :
      attributes (spelledTag "qresource".toList [pathSpelling className.toList] [' ']) =
        .ok [("prefix", "/" ++ className)] := by
    obtain ⟨pos, seen, h⟩ := attributes_path hquote [' ']
    rw [hpath, ← spelledTag_path] at h
    exact ok_of_toOption h
  obtain ⟨o, hfeed⟩ := feed_spelled _ tagName_list _ _ hproper hblank 0 names
  obtain ⟨c, cs, hlast, hc⟩ :=
    last_of_spelled "qresource".toList _ _ hproper hblank (List.cons_ne_nil _ _)
  have hopening := feed_opening hfeed hlast hc
  rw [takeWhile_spelled _ tagName_list _ _ hproper hblank, startToken_spelled _ tagName_list _ _
    hproper hblank, hattributes, lowercase_list] at hopening
  rw [hmarkup, tokensFrom_append hopening]
  rfl

theorem listMarkup_cut (className rest : List Char) : ∃ value behind, '"' ∉ value ∧
    listMarkup className rest = spelledTag "qresource".toList [pathSpelling value] [] ++ behind ∧
      (value = className ∨ value.length < className.length) := by
  by_cases hquote : '"' ∈ className
  · obtain ⟨value, tail, rfl, hvalue⟩ := List.eq_append_cons_of_mem hquote
    refine ⟨value, tail ++ ("\" >".toList ++ rest), hvalue, listMarkup_path ?_, .inr (by simp)⟩
    rw [List.append_assoc]
    rfl
  · exact ⟨className, " >".toList ++ rest, hquote, listMarkup_path rfl, .inl rfl⟩

/-- A tag that begins with a path has it for its first attribute, whatever else is in the tag. -/
theorem start_path {value behind : List Char} {names : List (List Char)} {texts : List String}
    {tag : String} {found : List (String × String)} {more : List Token} (hvalue : '"' ∉ value)
    (h : tokensFrom .opened names
        (spelledTag "qresource".toList [pathSpelling value] [] ++ behind) =
      dataTokens texts ++ .start tag (.ok found) :: more) :
    ∃ path others, unescape ('/' :: value) = .ok path ∧ found = ("prefix", path) :: others := by
  have hproper : ∀ a ∈ [pathSpelling value], a.Proper := by simpa using proper_pathSpelling hvalue
  obtain ⟨o, hfeed⟩ := feed_spelled "qresource".toList tagName_list _ [] hproper (by simp) 0 names
  rw [tokensFrom_append hfeed] at h
  have hfound : ∃ rest, .ok found =
      attributes (spelledTag "qresource".toList [pathSpelling value] [] ++ rest) := by
    obtain ⟨tag', found', more', hrun, hfound'⟩ | ⟨fault, more', hbroken⟩ := run_element
      (spelledTag "qresource".toList [pathSpelling value] []).reverse behind none 0 names
    · obtain ⟨hstart, -⟩ := dataTokens_first (hrun.symm.trans h) rfl rfl
      obtain ⟨-, rfl⟩ := Token.start.inj hstart
      rcases hfound' with ⟨rest, hrest⟩ | ⟨front, hfront, -⟩
      · rw [List.reverse_reverse] at hrest
        exact ⟨rest, hrest⟩
      · obtain ⟨c, cs, hlast, hc⟩ :=
          last_of_spelled "qresource".toList _ [] hproper (by simp) (List.cons_ne_nil _ _)
        exact absurd (List.cons.inj (hlast.symm.trans hfront)).1 hc
    · cases (dataTokens_first (hbroken.symm.trans h) rfl rfl).1
  obtain ⟨rest, hattributes⟩ := hfound
  obtain ⟨pos, seen, hread⟩ := attributes_path hvalue rest
  rw [spelledTag_path, List.append_nil, List.append_assoc] at hattributes
  rw [← hattributes] at hread
  obtain ⟨path, hunescape, hmore⟩ := Option.bind_eq_some_iff.mp hread.symm
  obtain ⟨others, -, hcons⟩ := Option.map_eq_some_iff.mp hmore
  exact ⟨path, others, ok_of_toOption hunescape, hcons.symm⟩

/-- If the path of the resources is read as the class, this has no quotes and references: otherwise
the path would be shorter. -/
theorem class_unmarked {className : String} {names : List (List Char)} {rest : List Char}
    {tag : String} {found : List (String × String)} {more : List Token} {texts : List String}
    (h : tokensFrom .opened names (listMarkup className.toList rest) =
      dataTokens texts ++ .start tag (.ok found) :: more)
    (hpath : found.lookup "prefix" = some ("/" ++ className)) :
    '"' ∉ className.toList ∧ '&' ∉ className.toList := by
  obtain ⟨value, behind, hvalue, hsplit, hshort⟩ := listMarkup_cut className.toList rest
  rw [hsplit] at h
  obtain ⟨path, others, hunescape, rfl⟩ := start_path hvalue h
  obtain rfl : path = "/" ++ className := Option.some.inj hpath
  have hlength := length_unescape hunescape
  rw [String.toList_append, List.length_append] at hlength
  have hcount := List.countP_le_length (p := (· != '&')) (l := value)
  have hslash : ('/' :: value).countP (· != '&') = value.countP (· != '&') + 1 := by simp
  have hone : "/".toList.length = 1 := rfl
  rcases hshort with rfl | hshort
  · refine ⟨hvalue, fun hmark => ?_⟩
    have hall := List.countP_eq_length.mp (show className.toList.countP (· != '&') = _ by omega)
    exact absurd (hall '&' hmark) (by simp)
  · omega

/-! ## The whole list -/

/-- Parts of a document that list files as resources under a path, and nothing else. -/
def ListsResources (parts : List Part) (path : String) (files : List String) : Prop :=
  ∃ root list, elementsOf parts = [root] ∧ root.tag = "rcc" ∧
    elementsOf root.content = [list] ∧ list.tag = "qresource" ∧
    list.attributes.lookup "prefix" = some path ∧ FileParts list.content files

theorem tokens_manifest (className : String) (images : List Image) :
    (tokens (manifest className images)).map Located.token =
      .start "rcc" (.ok []) :: .text (.ok "\n    ") :: tokensFrom .opened ["RCC".toList]
        (listMarkup className.toList (listing (images.map fun i => "images/" ++ i.fileName))) := by
  have hfeed : feed ⟨.between, 0, []⟩ "<RCC>\n    <".toList = (⟨.opened, 11, ["RCC".toList]⟩,
      [⟨.start "rcc" (.ok []), 5⟩, ⟨.text (.ok "\n    "), 10⟩]) := rfl
  have hsource : dropByteOrderMark (manifest className images).toList = "<RCC>\n    <".toList ++
      listMarkup className.toList (listing (images.map fun i => "images/" ++ i.fileName)) := by
    rw [manifest_listing]
    rfl
  exact (congrArg (tokensFrom .between []) hsource).trans (tokensFrom_append hfeed _)

def fileTree (files : List String) : List Part :=
  files.flatMap fun file => [.text "\n        ", .element (.mk "file" [] [.text file])]

theorem fileParts_fileTree (files : List String) :
    FileParts (fileTree files ++ [.text "\n    "]) files := by
  induction files with
  | nil => rfl
  | cons file files ih =>
    have hdata : plainData? [.text file] = some file := by simp [plainData?]
    refine (congrArg (("file", plainData? [.text file]) :: ·) ih).trans ?_
    rw [hdata]
    rfl

theorem tokensFrom_listing {files : List String} (hfiles : ∀ file ∈ files, file ≠ "")
    (hplain : ∀ file ∈ files, Unmarked file) :
    tokensFrom .between ["qresource".toList, "RCC".toList] (listing files) =
      partsTokens (fileTree files ++ [.text "\n    "]) ++
        [.stop, .text (.ok "\n"), .stop, .text (.ok "\n"), .finish] := by
  induction files with
  | nil => exact tokensFrom_listingEnd
  | cons file files ih =>
    rw [listing_cons, tokensFrom_file,
      tokensFrom_plain (hfiles file List.mem_cons_self) (hplain file List.mem_cons_self),
      ih (fun f hf => hfiles f (List.mem_cons_of_mem _ hf))
        fun f hf => hplain f (List.mem_cons_of_mem _ hf)]
    rfl

theorem listed_ne_empty (images : List Image) :
    ∀ file ∈ images.map (fun i => "images/" ++ i.fileName), file ≠ "" := by
  intro file hfile
  obtain ⟨i, -, rfl⟩ := List.mem_map.mp hfile
  simp

theorem manifest_reads {className : String} {images : List Image}
    (hquote : '"' ∉ className.toList) (hmark : '&' ∉ className.toList)
    (hplain : ∀ i ∈ images, Unmarked ("images/" ++ i.fileName)) :
    ∃ parts, Reads (manifest className images) parts ∧
      ListsResources parts ("/" ++ className) (images.map fun i => "images/" ++ i.fileName) := by
  have hfiles : ∀ file ∈ images.map (fun i => "images/" ++ i.fileName), Unmarked file := by
    intro file hfile
    obtain ⟨i, hi, rfl⟩ := List.mem_map.mp hfile
    exact hplain i hi
  let list : Markup := .mk "qresource" [("prefix", "/" ++ className)]
    (fileTree (images.map fun i => "images/" ++ i.fileName) ++ [.text "\n    "])
  let root : Markup := .mk "rcc" [] [.text "\n    ", .element list, .text "\n"]
  refine ⟨[.element root, .text "\n"], ?_, root, list, rfl, rfl, rfl, rfl, rfl,
    fileParts_fileTree _⟩
  rw [Reads, tokens_manifest, tokensFrom_class hquote hmark,
    tokensFrom_listing (listed_ne_empty images) hfiles]
  simp [partsTokens, Markup.tokens, root, list]

theorem manifest_unmarked {className : String} {images : List Image} {parts : List Part}
    (hreads : Reads (manifest className images) parts)
    (hlists : ListsResources parts ("/" ++ className)
      (images.map fun i => "images/" ++ i.fileName)) :
    '"' ∉ className.toList ∧ '&' ∉ className.toList ∧
      ∀ i ∈ images, Unmarked ("images/" ++ i.fileName) := by
  obtain ⟨root, list, hroot, -, hlist, -, hpath, hfiles⟩ := hlists
  obtain ⟨before, rest, -, hparts⟩ := partsTokens_cons hroot
  obtain ⟨texts, others, -, hcontent⟩ := partsTokens_cons hlist
  rw [Reads, tokens_manifest, hparts, hcontent] at hreads
  simp only [List.append_assoc, List.cons_append] at hreads
  have hinner := (dataTokens_first hreads rfl rfl).2
  cases texts with
  | nil => cases (List.cons.inj hinner).1
  | cons t texts =>
    have htag := (List.cons.inj hinner).2
    obtain ⟨hquote, hmark⟩ := class_unmarked htag hpath
    refine ⟨hquote, hmark, fun i hi => ?_⟩
    rw [tokensFrom_class hquote hmark] at htag
    have hlisting := (dataTokens_first htag rfl rfl).2
    exact files_unmarked (listed_ne_empty images) hlisting hfiles _ (List.mem_map_of_mem hi)

theorem unmarked_append {a b : String} (ha : Unmarked a) : Unmarked (a ++ b) ↔ Unmarked b := by
  unfold Unmarked at *
  rw [String.toList_append, List.mem_append, List.mem_append]
  simp [ha.1, ha.2]

/-! ## Compiling -/

open Document Files Naming

/-- The resource file that is written when the images of a form are extracted, and whether it can be
read.  It is found to list the files of the images under the class of the form exactly if the class
has no quote and no ampersand, and the files have no angle bracket and no ampersand in their names.
A file whose name leads elsewhere could leave some of its bytes behind the list; others do not. -/
theorem resourceFile_readable_iff {o : Options} {document : Nat} {f : Form} {images : List Image}
    {resource : String} {s : Session} {d : Disk} (hroot : f.rootVisit? ≠ none)
    (hextract : o.extractImages = true) (himages : f.images? = some images)
    (hresource : o.resourceFile = some resource)
    (h : (((compileForm Disk.access o document f).run s).run d).1.2.table.problems =
      s.table.problems) :
    let className := f.className ++ o.classPostfix
    let text := manifest className images
    (∃ rest, (((compileForm Disk.access o document f).run s).run d).2.store.read resource =
        .ok (Text.utf8 text ++ rest) ∧
      ((∀ i ∈ images, '/' ∉ i.name.toList ∧ '/' ∉ i.extension.toList) → rest = [])) ∧
    ((∃ parts, Reads text parts ∧ ListsResources parts ("/" ++ className)
        (images.map fun i => "images/" ++ i.fileName)) ↔
      '"' ∉ className.toList ∧ '&' ∉ className.toList ∧
        ∀ i ∈ images, '<' ∉ i.fileName.toList ∧ '&' ∉ i.fileName.toList) := by
  intro className text
  have hwritten := compileForm_written hroot hextract himages hresource h
  have hmarks (i : Image) : Unmarked ("images/" ++ i.fileName) ↔ Unmarked i.fileName :=
    unmarked_append (by unfold Unmarked; decide)
  constructor
  · obtain ⟨rest, hread⟩ := writeImages_listed hwritten
    refine ⟨rest, hread, fun hslash => ?_⟩
    have hdelivered := writeImages_ok (fun i hi => fileName_noSlash (hslash i hi)) hwritten
    have hsame := Except.ok.inj (hread.symm.trans hdelivered.listed)
    exact List.append_right_eq_self.mp hsame
  · constructor
    · rintro ⟨parts, hreads, hlists⟩
      obtain ⟨hquote, hmark, hfiles⟩ := manifest_unmarked hreads hlists
      exact ⟨hquote, hmark, fun i hi => (hmarks i).mp (hfiles i hi)⟩
    · rintro ⟨hquote, hmark, hfiles⟩
      exact manifest_reads hquote hmark fun i hi => (hmarks i).mpr (hfiles i hi)

/-- A form with an image of the given name. -/
def pictured (name : String) : Form :=
  ⟨.mk .ui []
    [.value "class" (.string "Form"),
      .node "widget" (.mk .widget [("class", .string "QWidget"), ("name", .string "Form")] [] ""),
      .node "images" (.mk .images [] [.node "image" (.mk .image [("name", .string name)]
        [.node "data" (.mk .imageData [("format", .string "PNG")] [] "89")] "")] "")] ""⟩

/-- An image with an ampersand in its name is listed in a way that cannot be read. -/
theorem resourceFile_readable_iff_ampersand :
    let o : Options := { extractImages := true, resourceFile := some "out/form.qrc" }
    let run (name : String) :=
      ((compileForm Disk.access o 0 (pictured name)).run {}).run (emptyDisk [])
    (run "a&b").1.2.table.problems = [] ∧ (run "logo").1.2.table.problems = [] ∧
      (¬∃ parts, Reads (manifest "Form" [⟨some "a&b", "PNG", [137]⟩]) parts ∧
        ListsResources parts "/Form" ["images/a&b.png"]) ∧
      ∃ parts, Reads (manifest "Form" [⟨some "logo", "PNG", [137]⟩]) parts ∧
        ListsResources parts "/Form" ["images/logo.png"] := by
  intro o
  dsimp only
  have hextract : o.extractImages = true := rfl
  have hresource : o.resourceFile = some "out/form.qrc" := rfl
  have hbad : (((compileForm Disk.access o 0 (pictured "a&b")).run {}).run
      (emptyDisk [])).1.2.table.problems = [] := by decide +kernel
  have hgood : (((compileForm Disk.access o 0 (pictured "logo")).run {}).run
      (emptyDisk [])).1.2.table.problems = [] := by decide +kernel
  have hbadImages : (pictured "a&b").images? = some [⟨some "a&b", "PNG", [137]⟩] := by
    decide +kernel
  have hgoodImages : (pictured "logo").images? = some [⟨some "logo", "PNG", [137]⟩] := by
    decide +kernel
  have hbadIff := (resourceFile_readable_iff (s := {}) (by decide +kernel) hextract hbadImages
    hresource hbad).2
  have hgoodIff := (resourceFile_readable_iff (s := {}) (by decide +kernel) hextract hgoodImages
    hresource hgood).2
  have hbadClass : (pictured "a&b").className ++ o.classPostfix = "Form" := by decide +kernel
  have hgoodClass : (pictured "logo").className ++ o.classPostfix = "Form" := by decide +kernel
  have hbadName : Image.fileName ⟨some "a&b", "PNG", [137]⟩ = "a&b.png" := by decide +kernel
  have hgoodName : Image.fileName ⟨some "logo", "PNG", [137]⟩ = "logo.png" := by decide +kernel
  rw [hbadClass, List.map_singleton, hbadName] at hbadIff
  rw [hgoodClass, List.map_singleton, hgoodName] at hgoodIff
  refine ⟨hbad, hgood, fun hreads => ?_, hgoodIff.mpr ⟨by decide, by decide, ?_⟩⟩
  · have hmark := ((hbadIff.mp hreads).2.2 _ List.mem_cons_self).2
    rw [hbadName] at hmark
    exact hmark (by decide)
  · intro i hi
    obtain rfl := List.mem_singleton.mp hi
    rw [hgoodName]
    decide

end FormCompiler
