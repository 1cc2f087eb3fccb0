import FormCompiler.Files.Path
import FormCompiler.Files.Store

/-!
# Names on paths

What a path relative to the directory of a file leads over: the names on the path of the file but
the last, then its own.  The path of the directory may have been cleared of dots and of slashes at
its end, which makes no difference to where it leads.
-/

namespace FormCompiler

namespace Text

theorem splitFrom_append {isSeparator : Char → Bool} {c : Char} (hc : isSeparator c = true)
    (piece xs ys : List Char) :
    splitFrom isSeparator piece (xs ++ c :: ys) =
      splitFrom isSeparator piece xs ++ splitFrom isSeparator [] ys := by
  induction xs generalizing piece with
  | nil => simp only [List.nil_append, splitFrom, hc, if_true, List.singleton_append]
  | cons x xs ih =>
    rw [List.cons_append, splitFrom, splitFrom]
    split
    · rw [ih, List.cons_append]
    · exact ih _

theorem splitFrom_whole {isSeparator : Char → Bool} {cs : List Char}
    (h : ∀ c ∈ cs, isSeparator c = false) (piece : List Char) :
    splitFrom isSeparator piece cs = [String.ofList (piece.reverse ++ cs)] := by
  induction cs generalizing piece with
  | nil => rw [splitFrom, List.append_nil]
  | cons c cs ih =>
    have hc : isSeparator c = false := h c List.mem_cons_self
    rw [splitFrom, hc, if_neg Bool.false_ne_true,
      ih fun d hd => h d (List.mem_cons_of_mem c hd)]
    simp

end Text

namespace Files

open Store (namesOn)

/-! ## Names -/

theorem namesOn_ofList_append (xs ys : List Char) :
    namesOn (String.ofList (xs ++ '/' :: ys)) =
      namesOn (String.ofList xs) ++ namesOn (String.ofList ys) := by
  simp only [namesOn, Text.splitAt, String.toList_ofList]
  rw [Text.splitFrom_append (by exact beq_self_eq_true '/'), List.filter_append]

theorem namesOn_append_slash (a b : String) :
    namesOn (a ++ "/" ++ b) = namesOn a ++ namesOn b := by
  have hpath : a ++ "/" ++ b = String.ofList (a.toList ++ '/' :: b.toList) := by
    apply String.toList_inj.mp
    simp
  rw [hpath, namesOn_ofList_append, String.ofList_toList, String.ofList_toList]

theorem namesOn_single {cs : List Char} (hslash : '/' ∉ cs) (hne : cs ≠ []) :
    namesOn (String.ofList cs) = [String.ofList cs] := by
  have hsplit : Text.splitAt '/' (String.ofList cs) = [String.ofList cs] := by
    rw [Text.splitAt, String.toList_ofList, Text.splitFrom_whole, List.reverse_nil, List.nil_append]
    intro c hc
    exact beq_false_of_ne fun h => hslash (h ▸ hc)
  have hfull : (!(String.ofList cs).isEmpty) = true := by simpa using hne
  rw [namesOn, hsplit, List.filter_cons_of_pos (by exact hfull)]
  rfl

/-! ## Absolute paths -/

theorem endsWith_iff {s t : String} : s.endsWith t = true ↔ t.toList <:+ s.toList := by
  rw [← String.endsWith_toSlice, String.Slice.endsWith_string_iff, String.copy_toSlice]

theorem startsWith_slash (path : String) :
    path.startsWith "/" = true ↔ path.toList.head? = some '/' := by
  rw [String.startsWith_string_iff, show "/".toList = ['/'] from rfl]
  cases path.toList with
  | nil => simp
  | cons c cs => simp [List.cons_prefix_cons, eq_comm]

section Join

variable {directory path : String} (hpath : path.startsWith "/" = false)

include hpath

theorem namesOn_join : namesOn (join directory path) = namesOn directory ++ namesOn path := by
  unfold join
  split
  · next h =>
    have hempty : directory = "" := h.resolve_left (by simp [hpath])
    rw [hempty]
    rfl
  · split
    · next hslash =>
      obtain ⟨stem, hstem⟩ := endsWith_iff.mp hslash
      have hdirectory : directory = String.ofList stem ++ "/" ++ "" := by
        apply String.toList_inj.mp
        simpa using hstem.symm
      have hnone : namesOn "" = [] := rfl
      rw [hdirectory, namesOn_append_slash, hnone, List.append_nil, String.append_empty,
        namesOn_append_slash]
    · exact namesOn_append_slash directory path

theorem startsWith_join :
    (join directory path).startsWith "/" = directory.startsWith "/" := by
  have hhead (more : String) (h : directory ≠ "") :
      (directory ++ more).startsWith "/" = directory.startsWith "/" := by
    rw [Bool.eq_iff_iff, startsWith_slash, startsWith_slash, String.toList_append]
    cases hd : directory.toList with
    | nil => exact absurd (String.toList_eq_nil_iff.mp hd) h
    | cons c cs => rfl
  unfold join
  split
  · next h =>
    rw [h.resolve_left (by simp [hpath]), hpath]
    rfl
  · next h =>
    have hne : directory ≠ "" := fun hd => h (.inr hd)
    split
    · exact hhead path hne
    · rw [String.append_assoc]
      exact hhead _ hne

end Join

/-! ## The directory of a file -/

/-- Names that lead on; a dot stays where it is. -/
def leading (names : List String) : List String := names.filter (· ≠ ".")

theorem leading_append (a b : List String) : leading (a ++ b) = leading a ++ leading b :=
  List.filter_append ..

theorem leading_dropEnd (cs : List Char) :
    leading (namesOn (String.ofList (dropEnd cs).reverse)) =
      leading (namesOn (String.ofList cs.reverse)) := by
  have hslash (rest : List Char) : namesOn (String.ofList ('/' :: rest).reverse) =
      namesOn (String.ofList rest.reverse) := by
    rw [List.reverse_cons, namesOn_ofList_append]
    exact List.append_nil _
  fun_induction dropEnd cs with
  | case1 rest hempty => rw [List.isEmpty_iff.mp hempty]
  | case2 rest hne ih => rw [ih, hslash]
  | case3 rest ih =>
    rw [ih, hslash, List.reverse_cons, List.reverse_cons, List.append_assoc, List.singleton_append,
      namesOn_ofList_append, leading_append]
    exact (List.append_nil _).symm
  | case4 rest hrest => rfl
  | case5 cs hslash hdot => rfl

theorem getLast_dropEnd (cs : List Char) : (dropEnd cs).getLast? = cs.getLast? := by
  fun_induction dropEnd cs with
  | case1 rest hempty => rw [List.isEmpty_iff.mp hempty]
  | case2 rest hne ih =>
    cases rest with
    | nil => exact absurd rfl hne
    | cons c rest => rw [ih, List.getLast?_cons_cons]
  | case3 rest ih => rw [ih, List.getLast?_cons_cons]
  | case4 rest hrest => rfl
  | case5 cs hslash hdot => rfl

/-- What comes before the last name of a path is empty or ends in a slash. -/
theorem exists_stem (cs : List Char) :
    ∃ stem last, cs = stem ++ last ∧ '/' ∉ last ∧ (stem = [] ∨ ∃ front, stem = front ++ ['/']) := by
  refine ⟨(cs.reverse.dropWhile (· != '/')).reverse, (cs.reverse.takeWhile (· != '/')).reverse,
    ?_, ?_, ?_⟩
  · rw [← List.reverse_append, List.takeWhile_append_dropWhile, List.reverse_reverse]
  · intro hmem
    have h := List.all_eq_true.mp (List.all_takeWhile (p := (· != '/'))) _
      (List.mem_reverse.mp hmem)
    simp at h
  · cases hdrop : cs.reverse.dropWhile (· != '/') with
    | nil => exact .inl rfl
    | cons c rest =>
      have hc : c = '/' := by
        have h := List.head?_dropWhile_not (· != '/') cs.reverse
        rw [hdrop] at h
        simpa using h
      exact .inr ⟨rest.reverse, by rw [hc, List.reverse_cons]⟩

theorem dropEnd_name {c : Char} {rest : List Char} (hc : c ≠ '/')
    (hdot : c = '.' → rest.head? ≠ some '/') : dropEnd (c :: rest) = c :: rest := by
  by_cases h : c = '.'
  · subst h
    cases rest with
    | nil => rfl
    | cons d rest =>
      have hd : d ≠ '/' := fun hd => hdot rfl (congrArg some hd)
      simp [dropEnd, hd]
  · simp [dropEnd, hc, h]

section Parent

variable {stem last : List Char} (hslash : '/' ∉ last) (hne : last ≠ []) (hdot : last ≠ ['.'])
  (hstem : stem = [] ∨ ∃ front, stem = front ++ ['/'])

include hslash hne hstem

theorem namesOn_stem : namesOn (String.ofList (stem ++ last)) =
    namesOn (String.ofList stem) ++ [String.ofList last] := by
  obtain rfl | ⟨front, rfl⟩ := hstem
  · exact namesOn_single hslash hne
  · rw [List.append_assoc, List.singleton_append, namesOn_ofList_append,
      namesOn_ofList_append front [], namesOn_single hslash hne]
    exact congrArg (· ++ _) (List.append_nil _).symm

include hdot

theorem parent_stem :
    parent (String.ofList (stem ++ last)) = String.ofList (dropEnd stem.reverse).reverse := by
  have hwhole : dropEnd (stem ++ last).reverse = (stem ++ last).reverse := by
    rw [List.reverse_append]
    cases hlast : last.reverse with
    | nil => exact absurd (List.reverse_eq_nil_iff.mp hlast) hne
    | cons c rest =>
      have hmem : ∀ d ∈ c :: rest, d ≠ '/' := fun d hd h =>
        hslash (List.mem_reverse.mp (hlast ▸ h ▸ hd))
      refine dropEnd_name (hmem c List.mem_cons_self) fun hc => ?_
      cases rest with
      | nil =>
        have hsingle : last = ['.'] := by rw [← List.reverse_reverse last, hlast, hc]; rfl
        exact absurd hsingle hdot
      | cons d rest => exact fun hd => hmem d (by simp) (Option.some.inj hd)
  have hfront : (stem ++ last).reverse.dropWhile (· != '/') = stem.reverse := by
    rw [List.reverse_append, List.dropWhile_append_of_pos]
    · obtain rfl | ⟨front, rfl⟩ := hstem
      · rfl
      · rw [List.reverse_append, List.reverse_singleton, List.singleton_append,
          List.dropWhile_cons_of_neg (by simp)]
    · intro d hd
      exact bne_iff_ne.mpr fun h => hslash (h ▸ List.mem_reverse.mp hd)
  rw [parent, String.toList_ofList, hwhole, hfront]

end Parent

/-- The path of the directory of a file begins where that of the file begins, and leads over the
names before the last. -/
theorem parent_leads {path last : String} {names : List String}
    (hnames : namesOn path = names ++ [last]) (hlast : last ≠ ".")
    (hend : path.endsWith "/" = false) :
    leading (namesOn (parent path)) = leading names ∧
      (parent path).startsWith "/" = path.startsWith "/" := by
  obtain ⟨stem, name, hpath, hslash, hstem⟩ := exists_stem path.toList
  have hpath' : path = String.ofList (stem ++ name) := by rw [← hpath, String.ofList_toList]
  have hne : name ≠ [] := by
    rintro rfl
    rw [List.append_nil] at hpath'
    obtain rfl | ⟨front, rfl⟩ := hstem
    · rw [hpath'] at hnames
      exact absurd hnames.symm (List.append_ne_nil_of_right_ne_nil _ (List.cons_ne_nil _ _))
    · have hslash : ['/'] <:+ path.toList := by
        rw [hpath', String.toList_ofList]
        exact List.suffix_append ..
      have hends : path.endsWith "/" = true := endsWith_iff.mpr hslash
      exact absurd hends (Bool.eq_false_iff.mp hend)
  subst hpath'
  rw [namesOn_stem hslash hne hstem] at hnames
  obtain ⟨rfl, hname⟩ := List.append_inj' hnames rfl
  have hdot : name ≠ ['.'] := fun h => hlast (by rw [← List.head_eq_of_cons_eq hname, h])
  rw [parent_stem hslash hne hdot hstem]
  refine ⟨(leading_dropEnd stem.reverse).trans (by rw [List.reverse_reverse]), ?_⟩
  rw [Bool.eq_iff_iff, startsWith_slash, startsWith_slash, String.toList_ofList,
    String.toList_ofList, List.head?_reverse, getLast_dropEnd, List.getLast?_reverse]
  cases stem with
  | nil =>
    cases name with
    | nil => exact absurd rfl hne
    | cons c cs => simpa using fun h : c = '/' => hslash (h ▸ List.mem_cons_self)
  | cons c cs => rfl

end Files

end FormCompiler
