import FormCompiler.Header.Images
import FormCompiler.Proofs.Code.Initializers

/-!
# Images in source form

The rows of an image in source form are string literals.  In a header they are broken where they
grow too long, and in a file of its own an image keeps them as they are.  The two arrays hold the
same strings exactly where the breaks fall inside the literals and not into an escape.  What tells a
literal from the text around it is the number of quotes before it, and a quote in an escape or in a
comment counts too: without those every break is good (`absorbs_cuts`).
-/

namespace FormCompiler.Header

open Code.Initializer

/-! ## Breaks -/

/-- The characters of rows, each with whether a break follows it. -/
def cuts (column : Nat) (inQuote : Bool) : List Char → List (Char × Bool)
  | [] => []
  | c :: cs =>
    let inQuote := if c = '"' then !inQuote else inQuote
    let column := (if c = '\n' then 0 else column) + 1
    let breaks := rowLimit ≤ column && inQuote
    (c, breaks) :: cuts (if breaks then 1 else column) inQuote cs

theorem map_cuts (column : Nat) (inQuote : Bool) (cs : List Char) :
    (cuts column inQuote cs).map (·.1) = cs := by
  induction cs generalizing column inQuote with
  | nil => rfl
  | cons c cs ih => simp only [cuts, List.map_cons, ih]

theorem withBreaks_cuts (column : Nat) (inQuote : Bool) (cs : List Char) :
    withBreaks (cuts column inQuote cs) = breakRows column inQuote cs := by
  induction cs generalizing column inQuote with
  | nil => rfl
  | cons c cs ih =>
    simp only [cuts, breakRows, withBreaks_cons, ih]
    generalize (decide (rowLimit ≤ _) && _) = breaks
    cases breaks <;> rfl

/-- In a tame text every break falls inside a literal: the quotes before it are as many as the
literals opened and closed. -/
theorem absorbs_cuts {q : Reader} {cs tail : List Char} (column : Nat) (htail : tail ≠ [])
    (htame : q.tame (cs ++ tail) = true) (hq : q.unescaped = true) :
    everyBreak Reader.absorbs q (cuts column (q == .inside) cs ++ tail.map (·, false)) = true := by
  induction cs generalizing q column with
  | nil => exact everyBreak_unbroken _ q tail
  | cons c cs ih =>
    cases hstep : q.step c with
    | none => rw [cuts, List.cons_append, everyBreak, hstep]
    | some r =>
      obtain ⟨out, next⟩ := r
      obtain ⟨htame, hnext, hinside⟩ := Reader.tame_cons htame hq hstep
      have hflag : (if c = '"' then !(q == .inside) else q == .inside) = (next == .inside) := by
        rw [Bool.eq_iff_iff, beq_iff_eq, hinside]
        split <;> simp
      simp only [cuts, List.cons_append, hflag]
      refine (everyBreak_cons hstep).mpr ⟨fun hbreaks => ?_, ih _ htame hnext⟩
      obtain rfl : next = .inside := by
        rw [Bool.and_eq_true, beq_iff_eq] at hbreaks
        exact hbreaks.2
      obtain ⟨⟨d, b⟩, more, hrest⟩ := List.exists_cons_of_ne_nil
        (List.append_ne_nil_of_right_ne_nil (cuts _ (Reader.inside == .inside) cs)
          (mt List.map_eq_nil_iff.mp htail))
      exact ⟨d, b, more, hrest, rfl⟩

/-! ## Arrays -/

/-- The text of an array up to its rows. -/
def arrayHead (indent : String) (i : Image) : String :=
  indent ++ "/* XPM */\n" ++
    indent ++ "static const char* const " ++ dataName i.name ++ "[] = \x7b \n"

/-- The text of an array behind its rows. -/
def arrayTail (i : Image) : List Char :=
  (if isClosed (rows i) then [] else arrayEnd) ++ ['\n', '\n']

/-- The rows of an image and the rest of its array, with the breaks that a header has in them. -/
def brokenRows (i : Image) : List (Char × Bool) :=
  cuts 0 false (rows i) ++ (arrayTail i).map (·, false)

theorem imageText_source {i : Image} (hsource : i.isSourceText = true) (indent : String)
    (breaksRows : Bool) :
    imageText indent breaksRows i = arrayHead indent i ++ String.ofList
      ((if breaksRows then breakRows 0 false (rows i) else rows i) ++ arrayTail i) := by
  have htail : String.ofList (arrayTail i) =
      (if isClosed (rows i) then "" else String.ofList arrayEnd) ++ "\n\n" := by
    rw [arrayTail, String.ofList_append]
    split <;> rfl
  rw [imageText, if_pos hsource, String.ofList_append, htail]
  simp only [arrayHead, String.append_assoc]

/-- A text is a declaration of an array of strings: behind this head it goes on with them. -/
def Declares (text head : String) (values : List (List UInt8)) : Prop :=
  ∃ body, text = head ++ String.ofList body ∧ Initializes body values

theorem declares_append_iff {head : String} {body : List Char} {values : List (List UInt8)} :
    Declares (head ++ String.ofList body) head values ↔ Initializes body values := by
  constructor
  · rintro ⟨body', heq, hbody'⟩
    rw [String.append_right_inj, String.ofList_inj] at heq
    rwa [heq]
  · exact fun hbody => ⟨body, rfl, hbody⟩

/-- A condition on every break in the rows of an image: on where a reader of the rows without the
breaks stands, and on the character behind the break. -/
def EveryBreak (P : Reader → Char → Bool) (i : Image) : Prop :=
  everyBreak P (.gap .start) (brokenRows i) = true

theorem map_brokenRows (i : Image) : (brokenRows i).map (·.1) = rows i ++ arrayTail i := by
  have hunbroken (cs : List Char) : (cs.map (·, false)).map (·.1) = cs := by
    rw [List.map_map]
    exact List.map_id cs
  rw [brokenRows, List.map_append, map_cuts, hunbroken]

theorem withBreaks_brokenRows (i : Image) :
    withBreaks (brokenRows i) = breakRows 0 false (rows i) ++ arrayTail i := by
  have happend (a b : List (Char × Bool)) : withBreaks (a ++ b) = withBreaks a ++ withBreaks b :=
    List.flatMap_append
  have hunbroken (cs : List Char) : withBreaks (cs.map (·, false)) = cs := by
    induction cs with
    | nil => rfl
    | cons c cs ih => rw [List.map_cons, withBreaks_cons, ih]; rfl
  rw [brokenRows, happend, withBreaks_cuts, hunbroken]

/-- The array of an image in a header, where rows are broken, has the strings of the array in which
they are not, exactly if a reader absorbs each break.  That is so for a tame image.  A break in a
comment can undo its end, and then the next comment decides. -/
theorem imageText_keeps_rows_iff {i : Image} {values : List (List UInt8)} (indent indent' : String)
    (hsource : i.isSourceText = true)
    (hrows : Declares (imageText indent' false i) (arrayHead indent' i) values) :
    let keepsRows := Declares (imageText indent true i) (arrayHead indent i) values
    (EveryBreak (!·.unsettled ·) i → (keepsRows ↔ EveryBreak Reader.absorbs i)) ∧
      (EveryBreak Reader.absorbs i → keepsRows) ∧
      ((Reader.gap .start).tame (rows i ++ arrayTail i) = true → keepsRows) := by
  rw [imageText_source hsource, declares_append_iff] at hrows
  have hread : (Reader.gap .start).read ((brokenRows i).map (·.1)) = some (marks values) := by
    rw [map_brokenRows]
    exact hrows
  have hkeeps : Declares (imageText indent true i) (arrayHead indent i) values ↔
      (Reader.gap .start).read (withBreaks (brokenRows i)) = some (marks values) := by
    rw [imageText_source hsource, declares_append_iff, withBreaks_brokenRows]
    rfl
  simp only [hkeeps]
  refine ⟨fun hsettled => ⟨fun hread' => ?_, ?_⟩, ?_, fun htame => ?_⟩
  · exact absorbs_of_read_withBreaks hread hread' hsettled
  · exact read_withBreaks hread
  · exact read_withBreaks hread
  · exact read_withBreaks hread (absorbs_cuts 0 (by simp [arrayTail]) htame rfl)

/-- An image of one row, whose last character is an escape that begins in this column. -/
def escapedAt (column : Nat) : Image :=
  ⟨some "row", "XPM.GZ", 0x22 :: List.replicate (column - 2) 0x61 ++ [0x5c, 0x6e, 0x22]⟩

/-- An escape behind which a row is broken is kept, and one that is broken itself is not. -/
theorem imageText_keeps_rows_iff_escaped :
    let declares (column : Nat) (indent : String) (breaksRows : Bool) :=
      Declares (imageText indent breaksRows (escapedAt column))
        (arrayHead indent (escapedAt column)) [List.replicate (column - 2) 0x61 ++ [0x0a]]
    (declares 511 "" false ∧ declares 511 "    " true) ∧
      declares 512 "" false ∧ ¬declares 512 "    " true := by
  intro declares
  have hsource (column : Nat) : (escapedAt column).isSourceText = true := beq_self_eq_true _
  -- The rows as a list of characters, on which the reader can be run.
  have htext : ∀ column ∈ [511, 512], rows (escapedAt column) =
      '"' :: List.replicate (column - 2) 'a' ++ ['\\', 'n', '"'] := by
    simp only [rows, Text.decodeLossy, String.toList_ofList]
    decide +kernel
  have hopen : ∀ column ∈ [511, 512], isClosed
      ('"' :: List.replicate (column - 2) 'a' ++ ['\\', 'n', '"']) = false := by
    decide +kernel
  have hrows : ∀ column ∈ [511, 512], declares column "" false := by
    intro column hcolumn
    rw [show declares column "" false = Declares _ _ _ from rfl, imageText_source (hsource column),
      declares_append_iff, arrayTail, htext column hcolumn, hopen column hcolumn]
    revert column
    unfold Initializes
    decide +kernel
  have hkeeps (column : Nat) (hcolumn : column ∈ [511, 512]) :=
    imageText_keeps_rows_iff "    " "" (hsource column) (hrows column hcolumn)
  refine ⟨⟨hrows 511 (by decide), (hkeeps 511 (by decide)).2.1 ?_⟩, hrows 512 (by decide), ?_⟩
  · rw [EveryBreak, brokenRows, arrayTail, htext 511 (by decide), hopen 511 (by decide)]
    decide +kernel
  · rw [show declares 512 "    " true = Declares _ _ _ from rfl, (hkeeps 512 (by decide)).1 ?_] <;>
      rw [EveryBreak, brokenRows, arrayTail, htext 512 (by decide), hopen 512 (by decide)] <;>
      decide +kernel

end FormCompiler.Header
