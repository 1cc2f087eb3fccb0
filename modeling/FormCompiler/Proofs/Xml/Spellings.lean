import FormCompiler.Proofs.Xml.Pieces

/-!
# Spellings of attributes

The attributes of a start tag may be written with blanks around their parts and with either kind of
quotes.  `attributes_spelled` says what is read from such a tag, and `feed_spelled` that the scanner
collects it whole.
-/

namespace FormCompiler.Xml

/-- An attribute as it is written: blanks, its name, an equals sign between blanks, and its value in
quotes, where references still stand for characters. -/
structure Spelling where
  lead : List Char
  name : List Char
  left : List Char
  right : List Char
  quote : Char
  value : List Char

namespace Spelling

/-- The characters from the blanks to the closing quote. -/
def chars (a : Spelling) : List Char :=
  a.lead ++ (a.name ++ (a.left ++ '=' :: (a.right ++ a.quote :: (a.value ++ [a.quote]))))

/-- The spelling follows the rules of start tags. -/
structure Proper (a : Spelling) : Prop where
  lead : a.lead ≠ [] ∧ ∀ c ∈ a.lead, isSpace c = true
  name : a.name ≠ [] ∧ ∀ c ∈ a.name, isSpace c = false ∧ c ≠ '=' ∧ c ≠ '>' ∧ c ≠ '"' ∧ c ≠ '\''
  left : ∀ c ∈ a.left, isSpace c = true
  right : ∀ c ∈ a.right, isSpace c = true
  quote : a.quote = '"' ∨ a.quote = '\''
  value : ∀ c ∈ a.value, c ≠ a.quote

-- As for names, the characters are those of the lists, not all there are.
instance (a : Spelling) : Decidable a.Proper :=
  decidable_of_iff
    ((a.lead ≠ [] ∧ a.lead.all isSpace = true) ∧
      (a.name ≠ [] ∧ a.name.all (fun c =>
        isSpace c = false ∧ c ≠ '=' ∧ c ≠ '>' ∧ c ≠ '"' ∧ c ≠ '\'') = true) ∧
      a.left.all isSpace = true ∧ a.right.all isSpace = true ∧
      (a.quote = '"' ∨ a.quote = '\'') ∧ a.value.all (· ≠ a.quote) = true)
    (by
      simp only [List.all_eq_true, decide_eq_true_eq]
      exact ⟨fun ⟨h1, h2, h3, h4, h5, h6⟩ => ⟨h1, h2, h3, h4, h5, h6⟩,
        fun h => ⟨h.lead, h.name, h.left, h.right, h.quote, h.value⟩⟩)

/-- The name under which the attribute is reported. -/
def reportedName (a : Spelling) : String := String.ofList (localName a.name)

/-- The name and the value that are read, unless there is a bad reference in the value. -/
def reported? (a : Spelling) : Option (String × String) :=
  (unescape a.value).toOption.map fun value => (a.reportedName, value)

theorem reported_names (as : List Spelling) :
    ((as.filterMap reported?).map Prod.fst).Sublist (as.map reportedName) := by
  induction as with
  | nil => exact .slnil
  | cons a as ih =>
    cases h : a.reported? with
    | none =>
      rw [List.filterMap_cons_none h]
      exact ih.cons _
    | some r =>
      obtain ⟨value, _, rfl⟩ := Option.map_eq_some_iff.mp h
      rw [List.filterMap_cons_some h]
      exact ih.cons_cons _

end Spelling

/-! ## Reading -/

section Reading

variable (pos : Nat) (seen : List (List Char × Nat))

/-- Blanks mean nothing before a name, after it and before a value. -/
def AttributeState.skipsBlanks : AttributeState → Bool
  | gap | afterKey .. | beforeValue .. => true
  | key .. | value .. => false

theorem attributesFrom_blanks (state : AttributeState) (hstate : state.skipsBlanks = true)
    (blanks rest : List Char) (h : ∀ c ∈ blanks, isSpace c = true) :
    ∃ pos', attributesFrom pos seen state (blanks ++ rest) =
      attributesFrom pos' seen state rest := by
  induction blanks generalizing pos with
  | nil => exact ⟨pos, rfl⟩
  | cons c blanks ih =>
    obtain ⟨pos', h'⟩ := ih (pos + 1) (fun d hd => h d (List.mem_cons_of_mem c hd))
    have hc := h c (List.mem_cons_self ..)
    have hne : c ≠ '=' := by rintro rfl; exact absurd hc (by decide)
    refine ⟨pos', ?_⟩
    rw [List.cons_append]
    cases state with
    | gap | beforeValue name => rw [attributesFrom, if_pos hc, h']
    | afterKey start name => rw [attributesFrom, if_neg hne, if_pos hc, h']
    | key | value => exact absurd hstate Bool.false_ne_true

theorem attributesFrom_newName (a : Spelling) (ha : a.Proper) (rest : List Char)
    (hseen : a.name ∉ seen.map Prod.fst) :
    ∃ pos' start, attributesFrom pos seen .gap (a.lead ++ (a.name ++ (a.left ++ '=' :: rest))) =
      attributesFrom pos' ((a.name, start) :: seen) (.beforeValue a.name) rest := by
  have hnew : previousPlace? seen a.name = none := by
    rw [previousPlace?, Option.map_eq_none_iff, List.find?_eq_none]
    intro s hs heq
    exact hseen (List.mem_map.mpr ⟨s, hs, beq_iff_eq.mp heq⟩)
  obtain ⟨p1, h1⟩ := attributesFrom_blanks pos seen .gap rfl a.lead
    (a.name ++ (a.left ++ '=' :: rest)) ha.lead.2
  obtain ⟨c, cs, hname⟩ := List.exists_cons_of_ne_nil ha.name.1
  have hchars := ha.name.2
  rw [hname] at h1 hchars hnew ⊢
  have hc : isSpace c = false := (hchars c (List.mem_cons_self ..)).1
  have hcs : ∀ d ∈ cs, isSpace d = false ∧ d ≠ '=' := by
    intro d hd
    obtain ⟨hspace, hequals, _⟩ := hchars d (List.mem_cons_of_mem c hd)
    exact ⟨hspace, hequals⟩
  obtain ⟨p2, h2⟩ := attributesFrom_key (p1 + c.utf8Size) p1 seen [c] cs (a.left ++ '=' :: rest)
    hcs
  have hkey : attributesFrom p1 seen .gap (c :: cs ++ (a.left ++ '=' :: rest)) =
      attributesFrom p2 seen (.key p1 (c :: cs).reverse) (a.left ++ '=' :: rest) := by
    rw [List.cons_append, attributesFrom, hc, List.reverse_cons, ← h2]
    rfl
  rw [h1, hkey]
  -- the equals sign may follow at once or after blanks
  cases hleft : a.left with
  | nil =>
    refine ⟨p2 + 1, p1, ?_⟩
    rw [List.nil_append, attributesFrom, if_pos rfl]
    simp only [List.reverse_reverse, hnew]
  | cons b bs =>
    have hblank := ha.left
    rw [hleft] at hblank
    have hb := hblank b (List.mem_cons_self ..)
    have hne : b ≠ '=' := by rintro rfl; exact absurd hb (by decide)
    obtain ⟨p3, h3⟩ := attributesFrom_blanks (p2 + 1) seen (.afterKey p1 (c :: cs)) rfl bs
      ('=' :: rest) (fun d hd => hblank d (List.mem_cons_of_mem b hd))
    refine ⟨p3 + 1, p1, ?_⟩
    rw [List.cons_append, attributesFrom, if_neg hne, if_pos hb, List.reverse_reverse, h3,
      attributesFrom, if_pos rfl]
    simp only [hnew]

theorem attributesFrom_spelling (a : Spelling) (ha : a.Proper) (rest : List Char)
    (hseen : a.name ∉ seen.map Prod.fst) :
    ∃ pos' start, (attributesFrom pos seen .gap (a.chars ++ rest)).toOption =
      a.reported?.bind fun r =>
        (attributesFrom pos' ((a.name, start) :: seen) .gap rest).toOption.map (r :: ·) := by
  obtain ⟨p1, start, h1⟩ := attributesFrom_newName pos seen a ha
    (a.right ++ a.quote :: (a.value ++ a.quote :: rest)) hseen
  obtain ⟨p2, h2⟩ := attributesFrom_blanks p1 ((a.name, start) :: seen) (.beforeValue a.name) rfl
    a.right (a.quote :: (a.value ++ a.quote :: rest)) ha.right
  obtain ⟨p3, h3⟩ := attributesFrom_value (p2 + 1) ((a.name, start) :: seen) a.name a.quote []
    a.value (a.quote :: rest) ha.value
  have hspace : isSpace a.quote = false := by
    rcases ha.quote with h | h <;> rw [h] <;> rfl
  have hsplit : a.chars ++ rest = a.lead ++ (a.name ++ (a.left ++ '=' ::
      (a.right ++ a.quote :: (a.value ++ a.quote :: rest)))) := by
    simp [Spelling.chars]
  refine ⟨p3 + 1, start, ?_⟩
  rw [hsplit, h1, h2, attributesFrom, hspace, if_pos ha.quote, h3, attributesFrom, if_pos rfl,
    List.append_nil, List.reverse_reverse, Spelling.reported?]
  simp only [Bool.false_eq_true, if_false]
  cases unescape a.value with
  | error fault => rfl
  | ok value =>
    cases attributesFrom (p3 + 1) ((a.name, start) :: seen) .gap rest with
    | error fault => rfl
    | ok more => rfl

theorem attributesFrom_spellings (as : List Spelling) (blanks : List Char)
    (ha : ∀ a ∈ as, a.Proper) (hd : (as.map Spelling.name).Nodup)
    (hseen : ∀ a ∈ as, a.name ∉ seen.map Prod.fst) (hblanks : ∀ c ∈ blanks, isSpace c = true) :
    (attributesFrom pos seen .gap (as.flatMap Spelling.chars ++ blanks)).toOption =
      if as.all (·.reported?.isSome) then some (as.filterMap Spelling.reported?) else none := by
  induction as generalizing pos seen with
  | nil =>
    obtain ⟨p, h⟩ := attributesFrom_blanks pos seen .gap rfl blanks [] hblanks
    rw [List.append_nil] at h
    rw [List.flatMap_nil, List.nil_append, h]
    rfl
  | cons a as ih =>
    rw [List.map_cons, List.nodup_cons] at hd
    obtain ⟨p, start, h⟩ := attributesFrom_spelling pos seen a (ha a (List.mem_cons_self ..))
      (as.flatMap Spelling.chars ++ blanks) (hseen a (List.mem_cons_self ..))
    have hrest : ∀ b ∈ as, b.name ∉ ((a.name, start) :: seen).map Prod.fst := by
      intro b hb hmem
      rcases List.mem_cons.mp hmem with heq | hmem
      · exact hd.1 (List.mem_map.mpr ⟨b, hb, heq⟩)
      · exact hseen b (List.mem_cons_of_mem a hb) hmem
    rw [List.flatMap_cons, List.append_assoc, h,
      ih p _ (fun b hb => ha b (List.mem_cons_of_mem a hb)) hd.2 hrest]
    cases hr : a.reported? with
    | none => simp [hr]
    | some r =>
      simp only [List.all_cons, hr, Option.isSome_some, Bool.true_and, Option.bind_some,
        List.filterMap_cons_some hr]
      split <;> rfl

end Reading

/-! ## Whole tags -/

/-- The name of a start tag: nothing in it ends it or opens quotes, and it is not taken for the
beginning of another kind of markup. -/
structure TagName (name : List Char) : Prop where
  chars : ∀ c ∈ name, isSpace c = false ∧ c ≠ '>' ∧ c ≠ '"' ∧ c ≠ '\''
  first : ∃ c cs, name = c :: cs ∧ c ≠ '!' ∧ c ≠ '/' ∧ c ≠ '?'

instance (name : List Char) : Decidable (TagName name) :=
  decidable_of_iff
    (name.all (fun c => isSpace c = false ∧ c ≠ '>' ∧ c ≠ '"' ∧ c ≠ '\'') = true ∧
      name.head?.any (fun c => c ≠ '!' ∧ c ≠ '/' ∧ c ≠ '?') = true)
    (by
      simp only [List.all_eq_true, decide_eq_true_eq]
      refine ⟨fun ⟨h1, h2⟩ => ⟨h1, ?_⟩, fun h => ⟨h.chars, ?_⟩⟩
      · cases name with
        | nil => exact absurd h2 (by simp)
        | cons c cs => exact ⟨c, cs, rfl, by simpa using h2⟩
      · obtain ⟨c, cs, rfl, hc⟩ := h.first
        simpa using hc)

/-- What stands between the brackets of a start tag. -/
def spelledTag (name : List Char) (as : List Spelling) (blanks : List Char) : List Char :=
  name ++ (as.flatMap Spelling.chars ++ blanks)

theorem blank_plain (c : Char) (h : isSpace c = true) : c ≠ '>' ∧ c ≠ '"' ∧ c ≠ '\'' ∧ c ≠ '/' := by
  refine ⟨?_, ?_, ?_, ?_⟩ <;> · rintro rfl; exact absurd h (by decide)

theorem takeWhile_spelled (name : List Char) (hn : TagName name) (as : List Spelling)
    (blanks : List Char) (ha : ∀ a ∈ as, a.Proper) (hb : ∀ c ∈ blanks, isSpace c = true) :
    (spelledTag name as blanks).takeWhile (!isSpace ·) = name := by
  have hname : ∀ c ∈ name, (!isSpace c) = true := by
    intro c hc
    rw [(hn.chars c hc).1]
    rfl
  have hrest : ∀ c ∈ (as.flatMap Spelling.chars ++ blanks).head?, isSpace c = true := by
    cases as with
    | nil => exact fun c hc => hb c (List.mem_of_mem_head? hc)
    | cons a as =>
      obtain ⟨hne, hlead⟩ := (ha a (List.mem_cons_self ..)).lead
      obtain ⟨b, bs, hbs⟩ := List.exists_cons_of_ne_nil hne
      intro c hc
      rw [List.flatMap_cons, Spelling.chars, hbs] at hc
      simp only [List.cons_append, List.head?_cons, Option.mem_some_iff] at hc
      exact hc ▸ hlead b (hbs ▸ List.mem_cons_self ..)
  rw [spelledTag, List.takeWhile_append_of_pos hname]
  cases hcs : as.flatMap Spelling.chars ++ blanks with
  | nil => simp
  | cons c cs => simp [hrest c (by rw [hcs]; rfl)]

/-- The attributes of a start tag are those spelled in it, unless one has a bad reference. -/
theorem attributes_spelled (name : List Char) (hn : TagName name) (as : List Spelling)
    (blanks : List Char) (ha : ∀ a ∈ as, a.Proper) (hd : (as.map Spelling.name).Nodup)
    (hb : ∀ c ∈ blanks, isSpace c = true) :
    (attributes (spelledTag name as blanks)).toOption =
      if as.all (·.reported?.isSome) then some (as.filterMap Spelling.reported?) else none := by
  simp only [attributes, takeWhile_spelled name hn as blanks ha hb]
  rw [spelledTag, List.drop_left]
  exact attributesFrom_spellings _ [] as blanks ha hd (fun _ _ => by simp) hb

namespace Scanner

theorem feed_spelling (a : Spelling) (ha : a.Proper) (chars : List Char) (off : Nat)
    (names : List (List Char)) :
    ∃ off', feed ⟨.element chars none, off, names⟩ a.chars =
      (⟨.element (a.chars.reverse ++ chars) none, off', names⟩, []) := by
  have hplain : ∀ c ∈ a.lead ++ (a.name ++ (a.left ++ '=' :: a.right)),
      c ≠ '>' ∧ c ≠ '"' ∧ c ≠ '\'' := by
    have hblank : ∀ c, isSpace c = true → c ≠ '>' ∧ c ≠ '"' ∧ c ≠ '\'' := fun c hc =>
      ⟨(blank_plain c hc).1, (blank_plain c hc).2.1, (blank_plain c hc).2.2.1⟩
    intro c hc
    simp only [List.mem_append, List.mem_cons] at hc
    rcases hc with hc | hc | hc | rfl | hc
    · exact hblank c (ha.lead.2 c hc)
    · exact (ha.name.2 c hc).2.2
    · exact hblank c (ha.left c hc)
    · decide
    · exact hblank c (ha.right c hc)
  have hopen : ∀ cs off, ∃ off', feed ⟨.element cs none, off, names⟩ [a.quote] =
      (⟨.element (a.quote :: cs) (some a.quote), off', names⟩, []) := by
    intro cs off
    refine ⟨off + a.quote.utf8Size, ?_⟩
    rcases ha.quote with h | h <;> rw [h] <;> rfl
  have hclose : ∀ cs off, feed ⟨.element cs (some a.quote), off, names⟩ [a.quote] =
      (⟨.element (a.quote :: cs) none, off + a.quote.utf8Size, names⟩, []) := by
    intro cs off
    simp [feed, step]
  have hsplit : a.chars = (a.lead ++ (a.name ++ (a.left ++ '=' :: a.right))) ++
      ([a.quote] ++ (a.value ++ [a.quote])) := by
    simp [Spelling.chars]
  obtain ⟨o, ho⟩ := hopen ((a.lead ++ (a.name ++ (a.left ++ '=' :: a.right))).reverse ++ chars)
    (off + Text.byteLength (a.lead ++ (a.name ++ (a.left ++ '=' :: a.right))))
  refine ⟨o + Text.byteLength a.value + a.quote.utf8Size, ?_⟩
  rw [hsplit, feed_append, feed_plain _ _ _ _ hplain, feed_append, ho, feed_append,
    feed_quoted _ _ _ _ _ ha.value, hclose]
  simp

theorem feed_spellings (as : List Spelling) (ha : ∀ a ∈ as, a.Proper) (chars : List Char)
    (off : Nat) (names : List (List Char)) :
    ∃ off', feed ⟨.element chars none, off, names⟩ (as.flatMap Spelling.chars) =
      (⟨.element ((as.flatMap Spelling.chars).reverse ++ chars) none, off', names⟩, []) := by
  induction as generalizing chars off with
  | nil => exact ⟨off, rfl⟩
  | cons a as ih =>
    obtain ⟨o1, h1⟩ := feed_spelling a (ha a (List.mem_cons_self ..)) chars off names
    obtain ⟨o2, h2⟩ := ih (fun b hb => ha b (List.mem_cons_of_mem a hb)) (a.chars.reverse ++ chars)
      o1
    refine ⟨o2, ?_⟩
    rw [List.flatMap_cons, feed_append, h1, h2]
    simp

theorem feed_spelled (name : List Char) (hn : TagName name) (as : List Spelling)
    (blanks : List Char) (ha : ∀ a ∈ as, a.Proper) (hb : ∀ c ∈ blanks, isSpace c = true)
    (off : Nat) (names : List (List Char)) :
    ∃ off', feed ⟨.opened, off, names⟩ (spelledTag name as blanks) =
      (⟨.element (spelledTag name as blanks).reverse none, off', names⟩, []) := by
  obtain ⟨c, cs, rfl, h1, h2, h3⟩ := hn.first
  obtain ⟨_, h4, h5, h6⟩ := hn.chars c (List.mem_cons_self ..)
  have hfirst : step ⟨.opened, off + c.utf8Size, names⟩ c =
      (⟨.element [c] none, off + c.utf8Size, names⟩, []) := by
    simp [step, h1, h2, h3, h4, h5, h6]
  have hcs : ∀ d ∈ cs, d ≠ '>' ∧ d ≠ '"' ∧ d ≠ '\'' := fun d hd =>
    (hn.chars d (List.mem_cons_of_mem c hd)).2
  have hblanks : ∀ d ∈ blanks, d ≠ '>' ∧ d ≠ '"' ∧ d ≠ '\'' := fun d hd =>
    ⟨(blank_plain d (hb d hd)).1, (blank_plain d (hb d hd)).2.1, (blank_plain d (hb d hd)).2.2.1⟩
  obtain ⟨o, ho⟩ := feed_spellings as ha (cs.reverse ++ [c])
    (off + c.utf8Size + Text.byteLength cs) names
  refine ⟨o + Text.byteLength blanks, ?_⟩
  rw [spelledTag, List.cons_append, feed_cons _ _ _ _ _ hfirst, feed_append,
    feed_plain [c] cs _ names hcs, feed_append, ho, feed_plain _ _ _ _ hblanks]
  simp

theorem last_of_spelled (name : List Char) (as : List Spelling) (blanks : List Char)
    (ha : ∀ a ∈ as, a.Proper) (hb : ∀ c ∈ blanks, isSpace c = true) (hne : as ≠ []) :
    ∃ c cs, (spelledTag name as blanks).reverse = c :: cs ∧ c ≠ '/' := by
  cases hblanks : blanks.reverse with
  | cons c cs =>
    have hc := hb c (List.mem_reverse.mp (hblanks ▸ List.mem_cons_self ..))
    exact ⟨c, cs ++ (name ++ as.flatMap Spelling.chars).reverse, by simp [spelledTag, hblanks],
      (blank_plain c hc).2.2.2⟩
  | nil =>
    -- the last character is the closing quote of the last attribute
    let a := as.getLast hne
    have hquote : a.quote ≠ '/' := by
      rcases (ha a (List.getLast_mem hne)).quote with h | h <;> rw [h] <;> decide
    have hflat : as.flatMap Spelling.chars =
        as.dropLast.flatMap Spelling.chars ++ (a.lead ++ (a.name ++ (a.left ++ '=' :: (a.right ++
          a.quote :: a.value)))) ++ [a.quote] := by
      rw [← List.dropLast_concat_getLast hne]
      simp [Spelling.chars, a]
    rw [List.reverse_eq_nil_iff] at hblanks
    rw [spelledTag, hflat, hblanks, List.append_nil, ← List.append_assoc, List.reverse_append]
    exact ⟨a.quote, _, rfl, hquote⟩

theorem startToken_spelled (name : List Char) (hn : TagName name) (as : List Spelling)
    (blanks : List Char) (ha : ∀ a ∈ as, a.Proper) (hb : ∀ c ∈ blanks, isSpace c = true) :
    startToken (spelledTag name as blanks) =
      .start (Text.lowercase (String.ofList (localName name)))
        (attributes (spelledTag name as blanks)) := by
  rw [startToken, takeWhile_spelled name hn as blanks ha hb]

/-- The tokens of a document from a tag with attributes on: what comes after the start tag does not
depend on the attributes. -/
theorem run_spelled {mode : Mode} (hmode : Outside mode) (offset : Nat) (names : List (List Char))
    (name : List Char) (hn : TagName name) (blanks closing rest : List Char)
    (hb : ∀ c ∈ blanks, isSpace c = true) (hclosing : closing = ['>'] ∨ closing = ['/', '>']) :
    ∃ more, ∀ as : List Spelling, as ≠ [] → (∀ a ∈ as, a.Proper) →
      (run ⟨mode, offset, names⟩ ('<' :: (spelledTag name as blanks ++ (closing ++ rest)))).map
          Located.token =
        unread mode ++ startToken (spelledTag name as blanks) :: more := by
  rcases hclosing with rfl | rfl
  · refine ⟨(run ⟨.between, 0, name :: names⟩ rest).map Located.token, fun as hne ha => ?_⟩
    obtain ⟨o, ho⟩ := feed_spelled name hn as blanks ha hb (offset + 1) names
    obtain ⟨c, cs, hlast, hc⟩ := last_of_spelled name as blanks ha hb hne
    rw [← List.append_assoc, run_markup offset hmode, feed_opening ho hlast hc,
      takeWhile_spelled name hn as blanks ha hb]
    exact congrArg (unread mode ++ startToken (spelledTag name as blanks) :: ·)
      (moved_run ⟨.between, 0, name :: names⟩ (o + 1) rest)
  · refine ⟨.stop :: (run ⟨.between, 0, names⟩ rest).map Located.token, fun as hne ha => ?_⟩
    obtain ⟨o, ho⟩ := feed_spelled name hn as blanks ha hb (offset + 1) names
    rw [← List.append_assoc, run_markup offset hmode, feed_closed ho]
    exact congrArg (unread mode ++ startToken (spelledTag name as blanks) :: .stop :: ·)
      (moved_run ⟨.between, 0, names⟩ (o + 2) rest)

end Scanner

end FormCompiler.Xml
