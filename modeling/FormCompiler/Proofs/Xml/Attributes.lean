import FormCompiler.Proofs.Xml.Markup

/-!
# Escaped text and attributes are read back

`unescape_escaped` undoes the escaping of a text.  `attributes_written` reads the attributes of a
start tag from the text that was written for them: the local names and the values come back in
order, whatever the values are.
-/

namespace FormCompiler.Xml

/-! ## Escaped characters -/

/-- The characters that stand for a text in a document. -/
def escaped (cs : List Char) : List Char := cs.flatMap escapeChar

@[simp] theorem escaped_nil : escaped [] = [] := rfl

theorem escaped_cons (c : Char) (cs : List Char) : escaped (c :: cs) = escapeChar c ++ escaped cs :=
  List.flatMap_cons

theorem escaped_append (as bs : List Char) : escaped (as ++ bs) = escaped as ++ escaped bs :=
  List.flatMap_append

theorem toList_escape (s : String) : (escape s).toList = escaped s.toList := String.toList_ofList

/-- A character that is escaped becomes a reference; what is left of its own is none of the marks
of a tag. -/
theorem escapeChar_cases (c : Char) :
    escapeChar c = [c] ∧ c ≠ '<' ∧ c ≠ '>' ∧ c ≠ '&' ∧ c ≠ '\'' ∧ c ≠ '"' ∨
      (c = '<' ∧ escapeChar c = ['&', 'l', 't', ';']) ∨
      (c = '>' ∧ escapeChar c = ['&', 'g', 't', ';']) ∨
      (c = '&' ∧ escapeChar c = ['&', 'a', 'm', 'p', ';']) ∨
      (c = '\'' ∧ escapeChar c = ['&', 'a', 'p', 'o', 's', ';']) ∨
      (c = '"' ∧ escapeChar c = ['&', 'q', 'u', 'o', 't', ';']) := by
  by_cases h1 : c = '<'
  · subst h1; exact .inr (.inl ⟨rfl, rfl⟩)
  by_cases h2 : c = '>'
  · subst h2; exact .inr (.inr (.inl ⟨rfl, rfl⟩))
  by_cases h3 : c = '&'
  · subst h3; exact .inr (.inr (.inr (.inl ⟨rfl, rfl⟩)))
  by_cases h4 : c = '\''
  · subst h4; exact .inr (.inr (.inr (.inr (.inl ⟨rfl, rfl⟩))))
  by_cases h5 : c = '"'
  · subst h5; exact .inr (.inr (.inr (.inr (.inr ⟨rfl, rfl⟩))))
  exact .inl ⟨by rw [escapeChar, if_neg h1, if_neg h2, if_neg h3, if_neg h4, if_neg h5],
    h1, h2, h3, h4, h5⟩

theorem escapeChar_ne_nil (c : Char) : escapeChar c ≠ [] := by
  rcases escapeChar_cases c with ⟨e, _⟩ | ⟨_, e⟩ | ⟨_, e⟩ | ⟨_, e⟩ | ⟨_, e⟩ | ⟨_, e⟩ <;>
    simp [e]

theorem escaped_eq_nil (cs : List Char) : escaped cs = [] ↔ cs = [] := by
  cases cs with
  | nil => simp
  | cons c cs => simp [escaped_cons, escapeChar_ne_nil]

theorem mem_escapeChar (c d : Char) (h : d ∈ escapeChar c) : d ≠ '<' ∧ d ≠ '"' := by
  rcases escapeChar_cases c with ⟨e, h1, _, _, _, h5⟩ | ⟨_, e⟩ | ⟨_, e⟩ | ⟨_, e⟩ | ⟨_, e⟩ | ⟨_, e⟩
  · rw [e, List.mem_singleton] at h
    subst h
    exact ⟨h1, h5⟩
  all_goals
    rw [e] at h
    simp only [List.mem_cons, List.not_mem_nil, or_false] at h
    constructor <;> rintro rfl <;> revert h <;> decide

/-- No markup begins and no quoted value ends inside escaped text. -/
theorem mem_escaped (cs : List Char) (d : Char) (h : d ∈ escaped cs) : d ≠ '<' ∧ d ≠ '"' := by
  obtain ⟨c, _, hd⟩ := List.mem_flatMap.mp h
  exact mem_escapeChar c d hd

/-! ## Unescaping -/

theorem unescapeFrom_plain (total pos : Nat) (c : Char) (rest : List Char) (hc : c ≠ '&') :
    unescapeFrom total pos none (c :: rest) =
      (unescapeFrom total (pos + c.utf8Size) none rest).map (c :: ·) := by
  rw [unescapeFrom, if_neg hc]

/-- An escaped character is read as itself, at whatever place it stands. -/
theorem unescapeFrom_escapeChar (total pos : Nat) (c : Char) (rest : List Char) :
    ∃ pos', unescapeFrom total pos none (escapeChar c ++ rest) =
      (unescapeFrom total pos' none rest).map (c :: ·) := by
  rcases escapeChar_cases c with ⟨e, _, _, h3, _⟩ | ⟨rfl, e⟩ | ⟨rfl, e⟩ | ⟨rfl, e⟩ | ⟨rfl, e⟩ |
    ⟨rfl, e⟩
  · exact ⟨_, by rw [e]; exact unescapeFrom_plain total pos c rest h3⟩
  all_goals
    rw [e]
    exact ⟨_, rfl⟩

theorem unescapeFrom_escaped (total pos : Nat) (cs : List Char) :
    unescapeFrom total pos none (escaped cs) = .ok cs := by
  induction cs generalizing pos with
  | nil => rfl
  | cons c cs ih =>
    obtain ⟨pos', h⟩ := unescapeFrom_escapeChar total pos c (escaped cs)
    rw [escaped_cons, h, ih]
    rfl

theorem unescape_escaped (s : String) : unescape (escaped s.toList) = .ok s := by
  rw [unescape, unescapeFrom_escaped]
  exact congrArg Except.ok String.ofList_toList

/-! ## The text of attributes -/

/-- The characters of the attributes of a start tag. -/
def attributesText : List (String × String) → List Char
  | [] => []
  | a :: rest => ' ' :: a.1.toList ++ '=' :: '"' :: escaped a.2.toList ++ '"' :: attributesText rest

/-- A character that may stand in the name of a tag or an attribute. -/
def isNameChar (c : Char) : Bool :=
  !isSpace c && c != '<' && c != '>' && c != '/' && c != '!' && c != '?' && c != '=' && c != '"' &&
    c != '\''

/-- A name that needs no quotes: not empty, and of characters that mean nothing to a scanner. -/
def IsName (name : String) : Prop := name.toList ≠ [] ∧ ∀ c ∈ name.toList, isNameChar c = true

-- The characters are those of the list: an instance found by search may run over all characters.
instance (name : String) : Decidable (IsName name) :=
  decidable_of_iff (name.toList ≠ [] ∧ name.toList.all isNameChar = true) (by simp [IsName])

theorem nameChar_facts (c : Char) (h : isNameChar c = true) :
    isSpace c = false ∧ c ≠ '>' ∧ c ≠ '/' ∧ c ≠ '!' ∧ c ≠ '?' ∧ c ≠ '=' ∧ c ≠ '"' ∧ c ≠ '\'' := by
  simp only [isNameChar, Bool.and_eq_true, Bool.not_eq_true', bne_iff_ne, ne_eq] at h
  obtain ⟨⟨⟨⟨⟨⟨⟨⟨h1, _⟩, h3⟩, h4⟩, h5⟩, h6⟩, h7⟩, h8⟩, h9⟩ := h
  exact ⟨h1, h3, h4, h5, h6, h7, h8, h9⟩

/-! ## Reading attributes -/

/-- Characters that a state of the reader only collects. -/
theorem attributesFrom_collects (seen : List (List Char × Nat)) (state : List Char → AttributeState)
    (cs rest : List Char)
    (h : ∀ c ∈ cs, ∀ pos chars rest, attributesFrom pos seen (state chars) (c :: rest) =
      attributesFrom (pos + c.utf8Size) seen (state (c :: chars)) rest) (pos : Nat)
    (chars : List Char) :
    ∃ pos', attributesFrom pos seen (state chars) (cs ++ rest) =
      attributesFrom pos' seen (state (cs.reverse ++ chars)) rest := by
  induction cs generalizing pos chars with
  | nil => exact ⟨pos, rfl⟩
  | cons c cs ih =>
    obtain ⟨pos', h'⟩ := ih (fun d hd => h d (List.mem_cons_of_mem c hd)) (pos + c.utf8Size)
      (c :: chars)
    refine ⟨pos', ?_⟩
    rw [List.cons_append, h c (List.mem_cons_self ..), h']
    simp

theorem attributesFrom_value (pos : Nat) (seen : List (List Char × Nat)) (name : List Char)
    (quote : Char) (chars cs rest : List Char) (h : ∀ c ∈ cs, c ≠ quote) :
    ∃ pos', attributesFrom pos seen (.value name quote chars) (cs ++ rest) =
      attributesFrom pos' seen (.value name quote (cs.reverse ++ chars)) rest :=
  attributesFrom_collects seen (.value name quote) cs rest
    (fun c hc _ _ _ => by rw [attributesFrom, if_neg (h c hc)]) pos chars

theorem attributesFrom_key (pos start : Nat) (seen : List (List Char × Nat))
    (chars cs rest : List Char) (h : ∀ c ∈ cs, isSpace c = false ∧ c ≠ '=') :
    ∃ pos', attributesFrom pos seen (.key start chars) (cs ++ rest) =
      attributesFrom pos' seen (.key start (cs.reverse ++ chars)) rest :=
  attributesFrom_collects seen (.key start) cs rest
    (fun c hc _ _ _ => by simp [attributesFrom, h c hc]) pos chars

theorem attributesFrom_equals (pos : Nat) (seen : List (List Char × Nat)) (name : String)
    (rest : List Char) (hn : IsName name) :
    ∃ pos' start,
      (previousPlace? seen name.toList = none →
        attributesFrom pos seen .gap (' ' :: name.toList ++ '=' :: rest) =
          attributesFrom pos' ((name.toList, start) :: seen) (.beforeValue name.toList) rest) ∧
      ∀ previous, previousPlace? seen name.toList = some previous →
        attributesFrom pos seen .gap (' ' :: name.toList ++ '=' :: rest) =
          .error (.badAttribute (.duplicated start previous)) := by
  obtain ⟨hne, hall⟩ := hn
  cases hcs : name.toList with
  | nil => exact absurd hcs hne
  | cons c cs =>
    rw [hcs] at hall
    obtain ⟨hs, _⟩ := nameChar_facts c (hall c (List.mem_cons_self ..))
    have hrest : ∀ d ∈ cs, isSpace d = false ∧ d ≠ '=' := by
      intro d hd
      obtain ⟨hd1, _, _, _, _, hd2, _⟩ := nameChar_facts d (hall d (List.mem_cons_of_mem c hd))
      exact ⟨hd1, hd2⟩
    obtain ⟨pos', h'⟩ := attributesFrom_key (pos + 1 + c.utf8Size) (pos + 1) seen [c] cs
      ('=' :: rest) hrest
    have hspace : isSpace ' ' = true := rfl
    refine ⟨pos' + 1, pos + 1, ?_⟩
    rw [List.cons_append, List.cons_append, attributesFrom, if_pos hspace, attributesFrom, hs]
    simp only [Bool.false_eq_true, if_false]
    rw [h', attributesFrom, if_pos rfl]
    constructor
    · intro hprev
      simp [hprev]
    · intro previous hprev
      simp [hprev]

theorem attributesFrom_name (pos : Nat) (seen : List (List Char × Nat)) (name : String)
    (rest : List Char) (hn : IsName name) (hseen : name.toList ∉ seen.map Prod.fst) :
    ∃ pos' start, attributesFrom pos seen .gap (' ' :: name.toList ++ '=' :: rest) =
      attributesFrom pos' ((name.toList, start) :: seen) (.beforeValue name.toList) rest := by
  obtain ⟨pos', start, hnew, _⟩ := attributesFrom_equals pos seen name rest hn
  refine ⟨pos', start, hnew ?_⟩
  rw [previousPlace?, Option.map_eq_none_iff, List.find?_eq_none]
  intro s hs heq
  exact hseen (List.mem_map.mpr ⟨s, hs, beq_iff_eq.mp heq⟩)

theorem attributesFrom_repeated (pos : Nat) (seen : List (List Char × Nat)) (name : String)
    (rest : List Char) (hn : IsName name) (hseen : name.toList ∈ seen.map Prod.fst) :
    ∃ start previous, attributesFrom pos seen .gap (' ' :: name.toList ++ '=' :: rest) =
      .error (.badAttribute (.duplicated start previous)) := by
  obtain ⟨pos', start, _, hold⟩ := attributesFrom_equals pos seen name rest hn
  obtain ⟨s, hs, hname⟩ := List.mem_map.mp hseen
  have hprev : (previousPlace? seen name.toList).isSome := by
    rw [previousPlace?, Option.isSome_map, List.find?_isSome]
    exact ⟨s, hs, beq_iff_eq.mpr hname⟩
  obtain ⟨previous, hprevious⟩ := Option.isSome_iff_exists.mp hprev
  exact ⟨start, previous, hold previous hprevious⟩

theorem attributesFrom_attribute (pos : Nat) (seen : List (List Char × Nat)) (a : String × String)
    (rest : List Char) (hn : IsName a.1) (hseen : a.1.toList ∉ seen.map Prod.fst) :
    ∃ pos' start, attributesFrom pos seen .gap
        (' ' :: a.1.toList ++ '=' :: '"' :: escaped a.2.toList ++ '"' :: rest) =
      (attributesFrom pos' ((a.1.toList, start) :: seen) .gap rest).map (reported a :: ·) := by
  obtain ⟨p1, start, h1⟩ := attributesFrom_name pos seen a.1
    ('"' :: escaped a.2.toList ++ '"' :: rest) hn hseen
  obtain ⟨p2, h2⟩ := attributesFrom_value (p1 + 1) ((a.1.toList, start) :: seen) a.1.toList '"' []
    (escaped a.2.toList) ('"' :: rest) (fun c hc => (mem_escaped _ c hc).2)
  have hquote : isSpace '"' = false := rfl
  refine ⟨p2 + 1, start, ?_⟩
  rw [List.append_assoc]
  simp only [List.cons_append] at h1 h2 ⊢
  rw [h1, attributesFrom, hquote]
  simp only [Bool.false_eq_true, if_false, true_or, if_true]
  rw [h2, attributesFrom, if_pos rfl, List.append_nil, List.reverse_reverse, unescape_escaped]
  rfl

theorem attributesFrom_text (pos : Nat) (seen : List (List Char × Nat))
    (as : List (String × String)) (hn : ∀ a ∈ as, IsName a.1) (hd : (as.map Prod.fst).Nodup)
    (hseen : ∀ a ∈ as, a.1.toList ∉ seen.map Prod.fst) :
    attributesFrom pos seen .gap (attributesText as) = .ok (as.map reported) := by
  induction as generalizing pos seen with
  | nil => rfl
  | cons a as ih =>
    obtain ⟨p, start, h⟩ := attributesFrom_attribute pos seen a (attributesText as)
      (hn a (List.mem_cons_self ..)) (hseen a (List.mem_cons_self ..))
    rw [List.map_cons, List.nodup_cons] at hd
    have hrest : ∀ b ∈ as, b.1.toList ∉ ((a.1.toList, start) :: seen).map Prod.fst := by
      intro b hb hmem
      rcases List.mem_cons.mp hmem with heq | hmem
      · exact hd.1 (List.mem_map.mpr ⟨b, hb, String.toList_inj.mp heq⟩)
      · exact hseen b (List.mem_cons_of_mem a hb) hmem
    rw [attributesText, h, ih p _ (fun b hb => hn b (List.mem_cons_of_mem a hb)) hd.2 hrest]
    rfl

theorem attributesFrom_clash (pos : Nat) (seen : List (List Char × Nat))
    (as : List (String × String)) (hn : ∀ a ∈ as, IsName a.1)
    (h : (∃ a ∈ as, a.1.toList ∈ seen.map Prod.fst) ∨ ¬ (as.map Prod.fst).Nodup) :
    ∃ start previous, attributesFrom pos seen .gap (attributesText as) =
      .error (.badAttribute (.duplicated start previous)) := by
  induction as generalizing pos seen with
  | nil => simp at h
  | cons a as ih =>
    have hname := hn a (List.mem_cons_self ..)
    rw [attributesText]
    by_cases hseen : a.1.toList ∈ seen.map Prod.fst
    · rw [List.append_assoc]
      exact attributesFrom_repeated pos seen a.1 _ hname hseen
    · obtain ⟨p, place, hread⟩ :=
        attributesFrom_attribute pos seen a (attributesText as) hname hseen
      -- The name just read is either repeated later, or the clash is among the rest.
      have hrest : (∃ b ∈ as, b.1.toList ∈ ((a.1.toList, place) :: seen).map Prod.fst) ∨
          ¬ (as.map Prod.fst).Nodup := by
        rcases h with ⟨b, hb, hmem⟩ | h
        · rcases List.mem_cons.mp hb with rfl | hb
          · exact absurd hmem hseen
          · exact .inl ⟨b, hb, List.mem_cons_of_mem _ hmem⟩
        · rw [List.map_cons, List.nodup_cons, Classical.not_and_iff_not_or_not] at h
          refine h.imp_left fun hmem => ?_
          obtain ⟨b, hb, heq⟩ := List.mem_map.mp (Classical.not_not.mp hmem)
          exact ⟨b, hb, by rw [heq]; exact List.mem_cons_self ..⟩
      obtain ⟨start, previous, hclash⟩ := ih p ((a.1.toList, place) :: seen)
        (fun b hb => hn b (List.mem_cons_of_mem a hb)) hrest
      exact ⟨start, previous, by rw [hread, hclash]; rfl⟩

theorem takeWhile_name (tag : String) (ht : IsName tag) (rest : List Char)
    (hr : ∀ c ∈ rest.head?, isSpace c = true) :
    (tag.toList ++ rest).takeWhile (!isSpace ·) = tag.toList := by
  have hall : ∀ c ∈ tag.toList, (!isSpace c) = true := by
    intro c hc
    rw [(nameChar_facts c (ht.2 c hc)).1]
    rfl
  rw [List.takeWhile_append_of_pos hall]
  cases rest with
  | nil => simp
  | cons c cs =>
    have hc := hr c rfl
    simp [hc]

theorem attributesText_head (as : List (String × String)) :
    ∀ c ∈ (attributesText as).head?, isSpace c = true := by
  cases as with
  | nil => simp [attributesText]
  | cons a as =>
    intro c hc
    simp only [attributesText, List.cons_append, List.head?_cons, Option.mem_some_iff] at hc
    subst hc
    rfl

theorem attributes_written (tag : String) (as : List (String × String)) (ht : IsName tag)
    (hn : ∀ a ∈ as, IsName a.1) (hd : (as.map Prod.fst).Nodup) :
    attributes (tag.toList ++ attributesText as) = .ok (as.map reported) := by
  have hname := takeWhile_name tag ht (attributesText as) (attributesText_head as)
  simp only [attributes, hname, List.drop_left]
  exact attributesFrom_text _ [] as hn hd (fun _ _ => by simp)

theorem attributes_clash (tag : String) (as : List (String × String)) (ht : IsName tag)
    (hn : ∀ a ∈ as, IsName a.1) (hd : ¬ (as.map Prod.fst).Nodup) :
    ∃ start previous, attributes (tag.toList ++ attributesText as) =
      .error (.badAttribute (.duplicated start previous)) := by
  have hname := takeWhile_name tag ht (attributesText as) (attributesText_head as)
  simp only [attributes, hname, List.drop_left]
  exact attributesFrom_clash _ [] as hn (.inr hd)

end FormCompiler.Xml
