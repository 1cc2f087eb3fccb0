import FormCompiler.Proofs.Xml.Attributes

/-!
# Scanning pieces of a document

`feed` runs the scanner over a piece of a document and gives the state after it.  The lemmas say
what the scanner makes of the pieces a writer puts out: character data, start tags, empty tags and
end tags.  `gap g` is the mode of a scanner that has met the character data `g` since the last tag.
-/

namespace FormCompiler.Xml

/-- The tokens for the character data between two tags; there is none if it is empty. -/
def gapTokens (g : String) (offset : Nat) : List Located :=
  if g = "" then [] else [⟨.text (.ok g), offset⟩]

namespace Scanner

/-! ## Piece by piece -/

/-- The state after a piece of the document, and the tokens found in it. -/
def feed (s : Scanner) : List Char → Scanner × List Located
  | [] => (s, [])
  | c :: cs =>
    let r := { s with offset := s.offset + c.utf8Size }.step c
    let q := r.1.feed cs
    (q.1, r.2 ++ q.2)

theorem feed_cons (s t : Scanner) (c : Char) (cs : List Char) (found : List Located)
    (h : { s with offset := s.offset + c.utf8Size }.step c = (t, found)) :
    s.feed (c :: cs) = ((t.feed cs).1, found ++ (t.feed cs).2) := by
  rw [feed, h]

theorem feed_append (s : Scanner) (as bs : List Char) :
    s.feed (as ++ bs) =
      (((s.feed as).1.feed bs).1, (s.feed as).2 ++ ((s.feed as).1.feed bs).2) := by
  induction as generalizing s with
  | nil => rfl
  | cons a as ih => simp only [List.cons_append, feed, ih, List.append_assoc]

theorem run_append (s : Scanner) (as bs : List Char) :
    s.run (as ++ bs) = (s.feed as).2 ++ (s.feed as).1.run bs := by
  induction as generalizing s with
  | nil => rfl
  | cons a as ih => simp only [List.cons_append, run, feed, ih, List.append_assoc]

/-! ## Character data -/

/-- The mode after character data, which is kept as it was written. -/
def pending : List Char → Mode
  | [] => .between
  | c :: cs => .text (c :: cs).reverse

/-- The mode after the character data `g`. -/
def gap (g : String) : Mode := pending (escaped g.toList)

theorem gap_empty : gap "" = .between := rfl

theorem step_pending (p : List Char) (c : Char) (off : Nat) (names : List (List Char))
    (hc : c ≠ '<') : step ⟨pending p, off, names⟩ c = (⟨pending (p ++ [c]), off, names⟩, []) := by
  cases p with
  | nil => simp [pending, step, hc]
  | cons d ds => simp [pending, step, hc]

theorem feed_pending (p cs : List Char) (off : Nat) (names : List (List Char))
    (h : ∀ c ∈ cs, c ≠ '<') :
    feed ⟨pending p, off, names⟩ cs =
      (⟨pending (p ++ cs), off + Text.byteLength cs, names⟩, []) := by
  induction cs generalizing p off with
  | nil => simp [feed, Text.byteLength]
  | cons c cs ih =>
    have hc : c ≠ '<' := h c (List.mem_cons_self ..)
    rw [feed_cons _ _ _ _ _ (step_pending p c (off + c.utf8Size) names hc),
      ih (p ++ [c]) (off + c.utf8Size) (fun d hd => h d (List.mem_cons_of_mem c hd))]
    simp [Text.byteLength, Nat.add_assoc]

theorem feed_text (g t : String) (off : Nat) (names : List (List Char)) :
    feed ⟨gap g, off, names⟩ (escaped t.toList) =
      (⟨gap (g ++ t), off + Text.byteLength (escaped t.toList), names⟩, []) := by
  rw [gap, feed_pending _ _ off names (fun c hc => (mem_escaped _ c hc).1), gap,
    String.toList_append, escaped_append]

theorem step_gap_open (g : String) (off : Nat) (names : List (List Char)) :
    step ⟨gap g, off + 1, names⟩ '<' = (⟨.opened, off + 1, names⟩, gapTokens g off) := by
  by_cases hg : g = ""
  · subst hg
    rfl
  · have hne : escaped g.toList ≠ [] := fun h =>
      hg (String.toList_inj.mp ((escaped_eq_nil _).mp h))
    obtain ⟨c, cs, hcs⟩ := List.exists_cons_of_ne_nil hne
    have hu := unescape_escaped g
    rw [hcs] at hu
    rw [gap, hcs, gapTokens, if_neg hg]
    simp only [pending, step, if_true, textToken, List.reverse_reverse, hu, Nat.add_sub_cancel]
    rfl

theorem feed_open (g : String) (off : Nat) (names : List (List Char)) (cs : List Char) :
    feed ⟨gap g, off, names⟩ ('<' :: cs) =
      ((feed ⟨.opened, off + 1, names⟩ cs).1,
        gapTokens g off ++ (feed ⟨.opened, off + 1, names⟩ cs).2) :=
  feed_cons _ _ _ _ _ (step_gap_open g off names)

/-! ## Inside a tag -/

/-- Characters that are only collected. -/
theorem feed_collected {m : List Char → Mode} {p : Char → Prop} {names : List (List Char)}
    (hstep : ∀ chars off c, p c →
      step ⟨m chars, off, names⟩ c = (⟨m (c :: chars), off, names⟩, []))
    (chars cs : List Char) (off : Nat) (h : ∀ c ∈ cs, p c) :
    feed ⟨m chars, off, names⟩ cs =
      (⟨m (cs.reverse ++ chars), off + Text.byteLength cs, names⟩, []) := by
  induction cs generalizing chars off with
  | nil => simp [feed, Text.byteLength]
  | cons c cs ih =>
    rw [feed_cons _ _ _ _ _ (hstep chars _ c (h c (List.mem_cons_self ..))),
      ih (c :: chars) _ (fun d hd => h d (List.mem_cons_of_mem c hd))]
    simp [Text.byteLength, Nat.add_assoc]

section Collected

variable (chars cs : List Char) (off : Nat) (names : List (List Char))

theorem feed_plain (h : ∀ c ∈ cs, c ≠ '>' ∧ c ≠ '"' ∧ c ≠ '\'') :
    feed ⟨.element chars none, off, names⟩ cs =
      (⟨.element (cs.reverse ++ chars) none, off + Text.byteLength cs, names⟩, []) :=
  feed_collected (m := (.element · none)) (fun _ _ _ hc => by simp [step, hc]) chars cs off h

theorem feed_quoted (quote : Char) (h : ∀ c ∈ cs, c ≠ quote) :
    feed ⟨.element chars (some quote), off, names⟩ cs =
      (⟨.element (cs.reverse ++ chars) (some quote), off + Text.byteLength cs, names⟩, []) :=
  feed_collected (m := (.element · (some quote))) (fun _ _ _ hc => by simp [step, hc])
    chars cs off h

theorem feed_closing (h : ∀ c ∈ cs, c ≠ '>') :
    feed ⟨.closing chars, off, names⟩ cs =
      (⟨.closing (cs.reverse ++ chars), off + Text.byteLength cs, names⟩, []) :=
  feed_collected (m := .closing) (fun _ _ _ hc => by simp [step, hc]) chars cs off h

end Collected

theorem nameChars_plain (name : String) (hn : IsName name) :
    ∀ c ∈ name.toList, c ≠ '>' ∧ c ≠ '"' ∧ c ≠ '\'' := by
  intro c hc
  obtain ⟨_, h1, _, _, _, _, h2, h3⟩ := nameChar_facts c (hn.2 c hc)
  exact ⟨h1, h2, h3⟩

/-- The quotes around a value are those of the scanner, and the value holds none. -/
theorem feed_attribute (chars : List Char) (a : String × String) (off : Nat)
    (names : List (List Char)) (hn : IsName a.1) :
    ∃ off', feed ⟨.element chars none, off, names⟩
        (' ' :: a.1.toList ++ '=' :: '"' :: escaped a.2.toList ++ ['"']) =
      (⟨.element ((' ' :: a.1.toList ++ '=' :: '"' :: escaped a.2.toList ++ ['"']).reverse ++ chars)
        none, off', names⟩, []) := by
  have hplain : ∀ c ∈ ' ' :: a.1.toList ++ ['='], c ≠ '>' ∧ c ≠ '"' ∧ c ≠ '\'' := by
    intro c hc
    rcases List.mem_append.mp hc with hc | hc
    · rcases List.mem_cons.mp hc with rfl | hc
      · decide
      · exact nameChars_plain a.1 hn c hc
    · rw [List.mem_singleton] at hc
      subst hc
      decide
  have hsplit : ' ' :: a.1.toList ++ '=' :: '"' :: escaped a.2.toList ++ ['"'] =
      (' ' :: a.1.toList ++ ['=']) ++ (['"'] ++ (escaped a.2.toList ++ ['"'])) := by
    simp
  refine ⟨off + Text.byteLength (' ' :: a.1.toList ++ ['=']) + 1 +
    Text.byteLength (escaped a.2.toList) + 1, ?_⟩
  have hopen : ∀ cs off, feed ⟨.element cs none, off, names⟩ ['"'] =
      (⟨.element ('"' :: cs) (some '"'), off + 1, names⟩, []) := fun _ _ => rfl
  have hclose : ∀ cs off, feed ⟨.element cs (some '"'), off, names⟩ ['"'] =
      (⟨.element ('"' :: cs) none, off + 1, names⟩, []) := fun _ _ => rfl
  rw [hsplit, feed_append, feed_plain _ _ _ _ hplain, feed_append, hopen, feed_append,
    feed_quoted _ _ _ _ _ (fun c hc => (mem_escaped _ c hc).2), hclose]
  simp

theorem feed_attributes (chars : List Char) (as : List (String × String)) (off : Nat)
    (names : List (List Char)) (hn : ∀ a ∈ as, IsName a.1) :
    ∃ off', feed ⟨.element chars none, off, names⟩ (attributesText as) =
      (⟨.element ((attributesText as).reverse ++ chars) none, off', names⟩, []) := by
  induction as generalizing chars off with
  | nil => exact ⟨off, rfl⟩
  | cons a as ih =>
    obtain ⟨o1, h1⟩ := feed_attribute chars a off names (hn a (List.mem_cons_self ..))
    obtain ⟨o2, h2⟩ := ih
      ((' ' :: a.1.toList ++ '=' :: '"' :: escaped a.2.toList ++ ['"']).reverse ++ chars) o1
      (fun b hb => hn b (List.mem_cons_of_mem a hb))
    have hsplit : attributesText (a :: as) =
        (' ' :: a.1.toList ++ '=' :: '"' :: escaped a.2.toList ++ ['"']) ++ attributesText as := by
      simp [attributesText]
    refine ⟨o2, ?_⟩
    rw [hsplit, feed_append, h1, h2]
    simp

theorem feed_opening {content : List Char} {o off : Nat} {names : List (List Char)} {c : Char}
    {cs : List Char}
    (h : feed ⟨.opened, off, names⟩ content = (⟨.element content.reverse none, o, names⟩, []))
    (hlast : content.reverse = c :: cs) (hc : c ≠ '/') :
    feed ⟨.opened, off, names⟩ (content ++ ['>']) =
      (⟨.between, o + 1, content.takeWhile (!isSpace ·) :: names⟩,
        [⟨startToken content, o + 1⟩]) := by
  have hclose : step ⟨.element content.reverse none, o + ('>' : Char).utf8Size, names⟩ '>' =
      (⟨.between, o + 1, content.takeWhile (!isSpace ·) :: names⟩,
        [⟨startToken content, o + 1⟩]) := by
    have hback : (c :: cs).reverse = content := by rw [← hlast, List.reverse_reverse]
    show closeElement _ content.reverse = _
    rw [hlast]
    unfold closeElement
    split
    · next hslash => exact absurd (List.cons.inj hslash).1 hc
    · simp only [hback]
      rfl
  rw [feed_append, h, feed_cons _ _ _ _ _ hclose]
  simp [feed]

theorem feed_closed {content : List Char} {o off : Nat} {names : List (List Char)}
    (h : feed ⟨.opened, off, names⟩ content = (⟨.element content.reverse none, o, names⟩, [])) :
    feed ⟨.opened, off, names⟩ (content ++ ['/', '>']) =
      (⟨.between, o + 2, names⟩, [⟨startToken content, o + 2⟩, ⟨.stop, o + 2⟩]) := by
  have hslash : step ⟨.element content.reverse none, o + ('/' : Char).utf8Size, names⟩ '/' =
      (⟨.element ('/' :: content.reverse) none, o + 1, names⟩, []) := rfl
  have hclose : step ⟨.element ('/' :: content.reverse) none, o + 1 + ('>' : Char).utf8Size, names⟩
      '>' = (⟨.between, o + 2, names⟩,
        [⟨startToken content.reverse.reverse, o + 2⟩, ⟨.stop, o + 2⟩]) := rfl
  rw [feed_append, h, feed_cons _ _ _ _ _ hslash, feed_cons _ _ _ _ _ hclose, List.reverse_reverse]
  simp [feed]

theorem last_of_attributes (a : String × String) (as : List (String × String)) :
    ∃ init, attributesText (a :: as) = init ++ ['"'] := by
  induction as generalizing a with
  | nil => exact ⟨' ' :: a.1.toList ++ '=' :: '"' :: escaped a.2.toList, rfl⟩
  | cons b bs ih =>
    obtain ⟨init, h⟩ := ih b
    refine ⟨' ' :: a.1.toList ++ '=' :: '"' :: escaped a.2.toList ++ '"' :: init, ?_⟩
    rw [attributesText, h]
    simp

/-! ## Whole tags -/

section Tags

variable (tag : String) (as : List (String × String)) (off : Nat) (names : List (List Char))

/-- The start token that a start tag stands for. -/
def startOf : Token := startToken (tag.toList ++ attributesText as)

theorem startOf_eq (ht : IsName tag) :
    startOf tag as = .start (reportedTag tag) (attributes (tag.toList ++ attributesText as)) := by
  simp only [startOf, startToken, takeWhile_name tag ht _ (attributesText_head as), reportedTag]

theorem startOf_written (ht : IsName tag) (hn : ∀ a ∈ as, IsName a.1)
    (hd : (as.map Prod.fst).Nodup) :
    startOf tag as = .start (reportedTag tag) (.ok (as.map reported)) := by
  rw [startOf_eq tag as ht, attributes_written tag as ht hn hd]

theorem feed_tag (ht : IsName tag) (hn : ∀ a ∈ as, IsName a.1) :
    ∃ off', feed ⟨.opened, off, names⟩ (tag.toList ++ attributesText as) =
      (⟨.element (tag.toList ++ attributesText as).reverse none, off', names⟩, []) := by
  have hplain := nameChars_plain tag ht
  obtain ⟨hne, hall⟩ := ht
  obtain ⟨c, cs, hcs⟩ := List.exists_cons_of_ne_nil hne
  rw [hcs] at hall hplain ⊢
  obtain ⟨_, h1, h2, h3, h4, _, h5, h6⟩ := nameChar_facts c (hall c (List.mem_cons_self ..))
  have hfirst : step ⟨.opened, off + c.utf8Size, names⟩ c =
      (⟨.element [c] none, off + c.utf8Size, names⟩, []) := by
    simp [step, h1, h2, h3, h4, h5, h6]
  obtain ⟨o, ho⟩ := feed_attributes (cs.reverse ++ [c]) as
    (off + c.utf8Size + Text.byteLength cs) names hn
  refine ⟨o, ?_⟩
  rw [List.cons_append, feed_cons _ _ _ _ _ hfirst, feed_append,
    feed_plain [c] cs _ names (fun d hd => hplain d (List.mem_cons_of_mem c hd)), ho]
  simp

/-- What is between the brackets of a start tag does not end in a slash, so the tag is not taken for
an empty one. -/
theorem last_of_tag (ht : IsName tag) :
    ∃ c cs, (tag.toList ++ attributesText as).reverse = c :: cs ∧ c ≠ '/' := by
  cases as with
  | nil =>
    obtain ⟨hne, hall⟩ := ht
    have hrev : tag.toList.reverse ≠ [] := by simpa using hne
    obtain ⟨c, cs, hcs⟩ := List.exists_cons_of_ne_nil hrev
    have hmem : c ∈ tag.toList := List.mem_reverse.mp (hcs ▸ List.mem_cons_self ..)
    exact ⟨c, cs, by simp [attributesText, hcs], (nameChar_facts c (hall c hmem)).2.2.1⟩
  | cons a as =>
    obtain ⟨init, h⟩ := last_of_attributes a as
    refine ⟨'"', (tag.toList ++ init).reverse, ?_, by decide⟩
    rw [h]
    simp

theorem feed_startTag (ht : IsName tag) (hn : ∀ a ∈ as, IsName a.1) :
    ∃ off', feed ⟨.opened, off, names⟩ (tag.toList ++ attributesText as ++ ['>']) =
      (⟨.between, off', tag.toList :: names⟩, [⟨startOf tag as, off'⟩]) := by
  obtain ⟨o, ho⟩ := feed_tag tag as off names ht hn
  obtain ⟨c, cs, hrev, hc⟩ := last_of_tag tag as ht
  refine ⟨o + 1, ?_⟩
  rw [feed_opening ho hrev hc, takeWhile_name tag ht _ (attributesText_head as), startOf]

theorem feed_emptyTag (ht : IsName tag) (hn : ∀ a ∈ as, IsName a.1) :
    ∃ off', feed ⟨.opened, off, names⟩ (tag.toList ++ attributesText as ++ ['/', '>']) =
      (⟨.between, off', names⟩, [⟨startOf tag as, off'⟩, ⟨.stop, off'⟩]) := by
  obtain ⟨o, ho⟩ := feed_tag tag as off names ht hn
  exact ⟨o + 2, feed_closed ho⟩

theorem endName_name (ht : IsName tag) : endName tag.toList.reverse = tag.toList := by
  have hdrop : tag.toList.reverse.dropWhile isSpace = tag.toList.reverse := by
    cases hr : tag.toList.reverse with
    | nil => rfl
    | cons c cs =>
      have hmem : c ∈ tag.toList := List.mem_reverse.mp (hr ▸ List.mem_cons_self ..)
      rw [List.dropWhile_cons, (nameChar_facts c (ht.2 c hmem)).1]
      rfl
  rw [endName, hdrop]
  split
  · next h => rw [h, List.reverse_nil, ← List.reverse_eq_nil_iff.mp h]
  · rw [List.reverse_reverse]

theorem feed_endTag (ht : IsName tag) :
    ∃ off', feed ⟨.opened, off, tag.toList :: names⟩ ('/' :: tag.toList ++ ['>']) =
      (⟨.between, off', names⟩, [⟨.stop, off'⟩]) := by
  have hslash : step ⟨.opened, off + ('/' : Char).utf8Size, tag.toList :: names⟩ '/' =
      (⟨.closing [], off + 1, tag.toList :: names⟩, []) := rfl
  refine ⟨off + 1 + Text.byteLength tag.toList + 1, ?_⟩
  rw [List.cons_append, feed_cons _ _ _ _ _ hslash, feed_append,
    feed_closing [] tag.toList _ _ (fun c hc => (nameChars_plain tag ht c hc).1), List.append_nil]
  have hclose : step ⟨.closing tag.toList.reverse,
      off + 1 + Text.byteLength tag.toList + ('>' : Char).utf8Size, tag.toList :: names⟩ '>' =
        (⟨.between, off + 1 + Text.byteLength tag.toList + 1, names⟩,
          [⟨.stop, off + 1 + Text.byteLength tag.toList + 1⟩]) := by
    simp only [step, closeEndTag, endName_name tag ht, if_true]
    rfl
  rw [feed_cons _ _ _ _ _ hclose]
  simp [feed]

end Tags

end Scanner

end FormCompiler.Xml
