import FormCompiler.Proofs.Xml.Scanning

/-!
# Pieces of a document

The scanner reads a piece of a document in the same way wherever it stands: the tokens in it depend
neither on the offset of the piece nor on the elements around it, as long as it closes none of them
(`moved_feed`).  `Complete` markup can be read by itself and put anywhere outside of tags.
-/

namespace FormCompiler.Xml

namespace Scanner

/-! ## Places -/

/-- The scanner at another place of a document, inside further elements. -/
def placed (s : Scanner) (offset : Nat) (base : List (List Char)) : Scanner :=
  ⟨s.mode, offset, s.names ++ base⟩

/-- Two results of a step that differ in the place only. -/
def Moved (offset : Nat) (base : List (List Char)) (r r' : Scanner × List Located) : Prop :=
  r'.1 = r.1.placed offset base ∧ r'.2.map Located.token = r.2.map Located.token

variable (s : Scanner) (offset : Nat) (base : List (List Char))

theorem moved_closeElement (chars : List Char) :
    Moved offset base (s.closeElement chars) ((s.placed offset base).closeElement chars) := by
  unfold closeElement
  split
  · exact ⟨rfl, rfl⟩
  · exact ⟨rfl, rfl⟩

theorem moved_closeInstruction (chars : List Char) :
    Moved offset base (s.closeInstruction chars)
      ((s.placed offset base).closeInstruction chars) := by
  unfold closeInstruction
  split
  · exact ⟨rfl, rfl⟩
  · exact ⟨rfl, rfl⟩

theorem moved_closeComment (chars : List Char) :
    Moved offset base (s.closeComment chars) ((s.placed offset base).closeComment chars) := by
  unfold closeComment
  split
  · exact ⟨rfl, rfl⟩
  · exact ⟨rfl, rfl⟩

theorem moved_closeCharacterData (chars : List Char) :
    Moved offset base (s.closeCharacterData chars)
      ((s.placed offset base).closeCharacterData chars) := by
  unfold closeCharacterData
  dsimp only
  split
  · exact ⟨rfl, rfl⟩
  · exact ⟨rfl, rfl⟩

theorem moved_closeDocumentType (chars : List Char) :
    Moved offset base (s.closeDocumentType chars)
      ((s.placed offset base).closeDocumentType chars) := by
  unfold closeDocumentType
  dsimp only
  split
  · split
    · exact ⟨rfl, rfl⟩
    · exact ⟨rfl, rfl⟩
  · exact ⟨rfl, rfl⟩

/-- An end tag belongs to the innermost element.  Only where none is open inside the piece do those
around it matter. -/
theorem moved_closeEndTag (chars : List Char)
    (h : base = [] ∨ (s.closeEndTag chars).1.mode ≠ .halted) :
    Moved offset base (s.closeEndTag chars) ((s.placed offset base).closeEndTag chars) := by
  obtain ⟨mode, off, names⟩ := s
  cases names with
  | nil =>
    rcases h with rfl | h
    · exact ⟨rfl, rfl⟩
    · exact absurd rfl h
  | cons expected names =>
    simp only [closeEndTag, placed, List.cons_append]
    split
    · exact ⟨rfl, rfl⟩
    · exact ⟨rfl, rfl⟩

theorem moved_step (c : Char) (h : base = [] ∨ (s.step c).1.mode ≠ .halted) :
    Moved offset base (s.step c) ((s.placed offset base).step c) := by
  obtain ⟨mode, off, names⟩ := s
  cases mode with
  | between => exact ⟨rfl, rfl⟩
  | text chars =>
    simp only [step, placed]
    split <;> exact ⟨rfl, rfl⟩
  | opened =>
    simp only [step, placed]
    split
    · exact ⟨rfl, rfl⟩
    · split
      · exact ⟨rfl, rfl⟩
      · split
        · exact ⟨rfl, rfl⟩
        · split
          · exact moved_closeElement ⟨.opened, off, names⟩ offset base []
          · exact ⟨rfl, rfl⟩
  | element chars quote =>
    cases quote with
    | none =>
      simp only [step, placed]
      split
      · exact moved_closeElement ⟨.element chars none, off, names⟩ offset base chars
      · exact ⟨rfl, rfl⟩
    | some quote => exact ⟨rfl, rfl⟩
  | closing chars =>
    simp only [step, placed] at h ⊢
    split
    · next hc =>
      rw [if_pos hc] at h
      exact moved_closeEndTag ⟨.closing chars, off, names⟩ offset base chars h
    · exact ⟨rfl, rfl⟩
  | instruction chars =>
    simp only [step, placed]
    split
    · exact moved_closeInstruction ⟨.instruction chars, off, names⟩ offset base chars
    · exact ⟨rfl, rfl⟩
  | bang =>
    simp only [step, placed]
    split
    · exact ⟨rfl, rfl⟩
    · split
      · exact ⟨rfl, rfl⟩
      · split
        · exact ⟨rfl, rfl⟩
        · exact ⟨rfl, rfl⟩
  | comment chars =>
    simp only [step, placed]
    split
    · exact moved_closeComment ⟨.comment _, off, names⟩ offset base _
    · exact ⟨rfl, rfl⟩
  | characterData chars =>
    simp only [step, placed]
    split
    · exact moved_closeCharacterData ⟨.characterData _, off, names⟩ offset base _
    · exact ⟨rfl, rfl⟩
  | documentType chars depth =>
    simp only [step, placed]
    split
    · exact ⟨rfl, rfl⟩
    · split
      · split
        · exact moved_closeDocumentType ⟨.documentType chars depth, off, names⟩ offset base chars
        · exact ⟨rfl, rfl⟩
      · exact ⟨rfl, rfl⟩
  | halted => exact ⟨rfl, rfl⟩

theorem feed_halted (cs : List Char) (h : s.mode = .halted) : (s.feed cs).1.mode = .halted := by
  induction cs generalizing s with
  | nil => exact h
  | cons c cs ih =>
    refine ih _ ?_
    simp only [step, h]

/-- A piece in which no fault is found has the same tokens wherever it stands. -/
theorem moved_feed (cs : List Char) (h : base = [] ∨ (s.feed cs).1.mode ≠ .halted) :
    ∃ offset', Moved offset' base (s.feed cs) ((s.placed offset base).feed cs) := by
  induction cs generalizing s offset with
  | nil => exact ⟨offset, rfl, rfl⟩
  | cons c cs ih =>
    let counted : Scanner := { s with offset := s.offset + c.utf8Size }
    have hfirst : base = [] ∨ (counted.step c).1.mode ≠ .halted :=
      h.imp_right fun hend hhalt => hend (feed_halted _ cs hhalt)
    obtain ⟨hstate, hfound⟩ := moved_step counted (offset + c.utf8Size) base c hfirst
    obtain ⟨offset', hrest, hmore⟩ := ih (counted.step c).1 (offset + c.utf8Size) h
    rw [← hstate] at hrest hmore
    refine ⟨offset', hrest, ?_⟩
    show List.map Located.token (_ ++ _) = List.map Located.token (_ ++ _)
    rw [List.map_append, List.map_append]
    exact congr (congrArg _ hfound) hmore

theorem moved_closed {r r' : Scanner × List Located} (h : Moved offset [] r r') :
    (atEnd.closed r').map Located.token = (atEnd.closed r).map Located.token := by
  obtain ⟨hstate, hfound⟩ := h
  have hmode : r'.1.mode = r.1.mode := by rw [hstate, placed]
  simp only [atEnd.closed, hmode]
  split
  · exact hfound
  · simp [hfound]

theorem moved_atEnd :
    (s.placed offset []).atEnd.map Located.token = s.atEnd.map Located.token := by
  obtain ⟨mode, off, names⟩ := s
  cases mode with
  | closing chars =>
    exact moved_closed offset
      (moved_closeEndTag ⟨.closing chars, off, names⟩ offset [] chars (.inl rfl))
  | instruction chars =>
    exact moved_closed offset
      (moved_closeInstruction ⟨.instruction chars, off, names⟩ offset [] chars)
  | _ => rfl

/-- The tokens of the rest of a document do not depend on what was read before, apart from the
elements that are open. -/
theorem moved_run (cs : List Char) :
    (run ⟨s.mode, offset, s.names⟩ cs).map Located.token = (s.run cs).map Located.token := by
  have hplace : (⟨s.mode, offset, s.names⟩ : Scanner) = s.placed offset [] := by
    rw [placed, List.append_nil]
  have hfeed : ∀ t : Scanner, t.run cs = (t.feed cs).2 ++ (t.feed cs).1.atEnd := by
    intro t
    have h := run_append t cs []
    rwa [List.append_nil] at h
  obtain ⟨offset', hstate, hfound⟩ := moved_feed s offset [] cs (.inl rfl)
  rw [hplace, hfeed, hfeed, List.map_append, List.map_append, hfound, hstate, moved_atEnd]

/-! ## Complete pieces -/

/-- The token for the character data that has not ended yet. -/
def unread : Mode → List Token
  | .text chars => [textToken chars]
  | _ => []

/-- The scanner is outside of all tags. -/
def Outside (mode : Mode) : Prop := mode = .between ∨ ∃ chars, mode = .text chars

theorem step_outside {mode : Mode} (h : Outside mode) (names : List (List Char)) :
    step ⟨mode, offset, names⟩ '<' =
      (⟨.opened, offset, names⟩, (unread mode).map fun token => ⟨token, offset - 1⟩) := by
  rcases h with rfl | ⟨chars, rfl⟩ <;> rfl

theorem run_markup {mode : Mode} (h : Outside mode) (names : List (List Char))
    (cs rest : List Char) :
    (run ⟨mode, offset, names⟩ ('<' :: (cs ++ rest))).map Located.token =
      unread mode ++ ((feed ⟨.opened, offset + 1, names⟩ cs).2.map Located.token ++
        ((feed ⟨.opened, offset + 1, names⟩ cs).1.run rest).map Located.token) := by
  have hunread : ((unread mode).map fun token => (⟨token, offset + 1 - 1⟩ : Located)).map
      Located.token = unread mode := by
    rw [List.map_map]
    exact List.map_id _
  rw [← List.cons_append, run_append, feed_cons _ _ _ _ _ (step_outside (offset + 1) h names),
    List.map_append, List.map_append, hunread, List.append_assoc]

/-- Markup that is complete by itself: it begins with an angle bracket, closes what it opens and
nothing else, and consists of the tokens `found`. -/
def Complete (cs : List Char) (found : List Located) : Prop :=
  ∃ rest offset, cs = '<' :: rest ∧ feed ⟨.between, 0, []⟩ cs = (⟨.between, offset, []⟩, found)

/-- Complete markup has its own tokens anywhere outside of tags, after one for the character data
before it. -/
theorem run_complete {mode : Mode} {cs : List Char} {found : List Located} (h : Outside mode)
    (hcs : Complete cs found) (names : List (List Char)) (rest : List Char) :
    (run ⟨mode, offset, names⟩ (cs ++ rest)).map Located.token =
      unread mode ++ (found.map Located.token ++
        (run ⟨.between, 0, names⟩ rest).map Located.token) := by
  obtain ⟨inner, off, rfl, hfeed⟩ := hcs
  have hopen : feed ⟨.between, 0, []⟩ ('<' :: inner) = feed ⟨.opened, 1, []⟩ inner := rfl
  rw [hopen] at hfeed
  obtain ⟨offset', hstate, hfound⟩ := moved_feed ⟨.opened, 1, []⟩ (offset + 1) names inner
    (.inr (by rw [hfeed]; exact Mode.noConfusion))
  rw [hfeed] at hstate hfound
  rw [List.cons_append, run_markup offset h names inner rest]
  refine congrArg (unread mode ++ ·) (congr (congrArg _ hfound) ?_)
  rw [show feed ⟨.opened, offset + 1, names⟩ inner =
    feed (placed ⟨.opened, 1, []⟩ (offset + 1) names) inner from rfl, hstate]
  exact moved_run ⟨.between, 0, names⟩ offset' rest

theorem run_between {mode : Mode} {cs : List Char} {found : List Located} {off : Nat}
    (h : feed ⟨.between, 0, []⟩ cs = (⟨mode, off, []⟩, found)) (hmode : Outside mode)
    (names : List (List Char)) (rest : List Char) :
    (run ⟨.between, 0, names⟩ (cs ++ rest)).map Located.token =
      found.map Located.token ++ (run ⟨mode, 0, names⟩ rest).map Located.token := by
  have hmode : mode ≠ .halted := by
    rcases hmode with rfl | ⟨chars, rfl⟩ <;> exact Mode.noConfusion
  obtain ⟨offset', hstate, hfound⟩ := moved_feed ⟨.between, 0, []⟩ 0 names cs
    (.inr (by rw [h]; exact hmode))
  rw [h] at hstate hfound
  rw [run_append, List.map_append]
  refine congr (congrArg _ hfound) ?_
  rw [show feed ⟨.between, 0, names⟩ cs = feed (placed ⟨.between, 0, []⟩ 0 names) cs from rfl,
    hstate]
  exact moved_run ⟨mode, 0, names⟩ offset' rest

end Scanner

theorem dropByteOrderMark_append (before rest : List Char) :
    dropByteOrderMark (before ++ '<' :: rest) = dropByteOrderMark before ++ '<' :: rest := by
  cases before with
  | nil => rfl
  | cons c cs =>
    simp only [List.cons_append, dropByteOrderMark]
    split <;> rfl

/-- The tokens of a document are those before an angle bracket and those from there on. -/
theorem tokens_behind {before : List Char} {s : Scanner} {found : List Located}
    (h : Scanner.feed ⟨.between, 0, []⟩ (dropByteOrderMark before) = (s, found)) (source : String)
    (rest : List Char) (hsource : source.toList = before ++ '<' :: rest) :
    (tokens source).map Located.token =
      found.map Located.token ++ (s.run ('<' :: rest)).map Located.token := by
  rw [tokens, hsource, dropByteOrderMark_append, Scanner.run_append, h, List.map_append]

end FormCompiler.Xml
