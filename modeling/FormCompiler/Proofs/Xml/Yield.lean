import FormCompiler.Proofs.Xml.Markup
import FormCompiler.Proofs.Xml.Pieces

/-!
# What a piece of a document can yield

`Effect` says what a single character can do to the scanner.  From it follows where the next tag is
to be found in a document whose tokens are known: a start tag leaves a rest of the document behind
it (`run_start`), and the end tag of an element stands behind its character data (`run_stop`).
A character of the document yields at most one character of data, and markup yields none, so data
of a given length reaches at least as far in the document (`feed_yields`).
-/

namespace FormCompiler.Xml

def Token.isData : Token → Bool
  | .text _ => true
  | _ => false

namespace Scanner

/-! ## Single characters -/

def AtMostData (found : List Token) : Prop := found = [] ∨ ∃ content, found = [.text content]

/-- Whether a tag may yet turn out to be an end tag. -/
def mayEnd : Mode → Bool
  | .opened | .closing _ => true
  | _ => false

/-- What a character does: the mode and the open elements before, the character, the mode and the
open elements after, and the tokens found. -/
inductive Effect : Mode → List (List Char) → Char → Mode → List (List Char) → List Token → Prop
  | bracket {mode : Mode} {names : List (List Char)} (h : Outside mode) :
      Effect mode names '<' .opened names (unread mode)
  | slash {names : List (List Char)} : Effect .opened names '/' (.closing []) names []
  | within {mode mode' : Mode} {names : List (List Char)} {c : Char} {found : List Token}
      (hmode : mayEnd mode' = false) (hfound : AtMostData found) :
      Effect mode names c mode' names found
  | endName {names : List (List Char)} {chars : List Char} {c : Char} (hc : c ≠ '>') :
      Effect (.closing chars) names c (.closing (c :: chars)) names []
  | start {mode : Mode} {names : List (List Char)} {c : Char} (name : List Char)
      (attributes : Except Fault (List (String × String))) :
      Effect mode names c .between (name :: names)
        [.start (reportedTag (String.ofList name)) attributes]
  | empty {mode : Mode} {names : List (List Char)} {c : Char} (name : List Char)
      (attributes : Except Fault (List (String × String))) :
      Effect mode names c .between names
        [.start (reportedTag (String.ofList name)) attributes, .stop]
  | stop {names : List (List Char)} {chars : List Char} :
      Effect (.closing chars) (Scanner.endName chars :: names) '>' .between names [.stop]
  | fault {mode : Mode} {names : List (List Char)} {c : Char} (fault : Fault) :
      Effect mode names c .halted names [.broken fault, .finish]

/-- A result of a step has a given effect. -/
def Has (s : Scanner) (c : Char) (r : Scanner × List Located) : Prop :=
  Effect s.mode s.names c r.1.mode r.1.names (r.2.map Located.token)

variable (s : Scanner) (c : Char)

theorem has_goto {mode : Mode} (hmode : mayEnd mode = false) : Has s c ({ s with mode }, []) :=
  .within hmode (.inl rfl)

theorem has_closeElement (chars : List Char) : Has s c (s.closeElement chars) := by
  have htag (content : List Char) : startToken content = .start
      (reportedTag (String.ofList (content.takeWhile (!isSpace ·)))) (attributes content) := by
    rw [startToken, reportedTag, String.toList_ofList]
  unfold closeElement Has
  split
  · simp only [List.map_cons, List.map_nil, htag]
    exact .empty _ _
  · simp only [List.map_cons, List.map_nil, htag]
    exact .start _ _

theorem has_closeEndTag {chars : List Char} (hmode : s.mode = .closing chars) :
    Has s '>' (s.closeEndTag chars) := by
  obtain ⟨mode, offset, names⟩ := s
  subst hmode
  cases names with
  | nil => exact .fault _
  | cons expected names =>
    simp only [closeEndTag]
    split
    · next h =>
      subst h
      exact .stop
    · exact .fault _

theorem step_effect : Has s c (s.step c) := by
  obtain ⟨mode, offset, names⟩ := s
  cases mode with
  | between =>
    by_cases hc : c = '<'
    · subst hc
      exact .bracket (.inl rfl)
    · simp only [step, if_neg hc]
      exact has_goto _ _ rfl
  | text chars =>
    by_cases hc : c = '<'
    · subst hc
      exact .bracket (.inr ⟨chars, rfl⟩)
    · simp only [step, if_neg hc]
      exact has_goto _ _ rfl
  | opened =>
    simp only [step]
    split
    · exact has_goto _ _ rfl
    · split
      · next hc =>
        subst hc
        exact .slash
      · split
        · exact has_goto _ _ rfl
        · split
          · exact has_closeElement _ _ _
          · exact has_goto _ _ rfl
  | element chars quote =>
    cases quote with
    | none =>
      simp only [step]
      split
      · exact has_closeElement _ _ _
      · exact has_goto _ _ rfl
    | some quote => exact has_goto _ _ rfl
  | closing chars =>
    simp only [step]
    split
    · next hc =>
      subst hc
      exact has_closeEndTag _ rfl
    · next hc => exact .endName hc
  | instruction chars =>
    simp only [step, closeInstruction]
    split
    · split
      · exact has_goto _ _ rfl
      · exact .fault _
    · exact has_goto _ _ rfl
  | bang =>
    simp only [step]
    split
    · exact has_goto _ _ rfl
    · split
      · exact has_goto _ _ rfl
      · split
        · exact has_goto _ _ rfl
        · exact .fault _
  | comment chars =>
    simp only [step, closeComment]
    split
    · split
      · exact has_goto _ _ rfl
      · exact .fault _
    · exact has_goto _ _ rfl
  | characterData chars =>
    simp only [step, closeCharacterData]
    split
    · split
      · exact .within rfl (.inr ⟨_, rfl⟩)
      · exact .fault _
    · exact has_goto _ _ rfl
  | documentType chars depth =>
    simp only [step, closeDocumentType]
    split
    · exact has_goto _ _ rfl
    · split
      · split
        · split
          · split
            · exact .fault _
            · exact has_goto _ _ rfl
          · exact .fault _
        · exact has_goto _ _ rfl
      · exact has_goto _ _ rfl
  | halted => exact has_goto _ _ rfl

/-! ## The next tag -/

/-- The tokens of the rest of a document, inside open elements. -/
def tokensFrom (mode : Mode) (names : List (List Char)) (cs : List Char) : List Token :=
  (run ⟨mode, 0, names⟩ cs).map Located.token

theorem tokens_run (cs : List Char) :
    (s.run cs).map Located.token = tokensFrom s.mode s.names cs :=
  (moved_run s 0 cs).symm

theorem tokensFrom_append {mode mode' : Mode} {names names' : List (List Char)} {offset : Nat}
    {cs : List Char} {found : List Located}
    (h : feed ⟨mode, 0, names⟩ cs = (⟨mode', offset, names'⟩, found)) (rest : List Char) :
    tokensFrom mode names (cs ++ rest) =
      found.map Located.token ++ tokensFrom mode' names' rest := by
  rw [tokensFrom, run_append, h, List.map_append, tokens_run]

def next : Scanner := ({ s with offset := s.offset + c.utf8Size }.step c).1

theorem run_next (cs : List Char) : ∃ found,
    Effect s.mode s.names c (s.next c).mode (s.next c).names found ∧
      (s.run (c :: cs)).map Located.token = found ++ ((s.next c).run cs).map Located.token ∧
      ∀ before, (s.feed (c :: before)).1 = ((s.next c).feed before).1 ∧
        (s.feed (c :: before)).2.map Located.token =
          found ++ ((s.next c).feed before).2.map Located.token := by
  refine ⟨_, step_effect { s with offset := s.offset + c.utf8Size } c, ?_, fun before => ⟨rfl, ?_⟩⟩
  · rw [run, List.map_append]
    rfl
  · rw [feed, List.map_append]
    rfl

/-- Pieces of character data that could be read. -/
def dataTokens (texts : List String) : List Token := texts.map fun t => .text (.ok t)

theorem atMostData_unread (mode : Mode) : AtMostData (unread mode) := by
  unfold unread
  split
  · exact .inr ⟨_, rfl⟩
  · exact .inl rfl

theorem dataTokens_split {texts : List String} {token : Token} {found rest more : List Token}
    (hfound : AtMostData found) (h : found ++ rest = dataTokens texts ++ token :: more)
    (htoken : token.isData = false) :
    ∃ texts', dataTokens texts = found ++ dataTokens texts' ∧
      rest = dataTokens texts' ++ token :: more := by
  rcases hfound with rfl | ⟨content, rfl⟩
  · exact ⟨texts, rfl, h⟩
  · cases texts with
    | nil =>
      rw [← (List.cons.inj h).1] at htoken
      cases htoken
    | cons t texts =>
      obtain ⟨hhead, hrest⟩ := List.cons.inj h
      exact ⟨texts, congrArg (· :: _) hhead.symm, hrest⟩

/-- Character data and the tag behind it can be told apart. -/
theorem dataTokens_inj {texts texts' : List String} {token token' : Token} {more more' : List Token}
    (h : dataTokens texts ++ token :: more = dataTokens texts' ++ token' :: more')
    (htoken : token.isData = false) (htoken' : token'.isData = false) :
    token = token' ∧ more = more' := by
  induction texts generalizing texts' with
  | nil =>
    cases texts' with
    | nil => exact List.cons.inj h
    | cons t texts' =>
      rw [(List.cons.inj h).1] at htoken
      cases htoken
  | cons t texts ih =>
    cases texts' with
    | nil =>
      rw [← (List.cons.inj h).1] at htoken'
      cases htoken'
    | cons t' texts' => exact ih (List.cons.inj h).2

theorem dataTokens_first {texts : List String} {token token' : Token} {more more' : List Token}
    (h : token :: more = dataTokens texts ++ token' :: more')
    (htoken : token.isData = false) (htoken' : token'.isData = false) :
    token = token' ∧ more = more' :=
  dataTokens_inj (show dataTokens [] ++ token :: more = _ from h) htoken htoken'

theorem mem_atEnd {token : Token} (h : token ∈ s.atEnd.map Located.token) :
    (∀ tag attributes, token ≠ .start tag attributes) ∧
      (token = .stop → ∃ chars, s.mode = .closing chars) := by
  obtain ⟨mode, offset, names⟩ := s
  cases mode with
  | closing chars =>
    refine ⟨?_, fun _ => ⟨chars, rfl⟩⟩
    rintro tag attributes rfl
    cases names with
    | nil => simp [atEnd, atEnd.closed, closeEndTag, halt] at h
    | cons expected names =>
      simp only [atEnd, closeEndTag] at h
      split at h <;> simp [atEnd.closed, halt] at h
  | instruction chars =>
    simp only [atEnd, closeInstruction] at h
    split at h
    · simp only [atEnd.closed, reduceCtorEq, if_false, List.nil_append, List.map_cons, List.map_nil,
        List.mem_singleton] at h
      subst h
      simp
    · simp [atEnd.closed, halt] at h
      rcases h with rfl | rfl <;> simp
  | text chars =>
    simp only [atEnd, List.map_cons, List.map_nil, List.mem_cons, List.not_mem_nil, or_false] at h
    rcases h with rfl | rfl <;> simp [textToken]
  | between | opened =>
    obtain rfl := List.mem_singleton.mp h
    simp
  | halted => cases h
  | element | bang | comment | characterData | documentType =>
    simp only [atEnd, halt, List.map_cons, List.map_nil, List.mem_cons, List.not_mem_nil,
      or_false] at h
    rcases h with rfl | rfl <;> simp

variable {s}

/-- A start tag that follows character data leaves a rest of the document, which is read inside of
the new element unless the tag is an empty one. -/
theorem run_start {cs : List Char} {texts : List String} {tag : String}
    {attributes : Except Fault (List (String × String))} {more : List Token}
    (h : (s.run cs).map Located.token = dataTokens texts ++ .start tag attributes :: more) :
    ∃ rest name, rest <:+ cs ∧ tag = reportedTag (String.ofList name) ∧
      (more = .stop :: tokensFrom .between s.names rest ∨
        more = tokensFrom .between (name :: s.names) rest) := by
  induction cs generalizing s texts with
  | nil =>
    have hmem : .start tag attributes ∈ s.atEnd.map Located.token := by
      rw [show s.atEnd.map Located.token = _ from h]
      simp
    exact absurd rfl ((mem_atEnd s hmem).1 tag attributes)
  | cons c cs ih =>
    obtain ⟨found, heffect, hrun, -⟩ := run_next s c cs
    rw [hrun] at h
    -- As long as no tag is complete, the rest is in the same elements.
    have hlater (hnames : (s.next c).names = s.names) (hfound : AtMostData found) :
        ∃ rest name, rest <:+ c :: cs ∧ tag = reportedTag (String.ofList name) ∧
          (more = .stop :: tokensFrom .between s.names rest ∨
            more = tokensFrom .between (name :: s.names) rest) := by
      obtain ⟨texts', -, hrest⟩ := dataTokens_split hfound h rfl
      obtain ⟨rest, name, hsuffix, htag, hmore⟩ := ih hrest
      rw [hnames] at hmore
      exact ⟨rest, name, hsuffix.trans (List.suffix_cons c cs), htag, hmore⟩
    rw [tokens_run (s.next c)] at h
    generalize s.next c = t at heffect h hlater
    obtain ⟨mode', offset', names'⟩ := t
    obtain ⟨mode, offset, names⟩ := s
    cases heffect with
    | bracket hout => exact hlater rfl (atMostData_unread mode)
    | slash => exact hlater rfl (.inl rfl)
    | within hmode hfound => exact hlater rfl hfound
    | endName hc => exact hlater rfl (.inl rfl)
    | start name attributes' =>
      obtain ⟨htag, hmore⟩ := dataTokens_first h rfl rfl
      exact ⟨cs, name, List.suffix_cons c cs, (Token.start.inj htag).1.symm, .inr hmore.symm⟩
    | empty name attributes' =>
      obtain ⟨htag, hmore⟩ := dataTokens_first h rfl rfl
      exact ⟨cs, name, List.suffix_cons c cs, (Token.start.inj htag).1.symm, .inl hmore.symm⟩
    | stop | fault => cases texts <;> cases (List.cons.inj h).1

theorem closeElement_cases (s : Scanner) (chars : List Char) :
    (∃ front, chars = '/' :: front ∧
      (s.closeElement chars).2 = [⟨startToken front.reverse, s.offset⟩, ⟨.stop, s.offset⟩]) ∨
    (s.closeElement chars).2 = [⟨startToken chars.reverse, s.offset⟩] := by
  unfold closeElement
  split
  · next front => exact .inl ⟨front, rfl, rfl⟩
  · exact .inr rfl

/-- What is read from within a tag of which some characters are known, last first: a fault, or a
start tag.  Its attributes are those of all that is between the brackets, except for the slash at
the end of an empty tag. -/
def ReadsTag (chars : List Char) (found : List Token) : Prop :=
  (∃ tag attributes more, found = .start tag attributes :: more ∧
    ((∃ rest, attributes = Xml.attributes (chars.reverse ++ rest)) ∨
      ∃ front, chars = '/' :: front ∧ attributes = Xml.attributes front.reverse)) ∨
  ∃ fault more, found = .broken fault :: more

theorem ReadsTag.of_cons {chars : List Char} {c : Char} {found : List Token}
    (h : ReadsTag (c :: chars) found) : ReadsTag chars found := by
  refine h.imp_left fun ⟨tag, attributes, more, hfound, hattributes⟩ =>
    ⟨tag, attributes, more, hfound, .inl ?_⟩
  rcases hattributes with ⟨rest, hrest⟩ | ⟨front, hfront, hrest⟩
  · exact ⟨c :: rest, by rw [hrest, List.reverse_cons, List.append_assoc]; rfl⟩
  · obtain ⟨rfl, rfl⟩ := List.cons.inj hfront
    exact ⟨[], by rw [hrest, List.append_nil]⟩

theorem run_element (chars cs : List Char) (quote : Option Char) (offset : Nat)
    (names : List (List Char)) :
    ReadsTag chars ((run ⟨.element chars quote, offset, names⟩ cs).map Located.token) := by
  induction cs generalizing chars quote offset with
  | nil => exact .inr ⟨_, _, rfl⟩
  | cons c cs ih =>
    have hlater (quote' : Option Char)
        (hstep : step ⟨.element chars quote, offset + c.utf8Size, names⟩ c =
          (⟨.element (c :: chars) quote', offset + c.utf8Size, names⟩, [])) :
        ReadsTag chars
          ((run ⟨.element chars quote, offset, names⟩ (c :: cs)).map Located.token) := by
      rw [run, hstep]
      exact (ih (c :: chars) quote' _).of_cons
    cases quote with
    | some quote => exact hlater _ rfl
    | none =>
      by_cases hc : c = '>'
      · subst hc
        have hstep : run ⟨.element chars none, offset, names⟩ ('>' :: cs) =
            (closeElement ⟨.element chars none, offset + 1, names⟩ chars).2 ++
              (closeElement ⟨.element chars none, offset + 1, names⟩ chars).1.run cs := rfl
        rw [hstep]
        obtain ⟨front, rfl, hclose⟩ | hclose :=
          closeElement_cases ⟨.element chars none, offset + 1, names⟩ chars
        · rw [hclose]
          exact .inl ⟨_, _, _, rfl, .inr ⟨front, rfl, rfl⟩⟩
        · rw [hclose]
          exact .inl ⟨_, _, _, rfl, .inl ⟨[], by rw [List.append_nil]⟩⟩
      · exact hlater _ (by simp only [step, if_neg hc]; rfl)

theorem closeEndTag_cases (s : Scanner) (chars : List Char) :
    (∃ outer, s.names = endName chars :: outer ∧
      s.closeEndTag chars = (⟨.between, s.offset, outer⟩, [⟨.stop, s.offset⟩])) ∨
    ∃ fault place, s.closeEndTag chars = s.halt fault place := by
  obtain ⟨mode, offset, names⟩ := s
  cases names with
  | nil => exact .inr ⟨_, _, rfl⟩
  | cons expected outer =>
    by_cases hname : endName chars = expected
    · subst hname
      exact .inl ⟨outer, rfl, by simp only [closeEndTag, if_true]⟩
    · exact .inr ⟨_, _, by simp only [closeEndTag, if_neg hname]; rfl⟩

/-- An end tag is read up to its angle bracket, or up to the end of the document.  It closes the
innermost element, or it is a fault. -/
theorem run_closing (chars cs : List Char) (names : List (List Char)) (offset : Nat) :
    (∃ outer, names = endName ((cs.takeWhile (· != '>')).reverse ++ chars) :: outer ∧
      (run ⟨.closing chars, offset, names⟩ cs).map Located.token =
        .stop :: tokensFrom .between outer (cs.dropWhile (· != '>')).tail) ∨
    ∃ fault more,
      (run ⟨.closing chars, offset, names⟩ cs).map Located.token = .broken fault :: more := by
  induction cs generalizing chars offset with
  | nil =>
    have hend : run ⟨.closing chars, offset, names⟩ [] =
        atEnd.closed (closeEndTag ⟨.closing chars, offset, names⟩ chars) := rfl
    rw [hend]
    obtain ⟨outer, hnames, hclose⟩ | ⟨fault, place, hclose⟩ :=
      closeEndTag_cases ⟨.closing chars, offset, names⟩ chars
    · exact .inl ⟨outer, hnames, by rw [hclose]; rfl⟩
    · exact .inr ⟨fault, _, by rw [hclose]; rfl⟩
  | cons c cs ih =>
    by_cases hc : c = '>'
    · subst hc
      have hstep : run ⟨.closing chars, offset, names⟩ ('>' :: cs) =
          (closeEndTag ⟨.closing chars, offset + 1, names⟩ chars).2 ++
            (closeEndTag ⟨.closing chars, offset + 1, names⟩ chars).1.run cs := rfl
      rw [hstep]
      obtain ⟨outer, hnames, hclose⟩ | ⟨fault, place, hclose⟩ :=
        closeEndTag_cases ⟨.closing chars, offset + 1, names⟩ chars
      · exact .inl ⟨outer, hnames, by rw [hclose, List.map_append, tokens_run]; rfl⟩
      · exact .inr ⟨fault, _, by rw [hclose]; rfl⟩
    · have hstep : run ⟨.closing chars, offset, names⟩ (c :: cs) =
          run ⟨.closing (c :: chars), offset + c.utf8Size, names⟩ cs := by
        simp only [run, step, if_neg hc, List.nil_append]
      have hne : (c != '>') = true := bne_iff_ne.mpr hc
      rw [hstep, List.takeWhile_cons_of_pos (by exact hne), List.reverse_cons, List.append_assoc,
        List.dropWhile_cons_of_pos (by exact hne)]
      exact ih _ _

/-- The end tag that follows character data stands behind all of it. -/
theorem run_stop {cs : List Char} {texts : List String} {more : List Token}
    (hmode : ∀ chars, s.mode ≠ .closing chars)
    (h : (s.run cs).map Located.token = dataTokens texts ++ .stop :: more) :
    (s.mode = .opened ∧ texts = [] ∧ ∃ rest, cs = '/' :: rest ∧
      tokensFrom (.closing []) s.names rest = .stop :: more) ∨
    ∃ before rest, cs = before ++ '<' :: '/' :: rest ∧ Outside (s.feed before).1.mode ∧
      (s.feed before).2.map Located.token ++ unread (s.feed before).1.mode = dataTokens texts ∧
      tokensFrom (.closing []) s.names rest = .stop :: more := by
  induction cs generalizing s texts with
  | nil =>
    have hmem : .stop ∈ s.atEnd.map Located.token := by
      rw [show s.atEnd.map Located.token = _ from h]
      simp
    obtain ⟨chars, hchars⟩ := (mem_atEnd s hmem).2 rfl
    exact absurd hchars (hmode chars)
  | cons c cs ih =>
    obtain ⟨found, heffect, hrun, hfeed⟩ := run_next s c cs
    rw [hrun] at h
    have hlater (hnames : (s.next c).names = s.names) (hfound : AtMostData found)
        (hclosing : ∀ chars, (s.next c).mode ≠ .closing chars)
        (hopened : (s.next c).mode = .opened → c = '<' ∧ Outside s.mode ∧ found = unread s.mode) :
        ∃ before rest, c :: cs = before ++ '<' :: '/' :: rest ∧ Outside (s.feed before).1.mode ∧
          (s.feed before).2.map Located.token ++ unread (s.feed before).1.mode =
            dataTokens texts ∧
          tokensFrom (.closing []) s.names rest = .stop :: more := by
      obtain ⟨texts', htexts, hrest⟩ := dataTokens_split hfound h rfl
      rw [← hnames]
      obtain ⟨hmode', rfl, rest, rfl, hmore⟩ | ⟨before, rest, rfl, hout, hdata, hmore⟩ :=
        ih hclosing hrest
      · obtain ⟨rfl, hout, rfl⟩ := hopened hmode'
        exact ⟨[], rest, rfl, hout, htexts.symm ▸ (by simp [feed, dataTokens]), hmore⟩
      · obtain ⟨hstate, htokens⟩ := hfeed before
        refine ⟨c :: before, rest, rfl, hstate ▸ hout, ?_, hmore⟩
        rw [htokens, hstate, List.append_assoc, hdata, htexts]
    rw [tokens_run (s.next c)] at h
    generalize s.next c = t at heffect h hlater
    obtain ⟨mode', offset', names'⟩ := t
    obtain ⟨mode, offset, names⟩ := s
    cases heffect with
    | bracket hout =>
      exact .inr (hlater rfl (atMostData_unread mode) (by simp) fun _ => ⟨rfl, hout, rfl⟩)
    | slash =>
      cases texts with
      | nil => exact .inl ⟨rfl, rfl, cs, rfl, h⟩
      | cons t texts =>
        -- Character data does not come up before the tag is complete.
        obtain ⟨_, -, hrun⟩ | ⟨_, _, hrun⟩ := run_closing [] cs names' 0 <;>
          cases (List.cons.inj (hrun.symm.trans h)).1
    | within hmode' hfound =>
      refine .inr (hlater rfl hfound (fun chars heq => ?_) fun heq => ?_) <;>
      · rw [show mode' = _ from heq] at hmode'
        cases hmode'
    | endName hc => exact absurd rfl (hmode _)
    | stop => exact absurd rfl (hmode _)
    | start name attributes | empty name attributes =>
      cases texts <;> cases (List.cons.inj h).1
    | fault fault => cases texts <;> cases (List.cons.inj h).1

end Scanner

/-! ## The length of character data -/

def Token.data : Token → List Char
  | .text (.ok content) => content.toList
  | _ => []

def dataOf (found : List Token) : List Char := found.flatMap Token.data

theorem dataOf_append (a b : List Token) : dataOf (a ++ b) = dataOf a ++ dataOf b :=
  List.flatMap_append

theorem dataOf_dataTokens (texts : List String) :
    dataOf (Scanner.dataTokens texts) = (String.join texts).toList := by
  rw [dataOf, Scanner.dataTokens, List.flatMap_map, String.toList_join]
  rfl

theorem unescape_unmarked {cs : List Char} (h : '&' ∉ cs) :
    unescape cs = .ok (String.ofList cs) := by
  have hfrom : ∀ total pos, unescapeFrom total pos none cs = .ok cs := by
    induction cs with
    | nil => exact fun _ _ => rfl
    | cons c cs ih =>
      obtain ⟨hc, hcs⟩ := not_or.mp (mt List.mem_cons.mpr h)
      intro total pos
      rw [unescapeFrom_plain _ _ _ _ (Ne.symm hc), ih hcs]
      rfl
  rw [unescape, hfrom]
  rfl

/-- A reference stands for one character and is longer than that, so its mark is never counted. -/
theorem length_unescapeFrom {total pos : Nat} {r : Option Reference} {cs out : List Char}
    (h : unescapeFrom total pos r cs = .ok out) : out.length ≤ cs.countP (· != '&') := by
  induction cs generalizing pos r out with
  | nil =>
    cases r with
    | none =>
      cases h
      exact Nat.le_refl 0
    | some r => cases h
  | cons c cs ih =>
    cases r with
    | none =>
      rw [unescapeFrom] at h
      split at h
      · next hc => simpa [hc] using ih h
      · next hc =>
        cases hrest : unescapeFrom total (pos + c.utf8Size) none cs with
        | error fault =>
          rw [hrest] at h
          cases h
        | ok rest =>
          rw [hrest] at h
          cases h
          rw [List.countP_cons_of_pos (by simpa using hc)]
          exact Nat.succ_le_succ (ih hrest)
    | some r =>
      rw [unescapeFrom] at h
      split at h
      · cases h
      · next hc =>
        rw [List.countP_cons_of_pos (by simpa using hc)]
        split at h
        · split at h
          · cases h
          · cases hrest : unescapeFrom total (pos + 1) none cs with
            | error fault =>
              rw [hrest] at h
              cases h
            | ok rest =>
              rw [hrest] at h
              cases h
              exact Nat.succ_le_succ (ih hrest)
        · exact Nat.le_succ_of_le (ih h)

theorem length_unescape {cs : List Char} {t : String} (h : unescape cs = .ok t) :
    t.toList.length ≤ cs.countP (· != '&') := by
  unfold unescape at h
  cases hout : unescapeFrom (Text.byteLength cs) 0 none cs with
  | error fault =>
    rw [hout] at h
    cases h
  | ok out =>
    rw [hout] at h
    cases h
    rw [String.toList_ofList]
    exact length_unescapeFrom hout

namespace Scanner

/-- The characters read that can still become character data. -/
def credit : Mode → Nat
  | .text chars => chars.countP (· != '&')
  | .characterData chars => chars.length
  | _ => 0

theorem length_textToken (chars : List Char) :
    (textToken chars).data.length ≤ chars.countP (· != '&') := by
  unfold textToken
  cases h : unescape chars.reverse with
  | error fault => exact Nat.zero_le _
  | ok t =>
    have hlength := length_unescape h
    rwa [List.countP_reverse] at hlength

/-- What a step yields at most, given what could still become data before. -/
def Yields (bound : Nat) (r : Scanner × List Located) : Prop :=
  (dataOf (r.2.map Located.token)).length + credit r.1.mode ≤ bound

theorem yields_closeElement (s : Scanner) (chars : List Char) (bound : Nat) :
    Yields bound (s.closeElement chars) := by
  unfold closeElement
  split <;> exact Nat.zero_le _

theorem yields_closeCharacterData (s : Scanner) (chars : List Char) :
    Yields (chars.length + 1) (s.closeCharacterData chars) := by
  simp only [closeCharacterData]
  split
  · simp only [Yields, dataOf, credit, List.map_cons, List.map_nil, List.flatMap_cons,
      List.flatMap_nil, List.append_nil, Token.data, String.toList_ofList, List.length_drop,
      List.length_reverse]
    omega
  · exact Nat.zero_le _

/-- A character yields at most one character of data. -/
theorem step_yields (s : Scanner) (c : Char) : Yields (credit s.mode + 1) (s.step c) := by
  obtain ⟨mode, offset, names⟩ := s
  cases mode with
  | between =>
    simp only [step]
    split
    · exact Nat.zero_le _
    · simpa [Yields, dataOf, credit] using List.countP_le_length (p := (· != '&')) (l := [c])
  | text chars =>
    simp only [step]
    split
    · exact Nat.le_succ_of_le (by simpa [Yields, dataOf, credit] using length_textToken chars)
    · simp only [Yields, credit, List.countP_cons]
      split <;> simp [dataOf]
  | opened =>
    simp only [step]
    split
    · exact Nat.zero_le _
    · split
      · exact Nat.zero_le _
      · split
        · exact Nat.zero_le _
        · split
          · exact yields_closeElement _ _ _
          · exact Nat.zero_le _
  | element chars quote =>
    cases quote with
    | none =>
      simp only [step]
      split
      · exact yields_closeElement _ _ _
      · exact Nat.zero_le _
    | some quote => exact Nat.zero_le _
  | closing chars =>
    simp only [step]
    split
    · obtain ⟨outer, -, hclose⟩ | ⟨fault, place, hclose⟩ :=
        closeEndTag_cases ⟨.closing chars, offset, names⟩ chars <;>
      · rw [hclose]
        exact Nat.zero_le _
    · exact Nat.zero_le _
  | instruction chars =>
    simp only [step, closeInstruction]
    split
    · split <;> exact Nat.zero_le _
    · exact Nat.zero_le _
  | bang =>
    simp only [step]
    split
    · exact Nat.zero_le _
    · split
      · exact Nat.le_refl 1
      · split <;> exact Nat.zero_le _
  | comment chars =>
    simp only [step, closeComment]
    split
    · split <;> exact Nat.zero_le _
    · exact Nat.zero_le _
  | characterData chars =>
    simp only [step]
    split
    · exact yields_closeCharacterData _ _
    · simp [Yields, dataOf, credit]
  | documentType chars depth =>
    simp only [step, closeDocumentType]
    split
    · exact Nat.zero_le _
    · split
      · split
        · split
          · split <;> exact Nat.zero_le _
          · exact Nat.zero_le _
        · exact Nat.zero_le _
      · exact Nat.zero_le _
  | halted => exact Nat.zero_le _

/-- A mark outside of tags yields nothing. -/
theorem step_mark (s : Scanner) {c : Char} (hmode : Outside s.mode) (hc : c = '<' ∨ c = '&') :
    Yields (credit s.mode) (s.step c) := by
  obtain ⟨mode, offset, names⟩ := s
  rcases hmode with rfl | ⟨chars, rfl⟩ <;> rcases hc with rfl | rfl
  · exact Nat.le_refl _
  · exact Nat.le_refl _
  · simpa [Yields, dataOf, credit, step] using length_textToken chars
  · simp [Yields, dataOf, credit, step]

theorem feed_yields (s : Scanner) (cs : List Char) :
    Yields (credit s.mode + cs.length) (s.feed cs) := by
  induction cs generalizing s with
  | nil => exact Nat.le_of_eq (Nat.add_comm _ _)
  | cons c cs ih =>
    have hstep := step_yields { s with offset := s.offset + c.utf8Size } c
    have hrest := ih ({ s with offset := s.offset + c.utf8Size }.step c).1
    unfold Yields at hstep hrest ⊢
    rw [feed, List.map_append, dataOf_append, List.length_append, List.length_cons]
    dsimp only at hstep ⊢
    omega

/-- Text with a mark in it yields less than its length. -/
theorem feed_marked {cs : List Char} (names : List (List Char)) (offset : Nat)
    (h : '<' ∈ cs ∨ '&' ∈ cs) : Yields (cs.length - 1) (feed ⟨.between, offset, names⟩ cs) := by
  obtain ⟨before, c, after, rfl, hbefore, hc⟩ : ∃ before c after, cs = before ++ c :: after ∧
      '<' ∉ before ∧ (c = '<' ∨ c = '&') := by
    by_cases hbracket : '<' ∈ cs
    · obtain ⟨before, after, rfl, hbefore⟩ := List.eq_append_cons_of_mem hbracket
      exact ⟨before, '<', after, rfl, hbefore, .inl rfl⟩
    · obtain ⟨before, after, rfl⟩ := List.append_of_mem (h.resolve_left hbracket)
      exact ⟨before, '&', after, rfl, fun hno => hbracket (List.mem_append_left _ hno), .inr rfl⟩
  -- Up to the mark all is character data, so the scanner is outside of tags there.
  have hstart : feed ⟨.between, offset, names⟩ before =
      (⟨pending before, offset + Text.byteLength before, names⟩, []) :=
    feed_pending [] before offset names fun d hd heq => hbefore (heq ▸ hd)
  have houtside : Outside (pending before) := by
    cases before with
    | nil => exact .inl rfl
    | cons d ds => exact .inr ⟨_, rfl⟩
  have hfirst := feed_yields ⟨.between, offset, names⟩ before
  have hmark := step_mark ⟨pending before, offset + Text.byteLength before + c.utf8Size, names⟩
    houtside hc
  have hrest := feed_yields
    (step ⟨pending before, offset + Text.byteLength before + c.utf8Size, names⟩ c).1 after
  rw [hstart] at hfirst
  rw [feed_append, hstart]
  unfold Yields at hfirst hmark hrest ⊢
  rw [feed, List.nil_append, List.map_append, dataOf_append, List.length_append, List.length_append,
    List.length_cons]
  simp only [List.map_nil, credit] at hfirst hmark hrest ⊢
  omega

theorem length_unread (mode : Mode) : (dataOf (unread mode)).length ≤ credit mode := by
  cases mode with
  | text chars => simpa [unread, dataOf, credit] using length_textToken chars
  | _ => exact Nat.zero_le _

/-- Character data reaches in a document at least as far as it is long, and farther if there is a
mark in what it is read from.  Its end tag stands behind it. -/
theorem tokensFrom_stop {cs : List Char} {names : List (List Char)} {texts : List String}
    {more : List Token} (h : tokensFrom .between names cs = dataTokens texts ++ .stop :: more) :
    ∃ before rest, cs = before ++ '<' :: '/' :: rest ∧
      (String.join texts).toList.length ≤ before.length ∧
      ('<' ∈ before ∨ '&' ∈ before → (String.join texts).toList.length < before.length) ∧
      tokensFrom (.closing []) names rest = .stop :: more := by
  obtain ⟨hno, -⟩ | ⟨before, rest, rfl, -, hdata, hmore⟩ :=
    run_stop (s := ⟨.between, 0, names⟩) (by simp) h
  · cases hno
  · have hlength : (String.join texts).toList.length ≤
        (dataOf ((feed ⟨.between, 0, names⟩ before).2.map Located.token)).length +
          credit (feed ⟨.between, 0, names⟩ before).1.mode := by
      rw [← dataOf_dataTokens, ← hdata, dataOf_append, List.length_append]
      exact Nat.add_le_add_left (length_unread _) _
    refine ⟨before, rest, rfl, ?_, fun hmark => ?_, hmore⟩
    · have hyields : _ ≤ _ := feed_yields ⟨.between, 0, names⟩ before
      simp only [credit, Nat.zero_add] at hyields
      exact Nat.le_trans hlength hyields
    · have hpos : 0 < before.length :=
        hmark.elim List.length_pos_of_mem List.length_pos_of_mem
      have hyields : _ ≤ _ := feed_marked names 0 hmark
      omega

end Scanner

end FormCompiler.Xml
