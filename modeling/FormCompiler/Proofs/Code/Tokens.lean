import FormCompiler.Proofs.Code.Literals

/-!
# The tokens of written literals

The literals for a byte string, taken apart into tokens.  A literal ends at its first quote that is
not escaped; what stands between two literals is white space.  Each token decodes by itself to the
bytes that were written into it, and together they give all bytes but the carriage returns
(`literal_faithful`).
-/

namespace FormCompiler.Code

/-! ## Tokens -/

/-- Where a scanner for literals stands: between two, in one, or in one after a backslash. -/
inductive Scanner where
  | between
  | within
  | escaped

/-- The literals in a text, the first of which has been read up to `token`.  There are none if a
literal is not closed on its line, or if anything but white space stands between two of them. -/
def Scanner.tokens (space : Char → Bool) :
    Scanner → List Char → List Char → Option (List (List Char))
  | between, _, [] => some []
  | within, _, [] => none
  | escaped, _, [] => none
  | between, _, c :: cs =>
    if c = '"' then tokens space within [c] cs
    else if space c then tokens space between [] cs
    else none
  | within, token, c :: cs =>
    if c = '"' then (tokens space between [] cs).map ((token ++ [c]) :: ·)
    else if c = '\n' then none
    else tokens space (if c = '\\' then escaped else within) (token ++ [c]) cs
  | escaped, token, c :: cs =>
    if c = '\n' then none else tokens space within (token ++ [c]) cs

def literalTokens (space : Char → Bool) (text : String) : Option (List (List Char)) :=
  Scanner.between.tokens space [] text.toList

/-- A byte within a literal: a line feed is escaped, and does not end the literal by itself. -/
def inLiteral (b : UInt8) : List Char := if b = 0x0a then ['\\', 'n'] else escapeByte b

/-- One literal. -/
def quoted (bytes : List UInt8) : List Char := '"' :: bytes.flatMap inLiteral ++ ['"']

/-- Neither ends a literal nor begins an escape. -/
def isLetter (c : Char) : Bool := c != '"' && c != '\\' && c != '\n'

/-- A letter, or a backslash with the character it escapes and letters after it. -/
inductive Glyph : List Char → Prop
  | nil : Glyph []
  | letter {c : Char} : isLetter c = true → Glyph [c]
  | escape {c : Char} {cs : List Char} : c ≠ '\n' → cs.all isLetter = true → Glyph ('\\' :: c :: cs)

theorem isLetter_digitChar : ∀ d < 8, isLetter (Nat.digitChar d) = true := by decide

theorem isLetter_ascii : ∀ n < 0x80, n ≠ 0x5c ∧ n ≠ 0x22 ∧ n ≠ 0x0a →
    isLetter (Char.ofNat n) = true := by decide +kernel

theorem glyph_octal (b : UInt8) :
    Glyph ['\\', Nat.digitChar (b.toNat / 8 / 8), Nat.digitChar (b.toNat / 8 % 8),
      Nat.digitChar (b.toNat % 8)] := by
  have hlt := b.toNat_lt
  have hdigit : ∀ d < 8, Nat.digitChar d ≠ '\n' := by decide
  refine .escape (hdigit _ (by omega)) ?_
  simp only [List.all_cons, List.all_nil, Bool.and_true, Bool.and_eq_true]
  exact ⟨isLetter_digitChar _ (by omega), isLetter_digitChar _ (by omega)⟩

theorem glyph_inLiteral (b : UInt8) : Glyph (inLiteral b) := by
  have hnat : ∀ {n : UInt8}, b ≠ n → b.toNat ≠ n.toNat := fun h heq => h (UInt8.toNat_inj.mp heq)
  rw [inLiteral]
  by_cases hline : b = 0x0a
  · rw [if_pos hline]
    exact .escape (by decide) rfl
  rw [if_neg hline, escapeByte]
  by_cases hbackslash : b = 0x5c
  · rw [if_pos hbackslash]
    exact .escape (by decide) rfl
  rw [if_neg hbackslash]
  by_cases hquote : b = 0x22
  · rw [if_pos hquote]
    exact .escape (by decide) rfl
  rw [if_neg hquote]
  by_cases hreturn : b = 0x0d
  · rw [if_pos hreturn]
    exact .nil
  rw [if_neg hreturn, if_neg hline]
  by_cases hlarge : 0x80 ≤ b
  · have hlarge' : 0x80 ≤ b.toNat := hlarge
    rw [if_pos hlarge, octalDigits_of_large (by omega)]
    exact glyph_octal b
  rw [if_neg hlarge]
  by_cases hcontrol : b ≤ 0x1f ∨ b = 0x7f
  · rw [if_pos hcontrol, paddedOctal_eq]
    exact glyph_octal b
  rw [if_neg hcontrol]
  exact .letter (isLetter_ascii _ (Nat.lt_of_not_le hlarge)
    ⟨hnat hbackslash, hnat hquote, hnat hline⟩)

namespace Scanner

variable {space : Char → Bool}

theorem tokens_letter {c : Char} (hc : isLetter c = true) (token cs : List Char) :
    within.tokens space token (c :: cs) = within.tokens space (token ++ [c]) cs := by
  simp only [isLetter, Bool.and_eq_true, bne_iff_ne] at hc
  rw [tokens, if_neg hc.1.1, if_neg hc.2, if_neg hc.1.2]

theorem tokens_letters {letters : List Char} (h : letters.all isLetter = true)
    (token cs : List Char) :
    within.tokens space token (letters ++ cs) = within.tokens space (token ++ letters) cs := by
  induction letters generalizing token with
  | nil => rw [List.nil_append, List.append_nil]
  | cons c letters ih =>
    rw [List.all_cons, Bool.and_eq_true] at h
    rw [List.cons_append, tokens_letter h.1, ih h.2, List.append_assoc]
    rfl

theorem tokens_glyph {g : List Char} (hg : Glyph g) (token cs : List Char) :
    within.tokens space token (g ++ cs) = within.tokens space (token ++ g) cs := by
  cases hg with
  | nil => rw [List.nil_append, List.append_nil]
  | letter hc => exact tokens_letter hc token cs
  | @escape c letters hc h =>
    rw [List.cons_append, tokens, if_neg (by decide), if_neg (by decide), if_pos rfl,
      List.cons_append, tokens, if_neg hc, tokens_letters h]
    simp only [List.append_assoc, List.cons_append, List.nil_append]

theorem tokens_between {gap : List Char} (hgap : ∀ c ∈ gap, space c = true)
    (hquote : space '"' = false) (token cs : List Char) :
    between.tokens space token (gap ++ '"' :: cs) = within.tokens space ['"'] cs := by
  induction gap generalizing token with
  | nil => rw [List.nil_append, tokens, if_pos rfl]
  | cons c gap ih =>
    have hc : space c = true := hgap c (List.mem_cons_self ..)
    have hne : c ≠ '"' := by
      rintro rfl
      rw [hquote] at hc
      cases hc
    rw [List.cons_append, tokens, if_neg hne, if_pos hc]
    exact ih (fun d hd => hgap d (List.mem_cons_of_mem c hd)) []

/-! ## What is left of a text within a literal -/

/-- Whatever the literal begun holds already, the text goes on with `bytes` and ends well: the
tokens are literals that hold these bytes. -/
def Completes (space : Char → Bool) (text : List Char) (bytes : List UInt8) : Prop :=
  ∀ held : List UInt8, ∃ chunks : List (List UInt8), chunks ≠ [] ∧
    chunks.flatten = held ++ bytes ∧
      within.tokens space ('"' :: held.flatMap inLiteral) text = some (chunks.map quoted)

theorem completes_end : Completes space ['"'] [] := by
  intro held
  refine ⟨[held], by simp, by simp, ?_⟩
  rw [tokens, if_pos rfl, tokens]
  simp [quoted]

variable {text : List Char} {bytes : List UInt8}

theorem Completes.joint (h : Completes space text bytes) {gap : List Char}
    (hgap : ∀ c ∈ gap, space c = true) (hquote : space '"' = false) :
    Completes space ('"' :: gap ++ '"' :: text) bytes := by
  intro held
  obtain ⟨chunks, -, hflat, htokens⟩ := h []
  refine ⟨held :: chunks, by simp, by rw [List.flatten_cons, hflat, List.nil_append], ?_⟩
  rw [List.cons_append, tokens, if_pos rfl, tokens_between hgap hquote,
    show ['"'] = '"' :: ([] : List UInt8).flatMap inLiteral from rfl, htokens]
  rfl

theorem Completes.byte (h : Completes space text bytes) (b : UInt8) :
    Completes space (inLiteral b ++ text) (b :: bytes) := by
  intro held
  obtain ⟨chunks, hne, hflat, htokens⟩ := h (held ++ [b])
  refine ⟨chunks, hne, by rw [hflat, List.append_assoc]; rfl, ?_⟩
  rw [List.flatMap_append, List.flatMap_singleton] at htokens
  rw [tokens_glyph (glyph_inLiteral b)]
  exact htokens

theorem Completes.escape (h : Completes space text bytes) (hline : space '\n' = true)
    (hquote : space '"' = false) (b : UInt8) :
    Completes space (escapeByte b ++ text) (withoutReturns [b] ++ bytes) := by
  by_cases hb : b = 0x0d
  · subst hb
    exact h
  have hkept : withoutReturns [b] = [b] := by simp [withoutReturns, hb]
  rw [hkept]
  by_cases hfeed : b = 0x0a
  · subst hfeed
    have hgap : ∀ c ∈ ['\n'], space c = true := List.forall_mem_singleton.mpr hline
    exact (h.joint hgap hquote).byte 0x0a
  · have hsame : inLiteral b = escapeByte b := by rw [inLiteral, if_neg hfeed]
    rw [← hsame]
    exact h.byte b

variable (hline : space '\n' = true) (hquote : space '"' = false)

include hline hquote

theorem Completes.escaped (h : Completes space text bytes) (before : List UInt8) :
    Completes space (before.flatMap escapeByte ++ text) (withoutReturns before ++ bytes) := by
  induction before with
  | nil => exact h
  | cons b before ih =>
    have hsplit : withoutReturns (b :: before) = withoutReturns [b] ++ withoutReturns before :=
      List.filter_append [b] before
    rw [List.flatMap_cons, hsplit, List.append_assoc, List.append_assoc]
    exact ih.escape hline hquote b

/-- The segments hold their bytes, by induction on the bytes that are left, where `done` are those
in the segment begun. -/
theorem completes_segments {gap : List Char} (hgap : ∀ c ∈ gap, space c = true)
    (bytes done : List UInt8) :
    Completes space (List.intercalate ('"' :: gap ++ ['"'])
      (segmentsFrom (done.flatMap escapeByte) bytes) ++ ['"'])
      (withoutReturns (done ++ bytes)) := by
  have hlast (done : List UInt8) :
      Completes space (done.flatMap escapeByte ++ ['"']) (withoutReturns done) := by
    have h := Completes.escaped hline hquote completes_end done
    rwa [List.append_nil] at h
  induction bytes generalizing done with
  | nil =>
    rw [segmentsFrom, List.append_nil]
    by_cases hempty : (done.flatMap escapeByte).isEmpty = true
    · have h := hlast done
      rw [List.isEmpty_iff.mp hempty] at h
      rw [if_pos hempty]
      exact h
    · rw [if_neg hempty, List.intercalate_singleton]
      exact hlast done
  | cons b bytes ih =>
    have hgrown : done.flatMap escapeByte ++ escapeByte b =
        (done ++ [b]).flatMap escapeByte := by simp
    have hsplit : withoutReturns (done ++ b :: bytes) =
        withoutReturns (done ++ [b]) ++ withoutReturns bytes := by
      rw [List.append_cons]
      exact List.filter_append _ _
    rw [segmentsFrom, hgrown]
    split
    · rw [hsplit]
      have hrest := ih []
      rw [List.flatMap_nil, List.nil_append] at hrest
      cases hsegments : segmentsFrom [] bytes with
      | nil =>
        -- the bytes that are left are carriage returns
        rw [hsegments] at hrest
        rw [List.intercalate_singleton]
        exact Completes.escaped hline hquote hrest _
      | cons next rest =>
        rw [hsegments] at hrest
        have h := Completes.escaped hline hquote (hrest.joint hgap hquote) (done ++ [b])
        rw [List.intercalate_cons_cons]
        simpa only [List.cons_append, List.append_assoc, List.nil_append] using h
    · have h := ih (done ++ [b])
      rwa [List.append_assoc] at h

end Scanner

/-! ## Main result -/

theorem read_quoted (bytes : List UInt8) :
    Lexer.before.read (quoted bytes) = some (withoutReturns bytes, []) := by
  have hbody (bytes : List UInt8) (cs : List Char) :
      Lexer.inside.read (bytes.flatMap inLiteral ++ cs) =
        Lexer.after (withoutReturns bytes) (Lexer.inside.read cs) := by
    induction bytes with
    | nil => exact (Lexer.after_nil _).symm
    | cons b bytes ih =>
      have hbyte (cs : List Char) : Lexer.inside.read (inLiteral b ++ cs) =
          Lexer.after (withoutReturns [b]) (Lexer.inside.read cs) := by
        rw [inLiteral]
        split
        · subst b
          exact Lexer.read_simple rfl rfl cs
        · exact Lexer.read_escapeByte b cs
      rw [List.flatMap_cons, List.append_assoc, hbyte, ih, Lexer.after_after]
      exact congrArg (Lexer.after · _) (List.filter_append [b] bytes).symm
  have hbegin : Lexer.before.step '"' = some ([], .inside) := rfl
  rw [quoted, List.cons_append, Lexer.read_step hbegin, Lexer.after_nil, hbody,
    show Lexer.inside.read ['"'] = some ([], []) from rfl, Lexer.after, Option.map_some,
    List.append_nil]

/-- The text for a byte string is made of one or more literals with white space between them, for
every notion of white space to which line feeds and the indentation belong.  Each literal read by
itself stands for the bytes that it was written for: nothing in it ends it early or becomes part of
an escape before it.  Together the literals stand for all bytes but the carriage returns. -/
theorem literal_faithful (bytes : List UInt8) (indent : String) (space : Char → Bool)
    (hline : space '\n' = true) (hquote : space '"' = false)
    (hindent : ∀ c ∈ indent.toList, space c = true) :
    ∃ chunks : List (List UInt8), chunks ≠ [] ∧
      literalTokens space (literal bytes indent) = some (chunks.map quoted) ∧
      (∀ chunk ∈ chunks, Lexer.before.read (quoted chunk) = some (chunk, [])) ∧
      chunks.flatten = bytes.filter (· != 0x0d) := by
  have hgap : ∀ c ∈ '\n' :: indent.toList ++ indent.toList, space c = true :=
    List.forall_mem_append.mpr ⟨List.forall_mem_cons.mpr ⟨hline, hindent⟩, hindent⟩
  have htext : (literal bytes indent).toList =
      '"' :: (List.intercalate ('"' :: ('\n' :: indent.toList ++ indent.toList) ++ ['"'])
        (segmentsFrom (([] : List UInt8).flatMap escapeByte) bytes) ++ ['"']) := by
    simp [literal, segments]
  obtain ⟨chunks, hne, hflat, htokens⟩ := Scanner.completes_segments hline hquote hgap bytes [] []
  refine ⟨chunks, hne, ?_, ?_, hflat⟩
  · rw [literalTokens, htext, Scanner.tokens, if_pos rfl]
    exact htokens
  · intro chunk hchunk
    have hreturn : withoutReturns chunk = chunk := by
      refine List.filter_eq_self.mpr fun b hb => ?_
      have hmem : b ∈ withoutReturns bytes := by
        rw [show withoutReturns bytes = chunks.flatten from hflat.symm]
        exact List.mem_flatten_of_mem hchunk hb
      exact (List.mem_filter.mp hmem).2
    rw [read_quoted, hreturn]

/-- Escapes before digits, a line feed and a carriage return. -/
theorem literal_faithful_digits :
    let bytes : List UInt8 := [0x5c, 0x22, 0x0a, 0x01, 0x31, 0xff, 0x0d, 0x37]
    literal bytes "\t " = "\"\\\\\\\"\\n\"\n\"\\0011\\3777\"" ∧
      ∃ chunks : List (List UInt8), chunks ≠ [] ∧
        literalTokens isSpace (literal bytes "\t ") = some (chunks.map quoted) ∧
        (∀ chunk ∈ chunks, Lexer.before.read (quoted chunk) = some (chunk, [])) ∧
        chunks.flatten = [0x5c, 0x22, 0x0a, 0x01, 0x31, 0xff, 0x37] :=
  ⟨by decide +kernel,
    literal_faithful [0x5c, 0x22, 0x0a, 0x01, 0x31, 0xff, 0x0d, 0x37] "\t " isSpace rfl rfl
      (by simp [isSpace])⟩

end FormCompiler.Code
