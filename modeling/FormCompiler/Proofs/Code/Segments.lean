import FormCompiler.Proofs.Code.Tokens
import Mathlib.Data.List.Flatten

/-!
# The lengths of written literals

The text for a byte string is made of segments, each of which holds a run of the bytes (`Cuts`) and
is made of literals that end behind a line feed (`lines`).  A segment is closed with the byte that
takes it beyond 1024 characters.  The characters that a literal has in its segment are at most those
the segment had before that byte, and the four that the byte can take: no literal is longer than
1028 characters (`literals_short`).
-/

namespace FormCompiler.Code

/-! ## The literals of a segment -/

/-- The characters of a segment. -/
def body (bytes : List UInt8) : List Char := bytes.flatMap escapeByte

/-- The bytes of the literals of a segment, the first of which holds `held` already.  A line feed is
the last byte of its literal. -/
def lines (held : List UInt8) : List UInt8 → List (List UInt8)
  | [] => [held]
  | b :: bytes => if b = 0x0a then (held ++ [b]) :: lines [] bytes else lines (held ++ [b]) bytes

theorem flatten_lines (held bytes : List UInt8) : (lines held bytes).flatten = held ++ bytes := by
  induction bytes generalizing held with
  | nil => simp [lines]
  | cons b bytes ih =>
    rw [lines]
    split
    · rw [List.flatten_cons, ih, List.append_assoc]
      rfl
    · rw [ih, List.append_assoc]
      rfl

namespace Scanner

variable {space : Char → Bool} (hline : space '\n' = true) (hquote : space '"' = false)

include hline hquote

/-- The literals of a segment up to its closing quote, by induction on the bytes that are left. -/
theorem tokens_lines (held bytes : List UInt8) (rest : List Char) :
    within.tokens space ('"' :: held.flatMap inLiteral) (body bytes ++ '"' :: rest) =
      (between.tokens space [] rest).map ((lines held bytes).map quoted ++ ·) := by
  induction bytes generalizing held with
  | nil =>
    rw [body, List.flatMap_nil, List.nil_append, tokens, if_pos rfl]
    rfl
  | cons b bytes ih =>
    have hheld : '"' :: held.flatMap inLiteral ++ inLiteral b =
        '"' :: (held ++ [b]).flatMap inLiteral := by simp
    rw [body, List.flatMap_cons, List.append_assoc, lines]
    split
    · -- A line feed closes the literal, and the next one begins on the next line.
      rename_i hb
      have hsplit : escapeByte b = inLiteral b ++ ['"', '\n', '"'] := by
        subst hb
        rfl
      have hgap : ∀ c ∈ ['\n'], space c = true := List.forall_mem_singleton.mpr hline
      have hnext : between.tokens space [] (['\n'] ++ '"' :: (body bytes ++ '"' :: rest)) =
          (between.tokens space [] rest).map ((lines [] bytes).map quoted ++ ·) :=
        (tokens_between hgap hquote [] _).trans (ih [])
      rw [hsplit, List.append_assoc, tokens_glyph (glyph_inLiteral b), hheld, List.cons_append,
        tokens, if_pos rfl]
      refine (congrArg (Option.map _) hnext).trans ?_
      rw [Option.map_map]
      rfl
    · rename_i hb
      have hsame : escapeByte b = inLiteral b := by rw [inLiteral, if_neg hb]
      rw [hsame, tokens_glyph (glyph_inLiteral b), hheld]
      exact ih (held ++ [b])

/-- The literals of several segments with white space between them. -/
theorem tokens_chunks {gap : List Char} (hgap : ∀ c ∈ gap, space c = true)
    {chunks : List (List UInt8)} (hne : chunks ≠ []) :
    within.tokens space ['"']
        (List.intercalate ('"' :: gap ++ ['"']) (chunks.map body) ++ ['"']) =
      some ((chunks.flatMap (lines [])).map quoted) := by
  induction chunks with
  | nil => exact absurd rfl hne
  | cons chunk chunks ih =>
    have hchunk := tokens_lines hline hquote [] chunk
    cases chunks with
    | nil =>
      rw [List.map_singleton, List.intercalate_singleton, List.flatMap_singleton]
      refine (hchunk []).trans ?_
      rw [tokens, Option.map_some, List.append_nil]
    | cons next chunks =>
      have hnext := ih (List.cons_ne_nil next chunks)
      rw [List.map_cons, List.map_cons, List.intercalate_cons_cons, ← List.map_cons,
        List.flatMap_cons, List.map_append]
      simp only [List.append_assoc, List.cons_append, List.nil_append] at hnext ⊢
      refine (hchunk _).trans ?_
      rw [tokens_between hgap hquote, hnext, Option.map_some]

end Scanner

/-! ## Cutting the bytes -/

/-- The bytes are cut into the runs that the segments hold.  All segments but the last go beyond
1024 characters, and only with their last byte.  A cut has characters on both of its sides. -/
structure Cuts (bytes : List UInt8) (chunks : List (List UInt8)) : Prop where
  flatten : chunks.flatten = bytes
  full : ∀ chunk ∈ chunks.dropLast,
    1024 < (body chunk).length ∧ (body chunk.dropLast).length ≤ 1024
  more : ∀ chunk ∈ chunks.tail, body chunk ≠ []

/-- The bytes of a segment would fit into one literal. -/
def Short (chunk : List UInt8) : Prop := (chunk.flatMap inLiteral).length ≤ 1028

theorem body_append (as bs : List UInt8) : body (as ++ bs) = body as ++ body bs :=
  List.flatMap_append

theorem inLiteral_sublist (b : UInt8) : (inLiteral b).Sublist (escapeByte b) := by
  rw [inLiteral]
  split
  · rename_i hb
    subst hb
    decide
  · exact List.Sublist.refl _

theorem length_inLiterals_le (bytes : List UInt8) :
    (bytes.flatMap inLiteral).length ≤ (body bytes).length :=
  (List.Sublist.flatMap_right bytes fun b _ => inLiteral_sublist b).length_le

/-- The longest escapes are the octal ones. -/
theorem length_inLiteral_le (b : UInt8) : (inLiteral b).length ≤ 4 := by
  rw [inLiteral]
  split
  · simp
  rw [escapeByte]
  split
  · simp
  split
  · simp
  split
  · simp
  split
  · rename_i hlarge
    have hlarge : 0x80 ≤ b.toNat := hlarge
    rw [octalDigits_of_large (by omega)]
    simp
  split
  · rw [paddedOctal_eq]
    simp
  · simp

theorem short_of_body {chunk : List UInt8} (h : (body chunk).length ≤ 1024) : Short chunk :=
  Nat.le_trans (length_inLiterals_le chunk) (Nat.le_trans h (by decide))

/-- There is room for a byte more, with carriage returns behind it. -/
theorem short_grown {done : List UInt8} (hdone : (body done).length ≤ 1024) (b : UInt8)
    {returns : List UInt8} (hreturns : body returns = []) : Short (done ++ b :: returns) := by
  have h1 := length_inLiterals_le done
  have h2 := length_inLiteral_le b
  have h3 := length_inLiterals_le returns
  rw [hreturns, List.length_nil] at h3
  rw [Short, List.flatMap_append, List.flatMap_cons, List.length_append, List.length_append]
  omega

theorem flatten_segmentsFrom (current : List Char) (bytes : List UInt8) :
    (segmentsFrom current bytes).flatten = current ++ body bytes := by
  induction bytes generalizing current with
  | nil =>
    rw [segmentsFrom]
    split
    · rename_i hempty
      rw [List.isEmpty_iff.mp hempty]
      rfl
    · simp [body]
  | cons b bytes ih =>
    rw [segmentsFrom]
    split
    · rw [List.flatten_cons, ih, List.append_assoc]
      rfl
    · rw [ih, List.append_assoc]
      rfl

theorem segmentsFrom_ne_nil (current : List Char) (bytes : List UInt8) :
    ∀ segment ∈ segmentsFrom current bytes, segment ≠ [] := by
  induction bytes generalizing current with
  | nil =>
    rw [segmentsFrom]
    split
    · simp
    · rename_i hempty
      exact List.forall_mem_singleton.mpr fun h => hempty (List.isEmpty_iff.mpr h)
  | cons b bytes ih =>
    rw [segmentsFrom]
    split
    · rename_i hlimit
      refine List.forall_mem_cons.mpr ⟨fun h => ?_, ih []⟩
      rw [h] at hlimit
      exact absurd hlimit (Nat.not_lt_zero segmentLimit)
    · exact ih _

theorem segmentsFrom_eq_nil {bytes : List UInt8} (h : body bytes = []) :
    segmentsFrom [] bytes = [] := by
  cases hsegments : segmentsFrom [] bytes with
  | nil => rfl
  | cons segment rest =>
    have hflat := flatten_segmentsFrom [] bytes
    rw [h, hsegments, List.flatten_cons] at hflat
    have hmem : segment ∈ segmentsFrom [] bytes := hsegments ▸ List.mem_cons_self ..
    exact absurd (List.append_eq_nil_iff.mp hflat).1 (segmentsFrom_ne_nil [] bytes segment hmem)

/-- The segments hold the runs of a cut, by induction on the bytes that are left, where `done` are
those in the segment begun.  Carriage returns behind the last segment count as its own. -/
theorem exists_cuts (bytes done : List UInt8) (hdone : (body done).length ≤ 1024)
    (hne : body (done ++ bytes) ≠ []) :
    ∃ chunks, Cuts (done ++ bytes) chunks ∧ (∀ chunk ∈ chunks, Short chunk) ∧
      segmentsFrom (body done) bytes = chunks.map body := by
  induction bytes generalizing done with
  | nil =>
    rw [List.append_nil] at hne ⊢
    refine ⟨[done], ⟨by simp, by simp, by simp⟩, ?_, ?_⟩
    · exact List.forall_mem_singleton.mpr (short_of_body hdone)
    · rw [segmentsFrom, if_neg fun h => hne (List.isEmpty_iff.mp h), List.map_singleton]
  | cons b bytes ih =>
    have hgrown : body done ++ escapeByte b = body (done ++ [b]) := by simp [body]
    rw [segmentsFrom, hgrown]
    by_cases hlimit : segmentLimit < (body (done ++ [b])).length
    · rw [if_pos hlimit]
      by_cases hrest : body bytes = []
      · have hbody : body (done ++ b :: bytes) = body (done ++ [b]) := by
          rw [List.append_cons, body_append, hrest, List.append_nil]
        refine ⟨[done ++ b :: bytes], ⟨by simp, by simp, by simp⟩, ?_, ?_⟩
        · exact List.forall_mem_singleton.mpr (short_grown hdone b hrest)
        · rw [segmentsFrom_eq_nil hrest, List.map_singleton, hbody]
      · obtain ⟨chunks, hcuts, hshort, hsegments⟩ := ih [] (Nat.zero_le _) hrest
        have hmore : ∀ chunk ∈ chunks, body chunk ≠ [] := fun chunk hchunk =>
          segmentsFrom_ne_nil (body []) bytes _ (hsegments ▸ List.mem_map_of_mem hchunk)
        have hchunks : chunks ≠ [] := by
          rintro rfl
          exact hrest (congrArg body hcuts.flatten.symm)
        refine ⟨(done ++ [b]) :: chunks, ⟨?_, ?_, hmore⟩, ?_, ?_⟩
        · rw [List.flatten_cons, hcuts.flatten, List.append_assoc]
          rfl
        · rw [List.dropLast_cons_of_ne_nil hchunks]
          refine List.forall_mem_cons.mpr ⟨⟨hlimit, ?_⟩, hcuts.full⟩
          rwa [List.dropLast_concat]
        · exact List.forall_mem_cons.mpr ⟨short_grown hdone b rfl, hshort⟩
        · rw [List.map_cons, ← hsegments]
          rfl
    · rw [if_neg hlimit]
      have hnext : body ((done ++ [b]) ++ bytes) ≠ [] := by rwa [List.append_assoc]
      obtain ⟨chunks, hcuts, hchunks⟩ := ih (done ++ [b]) (Nat.le_of_not_lt hlimit) hnext
      rw [List.append_assoc] at hcuts
      exact ⟨chunks, hcuts, hchunks⟩

/-- Without characters there is one segment nonetheless, which the closing quote ends. -/
theorem segments_cut (bytes : List UInt8) :
    ∃ chunks, chunks ≠ [] ∧ Cuts bytes chunks ∧ (∀ chunk ∈ chunks, Short chunk) ∧
      ∀ joint, List.intercalate joint (segments bytes) =
        List.intercalate joint (chunks.map body) := by
  by_cases hbody : body bytes = []
  · have hshort : Short bytes := short_of_body (by rw [hbody]; exact Nat.zero_le _)
    refine ⟨[bytes], by simp, ⟨by simp, by simp, by simp⟩, ?_, fun joint => ?_⟩
    · exact List.forall_mem_singleton.mpr hshort
    · rw [segments, segmentsFrom_eq_nil hbody, List.map_singleton, hbody]
      rfl
  · obtain ⟨chunks, hcuts, hshort, hsegments⟩ := exists_cuts bytes [] (Nat.zero_le _) hbody
    refine ⟨chunks, ?_, hcuts, hshort, fun joint => congrArg _ hsegments⟩
    rintro rfl
    exact hbody (congrArg body hcuts.flatten.symm)

/-! ## Main result -/

/-- The text for a byte string is that of segments with white space between them, for every notion
of white space to which line feeds and the indentation belong.  The bytes are cut only where a
segment has grown beyond 1024 characters.  The literals in the text are those of the segments, which
end behind a line feed, and each has at most 1028 characters between its quotes. -/
theorem literals_short (bytes : List UInt8) (indent : String) (space : Char → Bool)
    (hline : space '\n' = true) (hquote : space '"' = false)
    (hindent : ∀ c ∈ indent.toList, space c = true) :
    ∃ chunks, Cuts bytes chunks ∧
      (literal bytes indent).toList = '"' :: (List.intercalate
        ('"' :: ('\n' :: indent.toList ++ indent.toList) ++ ['"']) (chunks.map body) ++ ['"']) ∧
      literalTokens space (literal bytes indent) = some ((chunks.flatMap (lines [])).map quoted) ∧
      ∀ line ∈ chunks.flatMap (lines []), (line.flatMap inLiteral).length ≤ 1028 := by
  have hgap : ∀ c ∈ '\n' :: indent.toList ++ indent.toList, space c = true :=
    List.forall_mem_append.mpr ⟨List.forall_mem_cons.mpr ⟨hline, hindent⟩, hindent⟩
  have htext : (literal bytes indent).toList = '"' :: (List.intercalate
      ('"' :: ('\n' :: indent.toList ++ indent.toList) ++ ['"']) (segments bytes) ++ ['"']) := by
    simp [literal]
  obtain ⟨chunks, hne, hcuts, hshort, hsegments⟩ := segments_cut bytes
  rw [hsegments] at htext
  refine ⟨chunks, hcuts, htext, ?_, fun line hmem => ?_⟩
  · rw [literalTokens, htext, Scanner.tokens, if_pos rfl]
    exact Scanner.tokens_chunks hline hquote hgap hne
  · obtain ⟨chunk, hchunk, hpart⟩ := List.mem_flatMap.mp hmem
    have hsub : line.Sublist chunk := by
      have h := List.sublist_flatten_of_mem hpart
      rwa [flatten_lines, List.nil_append] at h
    exact Nat.le_trans (hsub.flatMap inLiteral).length_le (hshort chunk hchunk)

/-- A segment that is full to the limit before an octal escape, a line feed and a letter. -/
theorem literals_short_limit :
    let bytes : List UInt8 := List.replicate 1024 0x78 ++ [0xff, 0x0a, 0x61]
    (∀ c ∈ "\t ".toList, isSpace c = true) ∧ ∃ chunks, Cuts bytes chunks ∧
      (literal bytes "\t ").toList = '"' :: (List.intercalate
        ('"' :: ('\n' :: "\t ".toList ++ "\t ".toList) ++ ['"']) (chunks.map body) ++ ['"']) ∧
      literalTokens isSpace (literal bytes "\t ") = some ((chunks.flatMap (lines [])).map quoted) ∧
      ∀ line ∈ chunks.flatMap (lines []), (line.flatMap inLiteral).length ≤ 1028 := by
  intro bytes
  have hindent : ∀ c ∈ "\t ".toList, isSpace c = true := by simp [isSpace]
  exact ⟨hindent, literals_short bytes "\t " isSpace rfl rfl hindent⟩

end FormCompiler.Code
