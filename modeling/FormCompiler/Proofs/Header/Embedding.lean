import FormCompiler.Proofs.Code.Literals
import FormCompiler.Proofs.Extraction

/-!
# Embedded images and extracted images

An image is embedded as an array that string literals initialize, or written to a file as it is.
The two hold the same bytes if and only if there is no carriage return among them
(`embedding_faithful_iff`): literals leave carriage returns out, so the array is too short by one
byte for each of them.
-/

namespace FormCompiler.Header

open Code Files

/-- The size of an array that literals initialize: their bytes, and a zero byte at the end. -/
def arraySize (literals : List UInt8) : Nat := literals.length + 1

theorem withoutReturns_eq_iff (bytes : List UInt8) :
    withoutReturns bytes = bytes ↔ 0x0d ∉ bytes := by
  rw [withoutReturns, List.filter_eq_self]
  refine ⟨fun h hmem => absurd (h _ hmem) (by decide), fun h b hb => ?_⟩
  have hne : b ≠ 0x0d := fun heq => h (heq ▸ hb)
  simpa using hne

theorem length_withoutReturns (bytes : List UInt8) :
    (withoutReturns bytes).length + bytes.count 0x0d = bytes.length := by
  induction bytes with
  | nil => rfl
  | cons b bytes ih =>
    have hcons : withoutReturns (b :: bytes) =
        if b = 0x0d then withoutReturns bytes else b :: withoutReturns bytes := by
      simp only [withoutReturns, List.filter_cons, bne_iff_ne, ne_eq, ite_not]
    by_cases hb : b = 0x0d
    · rw [hcons, if_pos hb, hb, List.count_cons_self, List.length_cons]
      omega
    · rw [hcons, if_neg hb, List.count_cons_of_ne hb, List.length_cons, List.length_cons]
      omega

theorem arraySize_iff (bytes : List UInt8) :
    arraySize (withoutReturns bytes) - 1 = bytes.length ↔ 0x0d ∉ bytes := by
  have hlength := length_withoutReturns bytes
  rw [arraySize, ← List.count_eq_zero]
  omega

/-- The array of an image is initialized by its bytes without the carriage returns. -/
theorem imageText_initializer {indent : String}
    (hindent : ∀ c ∈ indent.toList, isSpace c = true) {i : Image} (hi : i.isSourceText = false)
    (breaksRows : Bool) :
    ∃ initializer, imageText indent breaksRows i =
        indent ++ "static const unsigned char " ++ dataName i.name ++ "[] =" ++ initializer ∧
      readLiterals initializer = some (withoutReturns i.bytes, ";\n\n") := by
  refine ⟨_, ?_, readLiterals_literal i.bytes hindent "\n\n"⟩
  have hline : "[] =\n" = "[] =" ++ "\n" := rfl
  have hend : ";\n\n" = ";" ++ "\n\n" := rfl
  rw [imageText, if_neg (by simp [hi]), hline, hend]
  simp only [String.append_assoc]

theorem caseText_size (indent : String) {i : Image} (hi : i.isSourceText = false) :
    ∃ front back, caseText indent i =
      front ++ ("loadFromData(" ++ dataName i.name ++ ", sizeof(" ++ dataName i.name ++ ") - 1") ++
        back := by
  refine ⟨indent ++ indent ++ "case " ++ imageEnumerator i.name ++ ": " ++ "\x7b QImage img; img.",
    ", " ++ textLiteral i.format (indent ++ indent) ++
      "); return QPixmap::fromImage(img); \x7d\n", ?_⟩
  have hcall : "\x7b QImage img; img.loadFromData(" =
      "\x7b QImage img; img." ++ "loadFromData(" := rfl
  have hsize : ") - 1, " = ") - 1" ++ ", " := rfl
  simp only [caseText, hi, Bool.false_eq_true, if_false, hcall, hsize, String.append_assoc]

/-- An image that is embedded in a header, with white space for the indentation, and the same image
in a file.  The array is initialized by the bytes of the image without the carriage returns, and the
picture is made from as many bytes as that are; the file has all bytes of the image.  So the array
holds what the file holds, and the number of bytes is that of the image, if and only if there is no
carriage return. -/
theorem embedding_faithful_iff (indent : String) (hindent : ∀ c ∈ indent.toList, isSpace c = true)
    (i : Image) (hi : i.format ≠ "XPM.GZ") (breaksRows : Bool) :
    ∃ initializer embedded,
      imageText indent breaksRows i =
          indent ++ "static const unsigned char " ++ dataName i.name ++ "[] =" ++ initializer ∧
        readLiterals initializer = some (embedded, ";\n\n") ∧
        embedded = i.bytes.filter (· != 0x0d) ∧
        (∃ front back, caseText indent i = front ++
          ("loadFromData(" ++ dataName i.name ++ ", sizeof(" ++ dataName i.name ++ ") - 1") ++
            back) ∧
        (arraySize embedded - 1 = i.bytes.length ↔ 0x0d ∉ i.bytes) ∧
        ∀ contents isDirectory directory, ∃ file,
          (writeImage (recording contents isDirectory) directory i []).2 =
              [.create (Files.join directory i.fileName),
                .overwrite (Files.join directory i.fileName) file] ∧
            file = i.bytes ∧ (embedded = file ↔ 0x0d ∉ i.bytes) := by
  have hsource : i.isSourceText = false := by simpa [Image.isSourceText] using hi
  obtain ⟨initializer, htext, hread⟩ := imageText_initializer hindent hsource breaksRows
  refine ⟨initializer, _, htext, hread, rfl, caseText_size indent hsource, arraySize_iff i.bytes,
    fun contents isDirectory directory => ⟨i.bytes, ?_, rfl, withoutReturns_eq_iff i.bytes⟩⟩
  have hfile : i.fileBytes = i.bytes := by rw [Image.fileBytes, hsource]; rfl
  rw [writeImage_recorded, imageChanges, hfile, List.nil_append]

/-- An image that is nothing but the bytes with which every file of its format begins. -/
def signature : Image := ⟨some "logo", "PNG", [0x89, 0x50, 0x4e, 0x47, 0x0d, 0x0a, 0x1a, 0x0a]⟩

theorem embedding_faithful_iff_signature :
    (∀ c ∈ "    ".toList, isSpace c = true) ∧ signature.format ≠ "XPM.GZ" ∧
      ∃ initializer embedded,
        imageText "    " true signature =
            "    " ++ "static const unsigned char " ++ "logo_data" ++ "[] =" ++ initializer ∧
          readLiterals initializer = some (embedded, ";\n\n") ∧
          embedded = [0x89, 0x50, 0x4e, 0x47, 0x0a, 0x1a, 0x0a] ∧
          arraySize embedded - 1 ≠ signature.bytes.length := by
  have hindent : ∀ c ∈ "    ".toList, isSpace c = true := List.all_eq_true.mp rfl
  have hformat : signature.format ≠ "XPM.GZ" := by decide
  obtain ⟨initializer, embedded, htext, hread, hembedded, -, hsize, -⟩ :=
    embedding_faithful_iff "    " hindent signature hformat true
  refine ⟨hindent, hformat, initializer, embedded, htext, hread, hembedded, fun h => ?_⟩
  exact absurd (hsize.mp h) (by decide)

end FormCompiler.Header
