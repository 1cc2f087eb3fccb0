import FormCompiler.Proofs.Document.Scalar
import FormCompiler.Proofs.Number.Rounding
import Mathlib.Data.List.TakeWhile
import Mathlib.Data.Nat.Digits.Defs

/-!
# Texts with a fixed number of places

A text with a fixed number of places need not determine the value it was made of, but it determines
itself: what is read from it is written as the same text (`fixed_reread`).  For the value read is at
least as near to the decimal as the value it was made of, so it is rounded to the same decimal.
-/

namespace FormCompiler.Number

/-! ## Digits around a point -/

theorem digitsValue_zeros (k : ℕ) (ds : List Char) :
    digitsValue (List.replicate k '0' ++ ds) = digitsValue ds := by
  induction k with
  | zero => rfl
  | succ k ih =>
    rw [List.replicate_succ, List.cons_append]
    exact ih

/-- The text of a decimal is split by its point; the digits on both sides are its digits. -/
theorem toList_placed (n places : ℕ) (hp : 0 < places) :
    ∃ whole fraction, (placed n places).toList = whole ++ '.' :: fraction ∧ whole ≠ [] ∧
      fraction.length = places ∧ (∀ c ∈ whole ++ fraction, c.isDigit = true) ∧
      digitsValue (whole ++ fraction) = n := by
  have hvalue : digitsValue (List.replicate (places + 1 - (decimalDigits n).length) '0' ++
      decimalDigits n) = n := by
    rw [digitsValue_zeros, digitsValue_decimal]
  have hdigits : ∀ c ∈ List.replicate (places + 1 - (decimalDigits n).length) '0' ++
      decimalDigits n, c.isDigit = true := by
    intro c hc
    rcases List.mem_append.mp hc with hc | hc
    · rw [List.eq_of_mem_replicate hc]
      rfl
    · exact decimal_isDigit n c hc
  have hlength : places + 1 ≤ (List.replicate (places + 1 - (decimalDigits n).length) '0' ++
      decimalDigits n).length := by
    rw [List.length_append, List.length_replicate]
    omega
  rw [placed]
  generalize List.replicate (places + 1 - (decimalDigits n).length) '0' ++ decimalDigits n = ds
    at hvalue hdigits hlength
  have hfraction : (ds.drop (ds.length - places)).length = places := by
    rw [List.length_drop]
    omega
  refine ⟨ds.take (ds.length - places), ds.drop (ds.length - places), ?_, ?_, hfraction, ?_, ?_⟩
  · rw [String.toList_ofList, if_neg]
    rw [List.isEmpty_iff]
    intro hnil
    rw [hnil] at hfraction
    exact hp.ne hfraction
  · intro hnil
    have hwhole : (ds.take (ds.length - places)).length = ds.length - places := by
      rw [List.length_take]
      omega
    rw [hnil, List.length_nil] at hwhole
    omega
  · rwa [List.take_append_drop]
  · rwa [List.take_append_drop]

theorem readDecimal_placed (n places : ℕ) (hp : 0 < places) :
    readDecimal? (placed n places).toList = some ⟨n, -places⟩ := by
  obtain ⟨whole, fraction, htext, hwhole, hlength, hdigits, hvalue⟩ := toList_placed n places hp
  have hw : ∀ c ∈ whole, c.isDigit = true := fun c hc => hdigits c (List.mem_append_left _ hc)
  have hf : ∀ c ∈ fraction, c.isDigit = true := fun c hc => hdigits c (List.mem_append_right _ hc)
  have htake : (whole ++ '.' :: fraction).takeWhile Char.isDigit = whole := by
    rw [List.takeWhile_append_of_pos hw, List.takeWhile_cons_of_neg (by decide), List.append_nil]
  have hdrop : (whole ++ '.' :: fraction).dropWhile Char.isDigit = '.' :: fraction := by
    rw [List.dropWhile_append_of_pos hw, List.dropWhile_cons_of_neg (by decide)]
  have htake' : fraction.takeWhile Char.isDigit = fraction := by
    rw [List.takeWhile_eq_self_iff]
    exact hf
  have hdrop' : fraction.dropWhile Char.isDigit = [] := by
    rw [List.dropWhile_eq_nil_iff]
    exact hf
  have hsome : (whole.isEmpty && fraction.isEmpty) = false := by
    rw [List.isEmpty_eq_false_iff.mpr hwhole, Bool.false_and]
  simp only [readDecimal?, htext, htake, hdrop, htake', hdrop', hsome, readExponent?, hlength,
    hvalue, Bool.false_eq_true, if_false, Option.map_some, zero_sub]

/-- A text with a point is none of the words for special values. -/
theorem readMagnitude_placed (t : FloatType) (negative : Bool) (n places : ℕ) (hp : 0 < places) :
    readMagnitude? t negative (placed n places).toList =
      some (DecimalText.toBinary t negative ⟨n, -places⟩) := by
  obtain ⟨whole, fraction, htext, _⟩ := toList_placed n places hp
  have hpoint : '.' ∈ (String.ofList ((placed n places).toList.map Char.toLower)).toList := by
    rw [String.toList_ofList, htext]
    exact List.mem_map.mpr ⟨'.', by simp, by decide⟩
  have hword : ∀ word : String, '.' ∉ word.toList →
      String.ofList ((placed n places).toList.map Char.toLower) ≠ word :=
    fun word hw he => hw (he ▸ hpoint)
  rw [readMagnitude?, if_neg (hword "nan" (by decide)), if_neg, readDecimal_placed n places hp,
    Option.map_some]
  rintro (he | he)
  · exact hword "inf" (by decide) he
  · exact hword "infinity" (by decide) he

theorem readBinary_placed (t : FloatType) (negative : Bool) (n places : ℕ) (hp : 0 < places) :
    readBinary? t (signText negative ++ placed n places) =
      some (DecimalText.toBinary t negative ⟨n, -places⟩) := by
  rw [← readMagnitude_placed t negative n places hp, readBinary?, String.toList_append]
  cases negative with
  | true => rfl
  | false =>
    obtain ⟨whole, fraction, htext, hwhole, _, hdigits, _⟩ := toList_placed n places hp
    have hsign : (signText false).toList ++ (placed n places).toList = (placed n places).toList :=
      List.nil_append _
    rw [hsign, htext]
    cases whole with
    | nil => exact absurd rfl hwhole
    | cons c whole =>
      have hc : c.isDigit = true := hdigits c (by simp)
      rw [List.cons_append]
      split
      · next h =>
        obtain rfl := (List.cons.inj h).1
        exact absurd hc (by decide)
      · next h =>
        obtain rfl := (List.cons.inj h).1
        exact absurd hc (by decide)
      · rfl

/-! ## From decimals to values -/

theorem length_decimalDigits (t : FloatType) {m n places : ℕ} {e : ℤ} (hfits : t.Fits m e)
    (he : e ≤ t.greatestExponent)
    (hclose : |(n : ℚ) / 10 ^ places - Binary.magnitude m e| ≤ 1 / 2) :
    (decimalDigits n).length ≤ 385 + places := by
  apply Nat.toDigits_length 10 n (385 + places) (by omega)
  have hten : (0 : ℚ) < 10 ^ places := by positivity
  have hmagnitude : Binary.magnitude m e ≤ 10 ^ 384 := by
    have hm : (m : ℚ) ≤ 2 ^ (t.precision : ℤ) := by
      rw [zpow_natCast]
      exact_mod_cast hfits.mantissa_lt.le
    calc Binary.magnitude m e ≤ 2 ^ (t.precision : ℤ) * 2 ^ t.greatestExponent :=
          mul_le_mul hm (zpow_two_le he) (by positivity) (by positivity)
      _ = 2 ^ ((t.precision : ℤ) + t.greatestExponent) := (zpow_add₀ two_ne_zero _ _).symm
      _ ≤ 2 ^ ((8 * 128 : ℕ) : ℤ) := zpow_two_le (by cases t <;> decide)
      _ = (2 ^ 8) ^ 128 := by rw [zpow_natCast, pow_mul]
      _ ≤ (10 ^ 3) ^ 128 := pow_le_pow_left₀ (by norm_num) (by norm_num) 128
      _ = 10 ^ 384 := (pow_mul 10 3 128).symm
  have hquotient : (n : ℚ) / 10 ^ places < 10 ^ 385 := by
    have hle := (abs_le.mp hclose).2
    have hone : (1 : ℚ) ≤ 10 ^ 384 := one_le_pow₀ (by norm_num)
    rw [pow_succ]
    generalize (10 : ℚ) ^ 384 = b at hmagnitude hone
    linarith
  rw [div_lt_iff₀ hten, ← pow_add] at hquotient
  exact_mod_cast hquotient

theorem toBinary_representable (t : FloatType) (negative : Bool) (d : DecimalText) :
    (d.toBinary t negative).Representable t := by
  rw [DecimalText.toBinary]
  dsimp only
  split
  · exact Binary.representable_zero t negative
  · split
    · trivial
    · exact Binary.ofQuotient_representable t negative _ _
        (scaleQuotient_pos 10 d.digits 1 d.exponent (by decide) one_pos)

theorem readBinary_representable {t : FloatType} {s : String} {v : Binary}
    (h : readBinary? t s = some v) : v.Representable t := by
  have hmagnitude : ∀ negative cs, readMagnitude? t negative cs = some v → v.Representable t := by
    intro negative cs h
    simp only [readMagnitude?] at h
    split at h
    · obtain rfl := Option.some.inj h
      trivial
    · split at h
      · obtain rfl := Option.some.inj h
        trivial
      · obtain ⟨d, _, rfl⟩ := Option.map_eq_some_iff.mp h
        exact toBinary_representable t negative d
  rw [readBinary?] at h
  split at h
  · exact hmagnitude _ _ h
  · exact hmagnitude _ _ h
  · exact hmagnitude _ _ h

/-- A decimal close to a value of the format is read as a value that is no further away. -/
theorem toBinary_near (t : FloatType) (negative : Bool) {m n places : ℕ} {e : ℤ}
    (hplaces : places ≤ 400) (hfits : t.Fits m e) (he : e ≤ t.greatestExponent)
    (hclose : |(n : ℚ) / 10 ^ places - Binary.magnitude m e| ≤ 1 / 2) :
    ∃ m' e', DecimalText.toBinary t negative ⟨n, -places⟩ = .finite negative m' e' ∧
      |(n : ℚ) / 10 ^ places - Binary.magnitude m' e'| ≤
        |(n : ℚ) / 10 ^ places - Binary.magnitude m e| := by
  rcases Nat.eq_zero_or_pos n with rfl | hn
  · refine ⟨0, t.leastExponent, rfl, ?_⟩
    rw [Binary.magnitude, Nat.cast_zero, zero_mul, zero_div, sub_zero, abs_zero]
    exact abs_nonneg _
  · have hlength := length_decimalDigits t hfits he hclose
    have hne : 0 < (decimalDigits n).length := List.length_pos_iff.mpr (decimal_ne_nil n)
    have hvalue := scaleQuotient_value 10 n 1 (-places) (by decide)
    rw [Nat.cast_one, div_one, Nat.cast_ofNat, zpow_neg, zpow_natCast, ← div_eq_mul_inv] at hvalue
    have hpos := scaleQuotient_pos 10 n 1 (-places) (by decide) one_pos
    have heq : DecimalText.toBinary t negative ⟨n, -places⟩ = Binary.ofQuotient t negative
        (scaleQuotient 10 n 1 (-places)).1 (scaleQuotient 10 n 1 (-places)).2 := by
      rw [DecimalText.toBinary]
      dsimp only
      rw [if_neg (by omega), if_neg (by omega)]
    have hnum := scaleQuotient_num_pos 10 n 1 (-places) (by decide) hn
    rw [heq, ← hvalue]
    rw [← hvalue] at hclose
    exact Binary.ofQuotient_finite t negative hnum hpos hfits he hclose

/-! ## Writing what was read -/

theorem fixed_finite (negative : Bool) (m places : ℕ) (e : ℤ) :
    fixed places (.finite negative m e) = signText negative ++
      placed (roundQuotient ((Binary.quotient m e).1 * Nat.pow 10 places) (Binary.quotient m e).2)
        places := rfl

theorem fixed_rounds (m places : ℕ) (e : ℤ) :
    Rounds (Binary.magnitude m e * 10 ^ places)
      (roundQuotient ((Binary.quotient m e).1 * Nat.pow 10 places) (Binary.quotient m e).2) := by
  have h := roundQuotient_rounds ((Binary.quotient m e).1 * Nat.pow 10 places) _
    (Binary.quotient_pos m e)
  rwa [Nat.pow_eq, Nat.cast_mul, mul_div_right_comm, Binary.quotient_value, Nat.cast_pow,
    Nat.cast_ofNat] at h

theorem readBinary_special (t : FloatType) :
    readBinary? t "NaN" = some .nan ∧ readBinary? t "inf" = some (.infinite false) ∧
      readBinary? t "-inf" = some (.infinite true) := by
  cases t <;> decide +kernel

theorem fixed_isWhite (places : ℕ) (hp : 0 < places) (v : Binary) :
    ∀ c ∈ (fixed places v).toList, Text.isWhite c = false := by
  have hsign : ∀ negative, ∀ c ∈ (signText negative).toList, Text.isWhite c = false := by
    intro negative c hc
    cases negative with
    | false => simp [signText] at hc
    | true =>
      obtain rfl : c = '-' := by simpa [signText] using hc
      decide
  intro c hc
  match v with
  | .nan =>
    have h : c = 'N' ∨ c = 'a' ∨ c = 'N' := by simpa [fixed] using hc
    rcases h with rfl | rfl | rfl <;> decide
  | .infinite negative =>
    rw [fixed, String.toList_append] at hc
    rcases List.mem_append.mp hc with hc | hc
    · exact hsign negative c hc
    · have h : c = 'i' ∨ c = 'n' ∨ c = 'f' := by simpa using hc
      rcases h with rfl | rfl | rfl <;> decide
  | .finite negative m e =>
    rw [fixed_finite, String.toList_append] at hc
    obtain ⟨whole, fraction, htext, _, _, hdigits, _⟩ := toList_placed
      (roundQuotient ((Binary.quotient m e).1 * Nat.pow 10 places) (Binary.quotient m e).2) places
      hp
    rw [htext] at hc
    rcases List.mem_append.mp hc with hc | hc
    · exact hsign negative c hc
    · rcases List.mem_append.mp hc with hc | hc
      · exact Document.Scalar.isWhite_digit c (hdigits c (List.mem_append_left _ hc))
      · rcases List.mem_cons.mp hc with rfl | hc
        · decide
        · exact Document.Scalar.isWhite_digit c (hdigits c (List.mem_append_right _ hc))

/-- The text of a value is read as a value with the same text. -/
theorem fixed_reread (t : FloatType) (places : ℕ) (hp : 0 < places) (hplaces : places ≤ 400)
    (v : Binary) (hv : v.Representable t) :
    ∃ w, readBinary? t (fixed places v) = some w ∧ fixed places w = fixed places v := by
  match v with
  | .nan => exact ⟨.nan, (readBinary_special t).1, rfl⟩
  | .infinite false => exact ⟨.infinite false, (readBinary_special t).2.1, rfl⟩
  | .infinite true => exact ⟨.infinite true, (readBinary_special t).2.2, rfl⟩
  | .finite negative m e =>
    obtain ⟨hfits, he⟩ := hv
    have hten : (0 : ℚ) < 10 ^ places := by positivity
    have hrounds := fixed_rounds m places e
    generalize hn : roundQuotient ((Binary.quotient m e).1 * Nat.pow 10 places)
      (Binary.quotient m e).2 = n at hrounds
    have hscale : ∀ x : ℚ, |(n : ℚ) / 10 ^ places - x| = |x * 10 ^ places - n| / 10 ^ places := by
      intro x
      rw [abs_sub_comm, ← abs_of_pos hten, ← abs_div, abs_of_pos hten, sub_div,
        mul_div_cancel_right₀ _ hten.ne']
    have hclose : |(n : ℚ) / 10 ^ places - Binary.magnitude m e| ≤ 1 / 2 := by
      rw [hscale]
      exact (div_le_self (abs_nonneg _) (one_le_pow₀ (by norm_num))).trans hrounds.near
    obtain ⟨m', e', hread, hnear⟩ := toBinary_near t negative hplaces hfits he hclose
    rw [hscale, hscale, div_le_div_iff_of_pos_right hten] at hnear
    refine ⟨.finite negative m' e', ?_, ?_⟩
    · rw [fixed_finite, hn, readBinary_placed t negative n places hp, hread]
    · have hsame := (fixed_rounds m' places e').unique (hrounds.of_nearer hnear)
      rw [fixed_finite, fixed_finite, hn, hsame]

end FormCompiler.Number
