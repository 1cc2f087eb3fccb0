import FormCompiler.Text.Lowercase

/-!
# Lower case of ASCII texts

On ASCII the full lower case mapping moves the 26 capital letters and nothing else, and the rule
for the final sigma never applies.  So the lower case of an ASCII text is taken letter by letter.
-/

set_option maxRecDepth 4000

namespace FormCompiler.Text

/-- All runs of the table but the first lie beyond ASCII. -/
theorem shifts_beyond_ascii : ∀ s ∈ lowercaseShifts.tail, 128 ≤ s.run.first := by
  decide

theorem run_contains_ascii (s : Shift) (n : Nat) (hs : 128 ≤ s.run.first) (hn : n < 128) :
    s.run.contains n = false := by
  have h : decide (s.run.first ≤ n) = false := decide_eq_false (by omega)
  simp [Run.contains, h]

theorem shifted_ascii (n : Nat) (hn : n < 128) :
    shifted? lowercaseShifts n = if 65 ≤ n ∧ n ≤ 90 then some (n + 32) else none := by
  have hcons : lowercaseShifts = ⟨⟨0x41, 0x5a, 1⟩, 0x61⟩ :: lowercaseShifts.tail := rfl
  have htail : lowercaseShifts.tail.find? (fun s => s.run.contains n) = none := by
    rw [List.find?_eq_none]
    intro s hs
    simp [run_contains_ascii s n (shifts_beyond_ascii s hs) hn]
  rw [shifted?, hcons, List.find?_cons, htail]
  by_cases h : 65 ≤ n ∧ n ≤ 90
  · have hc : (⟨0x41, 0x5a, 1⟩ : Run).contains n = true := by
      simp [Run.contains, h.1, h.2, Nat.mod_one]
    rw [hc, if_pos h]
    simp only [Option.map_some, Option.some.injEq]
    omega
  · have hc : (⟨0x41, 0x5a, 1⟩ : Run).contains n = false := by
      simp only [Run.contains, Nat.mod_one, beq_self_eq_true, Bool.and_true, Bool.and_eq_false_iff,
        decide_eq_false_iff_not]
      omega
    rw [hc, if_neg h]
    rfl

theorem toLower_toNat (c : Char) :
    c.toLower = if 65 ≤ c.toNat ∧ c.toNat ≤ 90 then Char.ofNat (c.toNat + 32) else c := by
  change (if h : c.val ≥ 65 ∧ c.val ≤ 90 then _ else c) = _
  simp only [ge_iff_le, UInt32.le_iff_toNat_le]
  change (if h : 65 ≤ c.toNat ∧ c.toNat ≤ 90 then _ else c) = _
  split
  · next h =>
    have hv : (c.toNat + 32).isValidChar := Or.inl (by omega)
    have hn : (Char.ofNat (c.toNat + 32)).toNat = c.toNat + 32 := by
      unfold Char.ofNat
      rw [dif_pos hv]
      rfl
    apply Char.toNat_inj.mp
    rw [hn]
    change (c.val + 32).toNat = c.toNat + 32
    rw [UInt32.toNat_add]
    change (c.toNat + 32) % 4294967296 = c.toNat + 32
    omega
  · rfl

theorem lowerChar_ascii (c : Char) (hc : c.toNat < 128) : lowerChar c = [c.toLower] := by
  rw [lowerChar, if_neg (by omega), shifted_ascii _ hc, toLower_toNat]
  split <;> rfl

theorem lowercaseAfter_ascii (before cs : List Char) (hcs : ∀ c ∈ cs, c.toNat < 128) :
    lowercaseAfter before cs = cs.map Char.toLower := by
  induction cs generalizing before with
  | nil => rfl
  | cons c cs ih =>
    have hc : c.toNat < 128 := hcs c (List.mem_cons_self ..)
    rw [lowercaseAfter, if_neg (by omega), lowerChar_ascii c hc,
      ih (c :: before) (fun d hd => hcs d (List.mem_cons_of_mem c hd))]
    rfl

theorem lowercase_ascii (s : String) (hs : ∀ c ∈ s.toList, c.toNat < 128) :
    lowercase s = String.ofList (s.toList.map Char.toLower) := by
  rw [lowercase, lowercaseAfter_ascii [] s.toList hs]

end FormCompiler.Text
