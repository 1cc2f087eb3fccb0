import FormCompiler.Proofs.Naming.Table

/-!
# The first free name

The candidates for a name are tried one after the other: the base, then the base with 1, 2, … behind
it.  The search ends, at the first candidate that is not taken, since every number gives another
name; the number it ends at is at most that of the names taken.
-/

namespace FormCompiler.Naming

open Number (natText)

/-! ## Characters of names -/

/-- A character that may stand in a name. -/
def isIdentifierChar (c : Char) : Bool := Text.isAlphanumeric c || c == '_'

theorem isIdentifierChar_digit {c : Char} (h : c.isDigit = true) : isIdentifierChar c = true := by
  have hrange : '0'.toNat ≤ c.toNat ∧ c.toNat ≤ '9'.toNat := by
    simp only [Char.isDigit, Bool.and_eq_true, decide_eq_true_eq] at h
    exact h
  have hstretch (gap stretch : Nat) (rest : List Nat) (hfirst : gap ≤ c.toNat)
      (hlast : c.toNat < gap + stretch) :
      Text.inLengths (gap :: stretch :: rest) c.toNat = true := by
    rw [Text.inLengths, if_neg (Nat.not_lt.mpr hfirst), if_pos hlast]
  have halphanumeric : Text.isAlphanumeric c = true :=
    hstretch 48 10 _ hrange.1 (Nat.lt_succ_of_le hrange.2)
  rw [isIdentifierChar, halphanumeric, Bool.true_or]

theorem isIdentifierChar_normalized (name : String) :
    ∀ c ∈ (normalized name).toList, isIdentifierChar c = true := by
  intro c hc
  rw [normalized, String.toList_map] at hc
  obtain ⟨d, -, rfl⟩ := List.mem_map.mp hc
  rw [identifierChar, isIdentifierChar]
  split
  · next h => rw [h, Bool.true_or]
  · rw [beq_self_eq_true, Bool.or_true]

namespace Table

theorem isIdentifierChar_baseName (wanted className : String) :
    ∀ c ∈ (baseName wanted className).toList, isIdentifierChar c = true := by
  unfold baseName
  split
  · exact isIdentifierChar_normalized wanted
  · split
    · exact isIdentifierChar_normalized _
    · rw [show "var" = normalized "var" by decide +kernel]
      exact isIdentifierChar_normalized "var"

theorem isIdentifierChar_numbered {base : String}
    (hbase : ∀ c ∈ base.toList, isIdentifierChar c = true) (k : Nat) :
    ∀ c ∈ (numbered base k).toList, isIdentifierChar c = true := by
  intro c hc
  rw [numbered, natText, String.toList_append, String.toList_ofList] at hc
  rcases List.mem_append.mp hc with hc | hc
  · exact hbase c hc
  · exact isIdentifierChar_digit (Number.decimal_isDigit k c hc)

/-! ## The search -/

/-- The search that has come to `name`, with `k` as the next number to try, ends at `found`. -/
inductive Search (taken : List String) (base : String) : String → Nat → String → Prop
  | free {name : String} {k : Nat} (h : name ∉ taken) : Search taken base name k name
  | again {name found : String} {k : Nat} (h : name ∈ taken)
      (rest : Search taken base (numbered base k) (k + 1) found) : Search taken base name k found

variable {taken : List String} {base : String}

/-- The search goes on from one number to the first that gives a free name. -/
theorem search_numbered {m : Nat} (hfree : numbered base m ∉ taken) (n k : Nat) (hk : k + n = m)
    (htaken : ∀ j, k ≤ j → j < m → numbered base j ∈ taken) :
    Search taken base (numbered base k) (k + 1) (numbered base m) := by
  induction n generalizing k with
  | zero =>
    obtain rfl : k = m := hk
    exact .free hfree
  | succ n ih =>
    refine .again (htaken k (Nat.le_refl k) (by omega)) (ih (k + 1) (by omega) ?_)
    intro j hj
    exact htaken j (by omega)

/-- If the base is taken, the name found has the first number that gives a free name. -/
theorem firstFree_least (hbase : base ∈ taken) :
    ∃ k, 1 ≤ k ∧ firstFree taken base = numbered base k ∧
      ∀ j, 1 ≤ j → j < k → numbered base j ∈ taken := by
  obtain ⟨name, hname, hfree⟩ := exists_free taken base
  have hsome : ((candidates taken base).find? (!taken.contains ·)).isSome :=
    List.find?_isSome.mpr ⟨name, hname, by simpa using hfree⟩
  rw [candidates, List.find?_map, Option.isSome_map] at hsome
  obtain ⟨i, hi⟩ := Option.isSome_iff_exists.mp hsome
  refine ⟨i + 1, Nat.succ_pos i, ?_, fun j hj hlt => ?_⟩
  · rw [firstFree, if_pos (by simpa using hbase), List.find?_map, hi]
    rfl
  · obtain ⟨-, -, hbefore⟩ := List.find?_range_eq_some.mp hi
    have hj' := hbefore (j - 1) (by omega)
    rw [Function.comp_apply, Nat.sub_add_cancel hj] at hj'
    simpa using hj'

theorem numbered_ne_base (base : String) (k : Nat) : numbered base k ≠ base := by
  intro h
  have hlength := congrArg (·.toList.length) h
  have hpositive := List.length_pos_iff.mpr (Number.decimal_ne_nil k)
  simp only [numbered, natText, String.toList_append, String.toList_ofList,
    List.length_append] at hlength
  omega

theorem tried_nodup (base : String) (k : Nat) :
    (base :: (List.range k).map fun j => numbered base (j + 1)).Nodup := by
  rw [List.nodup_cons, List.mem_map]
  refine ⟨fun ⟨j, _, hj⟩ => numbered_ne_base base (j + 1) hj, ?_⟩
  rw [List.Nodup, List.pairwise_map]
  refine List.nodup_range.imp fun hne he => hne ?_
  have hk := numbered_injective base _ _ he
  omega

/-- However the names taken are listed, the number found is at most the length of the list. -/
theorem number_le {k : Nat} (hbase : base ∈ taken)
    (htaken : ∀ j, 1 ≤ j → j < k → numbered base j ∈ taken) {names : List String}
    (hnames : taken ⊆ names) : k ≤ names.length := by
  have hsub : (base :: (List.range (k - 1)).map fun j => numbered base (j + 1)) ⊆ names := by
    refine List.cons_subset.mpr ⟨hnames hbase, fun x hx => ?_⟩
    obtain ⟨j, hj, rfl⟩ := List.mem_map.mp hx
    rw [List.mem_range] at hj
    exact hnames (htaken (j + 1) (Nat.succ_pos j) (by omega))
  have hle := (tried_nodup base (k - 1)).length_le_of_subset hsub
  rw [List.length_cons, List.length_map, List.length_range] at hle
  omega

/-! ## Handing out a name -/

/-- A name is handed out for an object with a wanted name and a class, either of which may be empty.
The search for it begins at the base, which is not empty, and ends.  If the base is taken, the name
is the base with the least number behind it that makes it free, and the number is at most that of
the names taken, however they are listed.  The name was free, and it is all that changes. -/
theorem unique_finds_first (t : Table) (wanted className : String) :
    let base := if wanted ≠ "" then normalized wanted
      else if className ≠ "" then normalized (ofClass className) else "var"
    let name := (t.unique wanted className).1
    base ≠ "" ∧ Search t.taken base base 1 name ∧ (base ∉ t.taken → name = base) ∧
      (base ∈ t.taken → ∃ k, 1 ≤ k ∧ name = base ++ natText k ∧
        (∀ j, 1 ≤ j → j < k → base ++ natText j ∈ t.taken) ∧
        ∀ names : List String, t.taken ⊆ names → k ≤ names.length) ∧
      name ≠ "" ∧ (∀ c ∈ name.toList, Text.isAlphanumeric c = true ∨ c = '_') ∧
      name ∉ t.taken ∧ (t.unique wanted className).2.1 = { t with taken := name :: t.taken } := by
  intro base name
  have hbase : base = baseName wanted className := by
    simp only [base, baseName, String.isEmpty_iff, Bool.not_eq_true', ne_eq,
      ← Bool.not_eq_true]
  have hname : name = firstFree t.taken base := by rw [hbase]; rfl
  have hfree : name ∉ t.taken := unique_fresh t wanted className
  have hchars : ∀ c ∈ base.toList, isIdentifierChar c = true := by
    rw [hbase]
    exact isIdentifierChar_baseName wanted className
  have hsame : base ∉ t.taken → name = base := fun h => by
    rw [hname, firstFree, if_neg (by simpa using h)]
  refine ⟨hbase ▸ baseName_ne_empty wanted className, ?_, hsame, fun hmem => ?_,
    unique_ne_empty t wanted className, fun c hc => ?_, hfree, rfl⟩
  · by_cases hmem : base ∈ t.taken
    · obtain ⟨k, hk, hnumber, htaken⟩ := firstFree_least hmem
      rw [hname, hnumber] at hfree ⊢
      exact .again hmem (search_numbered hfree (k - 1) 1 (by omega) htaken)
    · rw [hsame hmem]
      exact .free hmem
  · obtain ⟨k, hk, hnumber, htaken⟩ := firstFree_least hmem
    exact ⟨k, hk, hname.trans hnumber, htaken, fun _ hnames => number_le hmem htaken hnames⟩
  · have hidentifier : isIdentifierChar c = true := by
      rw [hname] at hc
      rcases firstFree_base t.taken base with h | ⟨k, h⟩
      · exact hchars c (h ▸ hc)
      · exact isIdentifierChar_numbered hchars k c (h ▸ hc)
    simpa [isIdentifierChar] using hidentifier

end Table

end FormCompiler.Naming
