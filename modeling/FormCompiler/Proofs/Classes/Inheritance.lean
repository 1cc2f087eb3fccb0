import FormCompiler.Classes.Custom
import Mathlib.Logic.Relation
import Mathlib.Data.List.Nodup
import Mathlib.Data.List.Perm.Subperm
import Mathlib.Data.Nat.Find

/-!
# Inheritance among the classes that a form declares

A class derives from another if it is met on the chain of base classes (`derives_iff_reachable`).
The chain may run in a circle; the search for a base class stops after a number of steps that is
enough for every chain without one.
-/

namespace FormCompiler.Classes.Custom

open Document

variable (t : Custom)

/-- One step to a base class. -/
def Extends (c b : String) : Prop := t.base? c = some b

/-- The class that is some steps up from `c`. -/
def ancestor? : Nat → String → Option String
  | 0, c => some c
  | k + 1, c => (t.base? c).bind (ancestor? k)

variable {t}

theorem ancestor?_add (j k : Nat) (c : String) :
    t.ancestor? (j + k) c = (t.ancestor? j c).bind (t.ancestor? k) := by
  induction j generalizing c with
  | zero => rw [Nat.zero_add, ancestor?, Option.bind_some]
  | succ j ih =>
    rw [Nat.succ_add, ancestor?, ancestor?, Option.bind_assoc]
    congr 1
    funext d
    exact ih d

theorem ancestor?_of_loop {c : String} (h : t.Extends c c) (k : Nat) :
    t.ancestor? k c = some c := by
  induction k with
  | zero => rfl
  | succ k ih => rw [ancestor?, show t.base? c = some c from h, Option.bind_some, ih]

theorem reachable_iff_ancestor? {c b : String} :
    Relation.ReflTransGen t.Extends c b ↔ ∃ k, t.ancestor? k c = some b := by
  constructor
  · intro h
    induction h with
    | refl => exact ⟨0, rfl⟩
    | @tail d b _ hd ih =>
      obtain ⟨k, hk⟩ := ih
      refine ⟨k + 1, ?_⟩
      rw [ancestor?_add, hk, Option.bind_some, ancestor?, show t.base? d = some b from hd]
      rfl
  · rintro ⟨k, hk⟩
    induction k generalizing c with
    | zero =>
      cases hk
      exact .refl
    | succ k ih =>
      obtain ⟨d, hd, hk⟩ := Option.bind_eq_some_iff.mp hk
      exact .head hd (ih hk)

/-! ## The search -/

/-- The search stops at a class that is its own base; nothing further up is missed by that. -/
theorem reaches_iff {base : String} (n : Nat) (c : String) :
    t.reaches base n c = true ↔ ∃ k < n, t.ancestor? (k + 1) c = some base := by
  induction n generalizing c with
  | zero => simp [reaches]
  | succ n ih =>
    cases hnext : t.base? c with
    | none => simp [reaches, ancestor?, hnext]
    | some next =>
      have hup (k : Nat) : t.ancestor? (k + 1) c = t.ancestor? k next := by
        rw [ancestor?, hnext, Option.bind_some]
      simp only [reaches, hnext, Bool.or_eq_true, beq_iff_eq, Bool.and_eq_true, bne_iff_ne, hup, ih]
      constructor
      · rintro (rfl | ⟨-, k, hk, hbase⟩)
        · exact ⟨0, by omega, rfl⟩
        · exact ⟨k + 1, by omega, hbase⟩
      · rintro ⟨k, hk, hbase⟩
        by_cases hloop : next = c
        · subst hloop
          rw [ancestor?_of_loop hnext] at hbase
          exact .inl (Option.some.inj hbase)
        · cases k with
          | zero => exact .inl (Option.some.inj hbase)
          | succ k => exact .inr ⟨hloop, k, by omega, hbase⟩

theorem mem_keys_of_extends {c b : String} (h : t.Extends c b) : c ∈ t.entries.map Prod.fst := by
  obtain ⟨n, hn, -⟩ := Option.bind_eq_some_iff.mp h
  obtain ⟨l, l', hl, -⟩ := List.lookup_eq_some_iff.mp hn
  rw [hl]
  simp

/-- On a chain to `b` that is as short as can be, no class is met twice. -/
theorem ancestor?_inj {c b : String} {k : Nat} (hk : t.ancestor? (k + 1) c = some b)
    (hmin : ∀ j < k, t.ancestor? (j + 1) c ≠ some b) {i j : Nat} (hij : i < j) (hj : j ≤ k) :
    t.ancestor? i c ≠ t.ancestor? j c := by
  intro heq
  -- leaving out the circle from `i` to `j` gives a shorter chain
  refine hmin (i + (k - j)) (by omega) ?_
  rw [show i + (k - j) + 1 = i + (k + 1 - j) by omega, ancestor?_add, heq, ← ancestor?_add,
    show j + (k + 1 - j) = k + 1 by omega, hk]

theorem shortest_lt_length {c b : String} {k : Nat} (hk : t.ancestor? (k + 1) c = some b)
    (hmin : ∀ j < k, t.ancestor? (j + 1) c ≠ some b) : k < t.entries.length := by
  let chain := (List.range (k + 1)).map (t.ancestor? · c)
  have hchain : chain.Nodup := by
    refine List.Nodup.map_on (fun i hi j hj heq => ?_) List.nodup_range
    rw [List.mem_range] at hi hj
    rcases Nat.lt_trichotomy i j with hij | hij | hij
    · exact absurd heq (ancestor?_inj hk hmin hij (by omega))
    · exact hij
    · exact absurd heq.symm (ancestor?_inj hk hmin hij (by omega))
  have hkeys : chain ⊆ t.entries.map (some ·.1) := by
    intro x hx
    obtain ⟨i, hi, rfl⟩ := List.mem_map.mp hx
    rw [List.mem_range] at hi
    -- the chain goes on from the class at `i`, so that the table has it
    rw [show k + 1 = i + ((k - i) + 1) by omega, ancestor?_add] at hk
    obtain ⟨d, hd, hup⟩ := Option.bind_eq_some_iff.mp hk
    obtain ⟨e, he, -⟩ := Option.bind_eq_some_iff.mp hup
    obtain ⟨entry, hentry, rfl⟩ := List.mem_map.mp (mem_keys_of_extends he)
    rw [hd]
    exact List.mem_map_of_mem hentry
  have hlength := (List.subperm_of_subset hchain hkeys).length_le
  simp only [chain, List.length_map, List.length_range] at hlength
  exact hlength

theorem reaches_of_ancestor? {c b : String} {k : Nat} (hk : t.ancestor? (k + 1) c = some b) :
    t.reaches b (t.entries.length + 1) c = true := by
  classical
  have hex : ∃ k, t.ancestor? (k + 1) c = some b := ⟨k, hk⟩
  have hshort := shortest_lt_length (Nat.find_spec hex) fun j hj => Nat.find_min hex hj
  exact (reaches_iff _ c).mpr ⟨Nat.find hex, by omega, Nat.find_spec hex⟩

theorem derives_iff {c b : String} :
    t.derives c b = true ↔ Relation.ReflTransGen t.Extends c b := by
  rw [derives, Bool.or_eq_true, beq_iff_eq, reachable_iff_ancestor?]
  constructor
  · rintro (rfl | h)
    · exact ⟨0, rfl⟩
    · obtain ⟨k, -, hk⟩ := (reaches_iff _ c).mp h
      exact ⟨k + 1, hk⟩
  · rintro ⟨k, hk⟩
    cases k with
    | zero => exact .inl (Option.some.inj hk)
    | succ k => exact .inr (reaches_of_ancestor? hk)

/-! ## The table of a form -/

/-- The declarations of classes in a form, in their order. -/
def declarations (f : Form) : List Node :=
  ((f.node.child? "customwidgets").map (·.children "customwidget")).getD []

/-- The declaration that counts for a class: the last one of its name. -/
def declaration? (l : List Node) (c : String) : Option Node :=
  if c.isEmpty then none else l.reverse.find? (·.string "class" == c)

theorem find?_insert (c d : String) (n : Node) :
    (t.insert d n).find? c = if c == d then some n else t.find? c := by
  have hmap (l : List (String × Node)) :
      (l.map fun e => if e.1 == d then (d, n) else e).lookup c =
        if c == d && l.any (·.1 == d) then some n else l.lookup c := by
    induction l with
    | nil => simp
    | cons e l ih =>
      obtain ⟨k, m⟩ := e
      rw [List.map_cons, List.any_cons]
      by_cases hk : k = d
      · subst hk
        cases hc : c == k with
        | true => simp [List.lookup_cons, hc]
        | false =>
          rw [hc, Bool.false_and, if_neg Bool.false_ne_true] at ih
          simpa [List.lookup_cons, hc] using ih
      · rw [beq_false_of_ne hk, Bool.false_or, if_neg Bool.false_ne_true, List.lookup_cons,
          List.lookup_cons, ih]
        by_cases hc : c = k
        · subst hc
          simp [beq_false_of_ne hk]
        · rw [beq_false_of_ne hc]
  rw [insert]
  by_cases hold : t.entries.any (·.1 == d) = true
  · simp only [hold, if_true, find?, hmap, Bool.and_true]
  · have hnone : t.entries.lookup d = none := by
      rw [List.lookup_eq_none_iff]
      intro e he
      rw [bne_iff_ne]
      intro heq
      exact hold (List.any_eq_true.mpr ⟨e, he, beq_iff_eq.mpr heq.symm⟩)
    simp only [hold, Bool.false_eq_true, if_false, find?, List.lookup_append, List.lookup_cons,
      List.lookup_nil]
    by_cases hc : c = d
    · subst hc
      simp [hnone]
    · rw [beq_false_of_ne hc]
      simp

theorem declaration?_cons (n : Node) (l : List Node) (c : String) :
    declaration? (n :: l) c = (declaration? l c).or
      (if n.string "class" = c ∧ c.isEmpty = false then some n else none) := by
  unfold declaration?
  by_cases hc : c.isEmpty = true
  · simp [hc]
  · rw [if_neg hc, if_neg hc, List.reverse_cons, List.find?_append, List.find?_singleton]
    simp [hc]

theorem find?_declare (n : Node) (c : String) :
    (if (n.string "class").isEmpty then t else t.insert (n.string "class") n).find? c =
      (if n.string "class" = c ∧ c.isEmpty = false then some n else none).or (t.find? c) := by
  by_cases hclass : n.string "class" = c
  · subst hclass
    cases hempty : (n.string "class").isEmpty with
    | true => simp
    | false => simp [find?_insert]
  · have hother : ¬(n.string "class" = c ∧ c.isEmpty = false) := fun h => hclass h.1
    rw [if_neg hother, Option.none_or]
    split
    · rfl
    · rw [find?_insert, beq_false_of_ne (Ne.symm hclass), if_neg Bool.false_ne_true]

theorem find?_ofForm (f : Form) (c : String) :
    (ofForm f).find? c = declaration? (declarations f) c := by
  have hfold (l : List Node) (t : Custom) :
      (l.foldl (fun t n => if (n.string "class").isEmpty then t
        else t.insert (n.string "class") n) t).find? c =
        (declaration? l c).or (t.find? c) := by
    induction l generalizing t with
    | nil => simp [declaration?]
    | cons n l ih => rw [List.foldl_cons, ih, find?_declare, declaration?_cons, Option.or_assoc]
  rw [ofForm, hfold]
  exact Option.or_none

/-! ## Main result -/

/-- A class derives from another exactly if that is reachable by steps to base classes, whatever the
table: names may be declared twice, base classes may be missing or run in circles.  So a class
derives from itself and derivation is transitive.  No chain is cut short by the number of steps that
the search takes.  The steps for the classes of a form are those of the last declaration of each
name. -/
theorem derives_iff_reachable (t : Custom) :
    (∀ c b, t.derives c b = true ↔ Relation.ReflTransGen t.Extends c b) ∧
      Std.Refl (fun c b => t.derives c b = true) ∧
      IsTrans String (fun c b => t.derives c b = true) ∧
      (∀ c b, (∃ steps, t.reaches b steps c = true) ↔
        t.reaches b (t.entries.length + 1) c = true) ∧
      ∀ f c b, (ofForm f).Extends c b ↔
        ∃ n, declaration? (declarations f) c = some n ∧ n.string? "extends" = some b := by
  refine ⟨fun c b => derives_iff, ⟨fun c => derives_iff.mpr .refl⟩, ⟨fun c d b hd hb => ?_⟩,
    fun c b => ⟨?_, fun h => ⟨_, h⟩⟩, fun f c b => ?_⟩
  · exact derives_iff.mpr ((derives_iff.mp hd).trans (derives_iff.mp hb))
  · rintro ⟨steps, h⟩
    obtain ⟨k, -, hk⟩ := (reaches_iff steps c).mp h
    exact reaches_of_ancestor? hk
  · rw [Extends, base?, find?_ofForm, Option.bind_eq_some_iff]

end FormCompiler.Classes.Custom
