import FormCompiler.Proofs.Files.Paths

/-!
# Where paths lead in a store that grows

Files are created and written, directories are made, and none of them is ever removed: a store
`Grows`.  A path that led to a directory or to a name in one still leads there in the larger store.
`resolve_beside` says where a path relative to the directory of a file leads.
-/

namespace FormCompiler.Files.Store

/-! ## Entries -/

theorem lookup_filter {place q : List String} (h : q ≠ place)
    (entries : List (List String × Entry)) :
    (entries.filter (·.1 != place)).lookup q = entries.lookup q := by
  induction entries with
  | nil => rfl
  | cons entry entries ih =>
    obtain ⟨p, e⟩ := entry
    by_cases hp : p = place
    · have hq : (q == p) = false := beq_false_of_ne fun heq => h (heq.trans hp)
      rw [List.filter_cons_of_neg (by simp [hp]), ih, List.lookup_cons, hq]
    · rw [List.filter_cons_of_pos (by simp [hp]), List.lookup_cons, List.lookup_cons, ih]

theorem get_put (s : Store) {place : List String} (hplace : place ≠ []) (e : Entry)
    (q : List String) : (s.put place e).get? q = if q = place then some e else s.get? q := by
  unfold get? put
  by_cases hq : q = place
  · have hroot : place.isEmpty = false := List.isEmpty_eq_false_iff.mpr hplace
    rw [hq, hroot, if_neg Bool.false_ne_true, if_pos rfl, List.lookup_cons, beq_self_eq_true]
  · have hne : (q == place) = false := beq_false_of_ne hq
    rw [if_neg hq, List.lookup_cons, hne]
    dsimp only
    rw [lookup_filter hq]

theorem put_put (s : Store) (place : List String) (e e' : Entry) :
    (s.put place e).put place e' = s.put place e' := by
  simp [put, List.filter_filter]

/-! ## Stores that grow -/

/-- Relative paths begin at the same place, and no directory is lost. -/
structure Grows (s t : Store) : Prop where
  here : t.here = s.here
  directories : ∀ place, s.get? place = some .directory → t.get? place = some .directory

theorem Grows.refl (s : Store) : s.Grows s := ⟨rfl, fun _ h => h⟩

theorem Grows.trans {s t u : Store} (h : s.Grows t) (h' : t.Grows u) : s.Grows u :=
  ⟨h'.here.trans h.here, fun place hplace => h'.directories place (h.directories place hplace)⟩

theorem grows_put {s : Store} {place : List String} {e : Entry} (hplace : place ≠ [])
    (h : e = .directory ∨ s.get? place ≠ some .directory) : s.Grows (s.put place e) := by
  refine ⟨rfl, fun q hq => ?_⟩
  rw [get_put s hplace]
  split
  · next heq =>
    subst heq
    rw [h.resolve_right fun hno => hno hq]
  · exact hq

/-! ## Following names -/

theorem find_ok {s : Store} {directory : List String} {name : String} {e : Option Entry}
    (h : s.find directory name = .ok e) :
    name.utf8ByteSize ≤ nameLimit ∧ s.get? (directory ++ [name]) = e := by
  unfold find at h
  split at h
  · cases h
  · next hlimit => exact ⟨Nat.not_lt.mp hlimit, Except.ok.inj h⟩

theorem follow_append (s : Store) (place : List String) (a b : List String) :
    s.follow place (a ++ b) = s.follow place a >>= fun q => s.follow q b := by
  induction a generalizing place with
  | nil => rfl
  | cons name a ih =>
    rw [List.cons_append, follow, follow]
    split
    · exact ih _
    · split
      · exact ih _
      · split
        · exact ih _
        all_goals rfl

theorem follow_leading (s : Store) (place : List String) (names : List String) :
    s.follow place (leading names) = s.follow place names := by
  induction names generalizing place with
  | nil => rfl
  | cons name names ih =>
    by_cases hdot : name = "."
    · rw [leading, List.filter_cons_of_neg (by simp [hdot]), follow, if_pos hdot]
      exact ih place
    · rw [leading, List.filter_cons_of_pos (by simp [hdot]), follow, follow, if_neg hdot,
        if_neg hdot]
      split
      · exact ih _
      · split
        · exact ih _
        all_goals rfl

theorem Grows.find_directory {s t : Store} (h : s.Grows t) {directory : List String}
    {name : String} (hfind : s.find directory name = .ok (some .directory)) :
    t.find directory name = .ok (some .directory) := by
  unfold find at hfind ⊢
  split at hfind
  · cases hfind
  · next hlimit => rw [if_neg hlimit, h.directories _ (Except.ok.inj hfind)]

theorem Grows.follow {s t : Store} (h : s.Grows t) {place goal : List String}
    {names : List String} (hfollow : s.follow place names = .ok goal) :
    t.follow place names = .ok goal := by
  induction names generalizing place with
  | nil => exact hfollow
  | cons name names ih =>
    rw [Store.follow] at hfollow ⊢
    split at hfollow
    · next hdot =>
      rw [if_pos hdot]
      exact ih hfollow
    · next hdot =>
      rw [if_neg hdot]
      split at hfollow
      · next hup =>
        rw [if_pos hup]
        exact ih hfollow
      · next hup =>
        rw [if_neg hup]
        split at hfollow
        · next hfind =>
          rw [h.find_directory hfind]
          exact ih hfollow
        all_goals cases hfollow

theorem follow_single {s : Store} {place goal : List String} {name : String} (hdot : name ≠ ".")
    (hdots : name ≠ "..") (h : s.follow place [name] = .ok goal) : goal = place ++ [name] := by
  rw [follow, if_neg hdot, if_neg hdots] at h
  split at h
  · exact (Except.ok.inj h).symm
  all_goals cases h

/-! ## Resolving paths -/

theorem exists_of_map_ok {α β ε : Type} {x : Except ε α} {f : α → β} {b : β}
    (h : x.map f = .ok b) : ∃ a, x = .ok a ∧ f a = b := by
  cases x with
  | error e => cases h
  | ok a => exact ⟨a, rfl, Except.ok.inj h⟩

/-- Where a path begins. -/
def origin (s : Store) (path : String) : List String :=
  if path.startsWith "/" then [] else s.here

theorem Grows.resolve {s t : Store} (h : s.Grows t) {path : String} {d : Destination}
    (hresolve : s.resolve path = .ok d) : t.resolve path = .ok d := by
  have hmap {names place : List String} {f : List String → Destination}
      (hok : (s.follow place names).map f = .ok d) : (t.follow place names).map f = .ok d := by
    obtain ⟨goal, hfollow, rfl⟩ := exists_of_map_ok hok
    rw [h.follow hfollow]
    rfl
  unfold Store.resolve at hresolve ⊢
  rw [h.here]
  split at hresolve
  · cases hresolve
  · next hnul =>
    rw [if_neg hnul]
    split at hresolve
    · cases hresolve
    · next hempty =>
      rw [if_neg hempty]
      split at hresolve
      · cases hresolve
      · next hlong =>
        rw [if_neg hlong]
        dsimp only at hresolve ⊢
        split at hresolve
        · exact hresolve
        · next last _ =>
          split at hresolve
          · next hdots =>
            rw [if_pos hdots]
            exact hmap hresolve
          · next hdots =>
            rw [if_neg hdots]
            exact hmap hresolve

/-- A path that leads to a name in a directory ends in this name, and the names before it lead to
the directory. -/
theorem resolve_name {s : Store} {path name : String} {directory : List String}
    (h : s.resolve path = .ok (.name directory name)) :
    name ≠ "." ∧ ∃ names, namesOn path = names ++ [name] ∧
      s.follow (s.origin path) names = .ok directory := by
  unfold resolve at h
  split at h
  · cases h
  · split at h
    · cases h
    · split at h
      · cases h
      · dsimp only at h
        split at h
        · cases h
        · next last hlast =>
          split at h
          · obtain ⟨goal, -, hgoal⟩ := exists_of_map_ok h
            cases hgoal
          · next hdots =>
            obtain ⟨goal, hfollow, hgoal⟩ := exists_of_map_ok h
            cases hgoal
            obtain ⟨names, hnames⟩ := List.getLast?_eq_some_iff.mp hlast
            rw [hnames, List.dropLast_concat] at hfollow
            exact ⟨fun hdot => hdots (.inl hdot), names, hnames, hfollow⟩

/-- A path leads to a directory as such only if its last name is that of one anyway. -/
theorem resolve_directory {s : Store} {path last : String} {names place : List String}
    (h : s.resolve path = .ok (.directory place)) (hnames : namesOn path = names ++ [last]) :
    last = "." ∨ last = ".." := by
  unfold resolve at h
  split at h
  · cases h
  · split at h
    · cases h
    · split at h
      · cases h
      · rw [hnames] at h
        dsimp only at h
        rw [List.getLast?_concat] at h
        dsimp only at h
        split at h
        · assumption
        · obtain ⟨goal, -, hgoal⟩ := exists_of_map_ok h
          cases hgoal

theorem resolve_beside {s t : Store} {file name path last : String}
    {directory names : List String} (hgrows : s.Grows t)
    (hfile : s.resolve file = .ok (.name directory name)) (hend : file.endsWith "/" = false)
    (hpath : path.startsWith "/" = false) (hnames : namesOn path = names ++ [last])
    {goal : List String} {found : String}
    (h : t.resolve (join (parent file) path) = .ok (.name goal found)) :
    found = last ∧ t.follow directory names = .ok goal := by
  obtain ⟨hdot, before, hbefore, hfollow⟩ := resolve_name hfile
  obtain ⟨hleading, hstart⟩ := parent_leads hbefore hdot hend
  obtain ⟨-, all, hall, hreach⟩ := resolve_name h
  rw [namesOn_join hpath, hnames, ← List.append_assoc] at hall
  obtain ⟨rfl, hlast⟩ := List.append_inj' hall rfl
  have horigin : t.origin (join (parent file) path) = s.origin file := by
    rw [origin, origin, startsWith_join hpath, hstart, hgrows.here]
  have hparent : t.follow (s.origin file) (namesOn (parent file)) = .ok directory := by
    rw [← follow_leading, hleading, follow_leading]
    exact hgrows.follow hfollow
  rw [horigin, follow_append, hparent] at hreach
  exact ⟨(List.head_eq_of_cons_eq hlast).symm, hreach⟩

/-! ## Operations -/

theorem exists_of_bind_ok {α β ε : Type} {x : Except ε α} {f : α → Except ε β} {b : β}
    (h : x >>= f = .ok b) : ∃ a, x = .ok a ∧ f a = .ok b := by
  cases x with
  | error e => cases h
  | ok a => exact ⟨a, rfl, h⟩

theorem writable_ok {s : Store} {path : String} {place : List String}
    (h : s.writable path = .ok place) :
    ∃ directory name, place = directory ++ [name] ∧ s.resolve path = .ok (.name directory name) ∧
      path.endsWith "/" = false ∧ name.utf8ByteSize ≤ nameLimit ∧
      s.get? place ≠ some .directory := by
  obtain ⟨d, hresolve, hplace⟩ := exists_of_bind_ok h
  cases d with
  | directory goal => cases hplace
  | name directory name =>
    dsimp only at hplace
    split at hplace
    · cases hplace
    · next hend =>
      obtain ⟨e, hfind, hput⟩ := exists_of_bind_ok hplace
      split at hput
      · cases hput
      · next he =>
        have hplace : directory ++ [name] = place := Except.ok.inj hput
        obtain ⟨hlimit, hget⟩ := find_ok hfind
        refine ⟨directory, name, hplace.symm, hresolve, Bool.eq_false_iff.mpr hend, hlimit, ?_⟩
        rw [← hplace, hget]
        exact he

theorem writable_name {s : Store} {path name : String} {directory : List String}
    (h : s.writable path = .ok (directory ++ [name])) :
    s.resolve path = .ok (.name directory name) ∧ path.endsWith "/" = false := by
  obtain ⟨directory', name', hplace, hresolve, hend, -⟩ := writable_ok h
  obtain ⟨rfl, hname⟩ := List.append_inj' hplace rfl
  cases hname
  exact ⟨hresolve, hend⟩

/-- A path leads to the same place in a larger store, if it can still be written. -/
theorem Grows.writable {s t : Store} (h : s.Grows t) {path : String} {place place' : List String}
    (hs : s.writable path = .ok place) (ht : t.writable path = .ok place') : place' = place := by
  obtain ⟨directory, name, rfl, hresolve, -⟩ := writable_ok hs
  obtain ⟨directory', name', rfl, hresolve', -⟩ := writable_ok ht
  rw [h.resolve hresolve] at hresolve'
  cases hresolve'
  rfl

/-- The bytes of what is at a place; none if it is no file. -/
def bytesAt (s : Store) (place : List String) : List UInt8 :=
  match s.get? place with
  | some (.file bytes) => bytes
  | _ => []

theorem create_ok {s t : Store} {path : String} (h : s.create path = .ok t) :
    ∃ place, s.writable path = .ok place ∧ t = s.put place (.file []) := by
  obtain ⟨place, hplace, ht⟩ := exists_of_bind_ok h
  exact ⟨place, hplace, (Except.ok.inj ht).symm⟩

theorem overwrite_ok {s t : Store} {path : String} {bytes : List UInt8}
    (h : s.overwrite path bytes = .ok t) :
    ∃ place, s.writable path = .ok place ∧
      t = s.put place (.file (bytes ++ (s.bytesAt place).drop bytes.length)) := by
  obtain ⟨place, hplace, ht⟩ := exists_of_bind_ok h
  exact ⟨place, hplace, (Except.ok.inj ht).symm⟩

theorem makeDirectory_ok {s t : Store} {path : String} (h : s.makeDirectory path = .ok t) :
    ∃ directory name, s.resolve path = .ok (.name directory name) ∧
      s.get? (directory ++ [name]) = none ∧ t = s.put (directory ++ [name]) .directory := by
  obtain ⟨d, hresolve, ht⟩ := exists_of_bind_ok h
  cases d with
  | directory goal => cases ht
  | name directory name =>
    obtain ⟨e, hfind, ht⟩ := exists_of_bind_ok ht
    cases e with
    | some e => cases ht
    | none => exact ⟨directory, name, hresolve, (find_ok hfind).2, (Except.ok.inj ht).symm⟩

theorem isDirectory_named {s : Store} {path last : String} {names : List String}
    (h : s.isDirectory path = true) (hnames : namesOn path = names ++ [last])
    (hdots : ¬(last = "." ∨ last = "..")) :
    ∃ directory name, s.resolve path = .ok (.name directory name) ∧
      s.get? (directory ++ [name]) = some .directory := by
  unfold isDirectory at h
  split at h
  · next place hresolve => exact absurd (resolve_directory hresolve hnames) hdots
  · next directory name hresolve =>
    refine ⟨directory, name, hresolve, ?_⟩
    cases hfind : s.find directory name with
    | error fault =>
      rw [hfind] at h
      cases h
    | ok e =>
      rw [hfind] at h
      rw [(find_ok hfind).2]
      exact Option.some.inj (eq_of_beq h)
  · cases h

theorem Grows.read {s t : Store} (h : s.Grows t) {path : String} {place : List String}
    {bytes : List UInt8} (hplace : s.writable path = .ok place)
    (hget : t.get? place = some (.file bytes)) : t.read path = .ok bytes := by
  obtain ⟨directory, name, rfl, hresolve, hend, hlimit, -⟩ := writable_ok hplace
  have hfind : t.find directory name = .ok (some (.file bytes)) := by
    rw [find, if_neg (Nat.not_lt.mpr hlimit), hget]
  unfold Store.read
  rw [h.resolve hresolve]
  simp only [bind, Except.bind, hfind]
  rw [asksForDirectory, hend, if_neg Bool.false_ne_true]

theorem grows_file {s : Store} {path : String} {place : List String}
    (h : s.writable path = .ok place) (bytes : List UInt8) :
    s.Grows (s.put place (.file bytes)) := by
  obtain ⟨directory, name, rfl, -, -, -, hno⟩ := writable_ok h
  exact grows_put (by simp) (.inr hno)

theorem writable_ne_root {s : Store} {path : String} {place : List String}
    (h : s.writable path = .ok place) : place ≠ [] := by
  obtain ⟨directory, name, rfl, -⟩ := writable_ok h
  simp

end FormCompiler.Files.Store
