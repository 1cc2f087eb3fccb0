import FormCompiler.Proofs.Files.Stores

/-!
# Disks on which operations fail

An operation on a store fails only for a reason that lies in the store.  On a disk it can also fail
for other reasons: a permission is missing, or there is no space left.  A disk is a store together
with the outages to come, one for each operation; an operation that meets an outage fails, and a
write that fails may have written some of its bytes.
-/

namespace FormCompiler.Files

/-- A failure for which the store is not to blame. -/
structure Outage where
  fault : Fault
  /-- How many bytes are written before a write fails. -/
  written : Nat
  deriving Repr, DecidableEq

/-- A store, and what becomes of the operations to come; those after the last go well. -/
structure Disk where
  store : Store
  outages : List (Option Outage) := []
  deriving Repr, DecidableEq

namespace Disk

/-- Carries out a change of the store, unless there is an outage. -/
def attempt (f : Store → Except Fault Store) (broken : Outage → Store → Store) :
    StateM Disk (Except Fault Unit) := fun d =>
  match d.outages.head?.join with
  | some outage => (.error outage.fault, ⟨broken outage d.store, d.outages.tail⟩)
  | none => ((Store.change f d.store).1, ⟨(Store.change f d.store).2, d.outages.tail⟩)

/-- Access to the files of a disk. -/
def access : Access (StateM Disk) where
  read path := do return (← get).store.read path
  create path := attempt (·.create path) fun _ s => s
  overwrite path bytes := attempt (·.overwrite path bytes) fun outage s =>
    (s.overwrite path (bytes.take outage.written)).toOption.getD s
  isDirectory path := do return (← get).store.isDirectory path
  makeDirectory path := attempt (·.makeDirectory path) fun _ s => s

variable {f : Store → Except Fault Store} {d d' : Disk}

theorem attempt_ok (broken : Outage → Store → Store) (h : attempt f broken d = (.ok (), d')) :
    f d.store = .ok d'.store := by
  unfold attempt Store.change at h
  cases houtage : d.outages.head?.join with
  | some outage =>
    rw [houtage] at h
    cases h
  | none =>
    rw [houtage] at h
    dsimp only at h
    cases hf : f d.store with
    | ok t =>
      rw [hf] at h
      cases h
      rfl
    | error fault =>
      rw [hf] at h
      cases h

/-- An operation that fails, and of which nothing is done if there is an outage, leaves the store as
it is. -/
theorem attempt_error {fault : Fault} (h : attempt f (fun _ s => s) d = (.error fault, d')) :
    d'.store = d.store := by
  unfold attempt Store.change at h
  cases houtage : d.outages.head?.join with
  | some outage =>
    rw [houtage] at h
    cases h
    rfl
  | none =>
    rw [houtage] at h
    dsimp only at h
    cases hf : f d.store with
    | ok t =>
      rw [hf] at h
      cases h
    | error fault =>
      rw [hf] at h
      cases h
      rfl

theorem create_ok {path : String} (h : access.create path d = (.ok (), d')) :
    ∃ place, d.store.writable path = .ok place ∧ d'.store = d.store.put place (.file []) :=
  Store.create_ok (attempt_ok (fun _ s => s) h)

theorem create_error {path : String} {fault : Fault}
    (h : access.create path d = (.error fault, d')) : d'.store = d.store :=
  attempt_error h

theorem overwrite_ok {path : String} {bytes : List UInt8}
    (h : access.overwrite path bytes d = (.ok (), d')) :
    ∃ place, d.store.writable path = .ok place ∧
      d'.store = d.store.put place (.file (bytes ++ (d.store.bytesAt place).drop bytes.length)) :=
  Store.overwrite_ok (attempt_ok _ h)

theorem makeDirectory_ok {path : String} (h : access.makeDirectory path d = (.ok (), d')) :
    ∃ directory name, d.store.resolve path = .ok (.name directory name) ∧
      d.store.get? (directory ++ [name]) = none ∧
      d'.store = d.store.put (directory ++ [name]) .directory :=
  Store.makeDirectory_ok (attempt_ok (fun _ s => s) h)

end Disk

end FormCompiler.Files
