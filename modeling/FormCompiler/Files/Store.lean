import FormCompiler.Files.Access
import FormCompiler.Text.Pieces

/-!
# Stores of files

A store is a finite map from places to files and directories.  A place is the list of names from the
root directory, which always exists.  A path is resolved name by name, from the root or from the
working directory, and every name but the last has to be that of a directory.  Paths and names have
a greatest length.  That of a path is checked before anything else, that of a name only when the
name is looked up, so a missing directory on the way to a long name is what counts.
-/

namespace FormCompiler.Files

inductive Entry where
  | file (bytes : List UInt8)
  | directory
  deriving Repr, DecidableEq

/-- Files and directories by their places. -/
structure Store where
  /-- The working directory, in which relative paths begin. -/
  here : List String := []
  entries : List (List String × Entry) := []
  deriving Repr, DecidableEq

namespace Store

/-- A store with nothing but an empty working directory of the given name. -/
def inDirectory (name : String) : Store := ⟨[name], [([name], .directory)]⟩

def get? (s : Store) (place : List String) : Option Entry :=
  if place.isEmpty then some .directory else s.entries.lookup place

/-- Puts an entry at a place, instead of what was there. -/
def put (s : Store) (place : List String) (e : Entry) : Store :=
  { s with entries := (place, e) :: s.entries.filter (·.1 != place) }

/-- What is below the working directory, with the ways to it from there. -/
def listing (s : Store) : List (List String × Entry) :=
  s.entries.filterMap fun (place, e) =>
    if s.here.isPrefixOf place && place != s.here then some (place.drop s.here.length, e) else none

/-! ## Paths -/

/-- The bytes that a name may have. -/
def nameLimit : Nat := 255

/-- The bytes that a path may have. -/
def pathLimit : Nat := 4095

/-- Looks a name up in a directory. -/
def find (s : Store) (directory : List String) (name : String) : Except Fault (Option Entry) :=
  if nameLimit < name.utf8ByteSize then .error .nameTooLong else .ok (s.get? (directory ++ [name]))

/-- Follows names through directories. -/
def follow (s : Store) (place : List String) : List String → Except Fault (List String)
  | [] => .ok place
  | name :: rest =>
    if name = "." then s.follow place rest
    else if name = ".." then s.follow place.dropLast rest
    else match s.find place name with
      | .ok (some .directory) => s.follow (place ++ [name]) rest
      | .ok (some (.file _)) => .error .notDirectory
      | .ok none => .error .notFound
      | .error fault => .error fault

/-- The names on a path. -/
def namesOn (path : String) : List String := (Text.splitAt '/' path).filter (!·.isEmpty)

/-- Where a path leads: to a directory that is there, or to a name in one. -/
inductive Destination where
  | directory (place : List String)
  | name (directory : List String) (name : String)
  deriving Repr, DecidableEq

/-- Follows a path; the name it ends in is not looked up. -/
def resolve (s : Store) (path : String) : Except Fault Destination :=
  if !isNulFree path then .error .nulInName
  else if path.isEmpty then .error .notFound
  else if pathLimit < path.utf8ByteSize then .error .nameTooLong
  else
    let start := if path.startsWith "/" then [] else s.here
    let names := namesOn path
    match names.getLast? with
    | none => .ok (.directory start)
    | some last =>
      if last = "." ∨ last = ".." then (s.follow start names).map .directory
      else (s.follow start names.dropLast).map (.name · last)

/-- Whether a path ends as that of a directory does. -/
def asksForDirectory (path : String) : Bool := path.endsWith "/"

/-! ## Operations -/

def read (s : Store) (path : String) : Except Fault (List UInt8) := do
  match ← s.resolve path with
  | .directory _ => .error .isDirectory
  | .name directory name => match ← s.find directory name with
    | none => .error .notFound
    | some .directory => .error .isDirectory
    | some (.file bytes) => if asksForDirectory path then .error .notDirectory else .ok bytes

/-- The place of a file that can be written.  A path that asks for a directory is refused before its
last name is looked up. -/
def writable (s : Store) (path : String) : Except Fault (List String) := do
  match ← s.resolve path with
  | .directory _ => .error .isDirectory
  | .name directory name =>
    if asksForDirectory path then .error .isDirectory
    else if (← s.find directory name) = some .directory then .error .isDirectory
    else .ok (directory ++ [name])

def create (s : Store) (path : String) : Except Fault Store := do
  return s.put (← s.writable path) (.file [])

def overwrite (s : Store) (path : String) (bytes : List UInt8) : Except Fault Store := do
  let place ← s.writable path
  let old := match s.get? place with
    | some (.file old) => old
    | _ => []
  return s.put place (.file (bytes ++ old.drop bytes.length))

def isDirectory (s : Store) (path : String) : Bool :=
  match s.resolve path with
  | .ok (.directory _) => true
  | .ok (.name directory name) => (s.find directory name).toOption == some (some .directory)
  | .error _ => false

def makeDirectory (s : Store) (path : String) : Except Fault Store := do
  match ← s.resolve path with
  | .directory _ => .error .alreadyExists
  | .name directory name => match ← s.find directory name with
    | some _ => .error .alreadyExists
    | none => .ok (s.put (directory ++ [name]) .directory)

/-- Puts an entry below the working directory, with all directories on the way to it. -/
def addBelow (s : Store) (names : List String) (e : Entry) : Store :=
  let place := s.here ++ names
  let parents := (List.range place.length).filterMap fun k =>
    if k = 0 then none else some (place.take k)
  let s := parents.foldl (fun s p => if (s.get? p).isSome then s else s.put p .directory) s
  s.put place e

/-! ## A store as a disk -/

/-- Carries out a change of the store, unless it fails. -/
def change (f : Store → Except Fault Store) : StateM Store (Except Fault Unit) := fun s =>
  match f s with
  | .ok s => (.ok (), s)
  | .error fault => (.error fault, s)

/-- Access to the files of a store. -/
def access : Access (StateM Store) where
  read path := do return (← get).read path
  create path := change (·.create path)
  overwrite path bytes := change (·.overwrite path bytes)
  isDirectory path := do return (← get).isDirectory path
  makeDirectory path := change (·.makeDirectory path)

end Store

end FormCompiler.Files
