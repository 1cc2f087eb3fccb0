/-!
# Access to files

What can go wrong with a file, and the operations on files that a program needs.  The operations are
given for any monad, so that they can be carried out on a real disk or on a store in memory.
-/

namespace FormCompiler.Files

/-- Why an operation on a file failed. -/
inductive Fault where
  | notFound
  | alreadyExists
  | notDirectory
  | isDirectory
  | nameTooLong
  | nulInName
  | invalidText
  | other (text : String)
  deriving Repr, DecidableEq

def Fault.message : Fault → String
  | notFound => "No such file or directory (os error 2)"
  | alreadyExists => "File exists (os error 17)"
  | notDirectory => "Not a directory (os error 20)"
  | isDirectory => "Is a directory (os error 21)"
  | nameTooLong => "File name too long (os error 36)"
  | nulInName => "file name contained an unexpected NUL byte"
  | invalidText => "stream did not contain valid UTF-8"
  | other text => text

/-- Whether a path can be handed to a system that ends texts with a NUL. -/
def isNulFree (path : String) : Bool := path.toList.all (· != '\x00')

structure Access (m : Type → Type) where
  /-- Gives the contents of a file. -/
  read : String → m (Except Fault (List UInt8))
  /-- Makes an empty file, or empties one. -/
  create : String → m (Except Fault Unit)
  /-- Writes over the beginning of a file; what is longer than the bytes stays. -/
  overwrite : String → List UInt8 → m (Except Fault Unit)
  isDirectory : String → m Bool
  makeDirectory : String → m (Except Fault Unit)

/-- Makes a file with the given contents. -/
def Access.write {m : Type → Type} [Monad m] (a : Access m) (path : String) (bytes : List UInt8) :
    m (Except Fault Unit) := do
  match ← a.create path with
  | .error fault => return .error fault
  | .ok _ => a.overwrite path bytes

end FormCompiler.Files
