import FormCompiler.Command

/-!
# The program

Carries out the operations on files on the disk, and hands the arguments to `Command.run`.
-/

namespace FormCompiler.Program

open Files

/-- The fault that an error of the system stands for. -/
def faultOf : IO.Error → Fault
  | .noFileOrDirectory _ _ _ => .notFound
  | .alreadyExists _ _ _ => .alreadyExists
  | .inappropriateType _ code details =>
    if code = 20 then .notDirectory else if code = 21 then .isDirectory else .other details
  | .invalidArgument _ code details => if code = 36 then .nameTooLong else .other details
  | e => .other e.toString

/-- Carries out an action and keeps what goes wrong. -/
def attempt {α : Type} (action : IO α) : IO (Except Fault α) := do
  try return .ok (← action) catch e => return .error (faultOf e)

/-- Carries out an action on a path, unless no file can have it. -/
def attemptAt {α : Type} (path : String) (action : IO α) : IO (Except Fault α) :=
  if isNulFree path then attempt action else return .error .nulInName

/-- The contents of a file. -/
def readFile (path : String) : IO (List UInt8) := do
  let handle ← IO.FS.Handle.mk path .read
  return (← handle.readBinToEnd).toList

/-- Writes over the beginning of a file. -/
def overwriteFile (path : String) (bytes : List UInt8) : IO Unit := do
  let handle ← IO.FS.Handle.mk path .readWrite
  handle.write ⟨bytes.toArray⟩
  handle.flush

/-- Makes a file empty. -/
def createFile (path : String) : IO Unit := do
  let _ ← IO.FS.Handle.mk path .write

/-- Access to the files of the disk. -/
def disk : Access IO where
  read path := attemptAt path (readFile path)
  create path := attemptAt path (createFile path)
  overwrite path bytes := attemptAt path (overwriteFile path bytes)
  isDirectory path := do
    return (← attemptAt path (IO.FS.Handle.mk (path ++ "/.") .read)).toOption.isSome
  makeDirectory path := attemptAt path (IO.FS.createDir path)

/-- Everything that can still be read from a stream. -/
partial def readRest (stream : IO.FS.Stream) (seen : ByteArray) : IO ByteArray := do
  let more ← stream.read 65536
  if more.isEmpty then return seen else readRest stream (seen ++ more)

def stdin : IO (Except Fault (List UInt8)) :=
  attempt do return (← readRest (← IO.getStdin) .empty).toList

end FormCompiler.Program

def main (args : List String) : IO UInt32 := do
  let outcome ← FormCompiler.Command.run FormCompiler.Program.disk FormCompiler.Program.stdin args
  IO.print outcome.output
  IO.eprint outcome.errors
  return outcome.exitCode.toUInt32
