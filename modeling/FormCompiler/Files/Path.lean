import FormCompiler.Text.Pieces

/-!
# Paths

A path is a text of components separated by slashes.  Empty components and dots do not count,
except that a dot may stand first.
-/

namespace FormCompiler.Files

/-- The components of a path that count, without the root. -/
def components (path : String) : List String :=
  match Text.splitAt '/' path with
  | [] => []
  | first :: rest =>
    (if first = "" then [] else [first]) ++ rest.filter fun c => c ≠ "" ∧ c ≠ "."

/-- The last component, if it is a name. -/
def fileName? (path : String) : Option String :=
  (components path).getLast?.filter fun c => c ≠ "." ∧ c ≠ ".."

/-- Drops separators and dots at the end of a path given last character first.  A root stays. -/
def dropEnd : List Char → List Char
  | '/' :: rest => if rest.isEmpty then ['/'] else dropEnd rest
  | '.' :: rest => match rest with
    | '/' :: _ => dropEnd rest
    | _ => '.' :: rest
  | cs => cs

/-- The path without its last component. -/
def parent (path : String) : String :=
  let stem := (dropEnd path.toList.reverse).dropWhile (· != '/')
  String.ofList (dropEnd stem).reverse

/-- A path taken relative to a directory. -/
def join (directory path : String) : String :=
  if path.startsWith "/" ∨ directory = "" then path
  else if directory.endsWith "/" then directory ++ path
  else directory ++ "/" ++ path

end FormCompiler.Files
