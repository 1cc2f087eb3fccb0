import FormCompiler.Files.Access
import FormCompiler.Files.Path
import FormCompiler.Header.Images
import FormCompiler.Options

/-!
# Images in files

The images of a form can be written to files beside a resource file that lists them.  No image is
written unless the resource file can be made.  What goes wrong is told as a list of problems.
-/

namespace FormCompiler

open Document Files

variable {m : Type → Type} [Monad m]

/-- The resource file that lists images under the name of a class. -/
def manifest (className : String) (images : List Image) : String :=
  "<RCC>\n    <qresource prefix=\"/" ++ className ++ "\" >\n" ++
    String.join (images.map fun i => "        <file>images/" ++ i.fileName ++ "</file>\n") ++
    "    </qresource>\n</RCC>\n"

/-- The contents of the file of an image. -/
def Image.fileBytes (i : Image) : List UInt8 :=
  if i.isSourceText then Text.utf8 (Header.imageText "" false i) else i.bytes

/-- What could not be done, and why. -/
def problemText (what path : String) (fault : Fault) : String :=
  "could not " ++ what ++ " " ++ path ++ ": " ++ fault.message

/-- Writes the file of an image. -/
def writeImage (a : Access m) (directory : String) (i : Image) : m (List String) := do
  let path := Files.join directory i.fileName
  match ← a.write path i.fileBytes with
  | .ok _ => return []
  | .error fault => return [problemText "create image file" path fault]

/-- Makes a directory unless it is there. -/
def ensureDirectory (a : Access m) (path : String) : m (Except Fault Unit) := do
  if ← a.isDirectory path then return .ok () else a.makeDirectory path

/-- Writes images to files, and the resource file that lists them. -/
def writeImages (a : Access m) (resourceFile className : String) (images : List Image) :
    m (List String) := do
  match ← a.create resourceFile with
  | .error fault => return [problemText "create resource file" resourceFile fault]
  | .ok _ =>
    let directory := Files.join (Files.parent resourceFile) "images"
    match ← ensureDirectory a directory with
    | .error fault => return [problemText "create image dir" directory fault]
    | .ok _ =>
      let problems ← images.mapM (writeImage a directory)
      let last ← a.overwrite resourceFile (Text.utf8 (manifest className images))
      return problems.flatten ++ match last with
        | .ok _ => []
        | .error fault => [problemText "write resource file" resourceFile fault]

/-- Extracts the images of a form if the options ask for it; gives the problems met. -/
def extractImages (a : Access m) (o : Options) (f : Form) : m (List String) :=
  match o.extractImages, f.images?, o.resourceFile with
  | true, some images, some file => writeImages a file (f.className ++ o.classPostfix) images
  | _, _, _ => return []

end FormCompiler
