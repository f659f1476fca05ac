import LayerNet.Document

/-!
# The file of a document

An editor works on one document at a time.  It remembers the path of the file, whether there are
changes that are not saved, and when the document was created, and it changes none of these until
the last step that can fail has succeeded.

Where files are kept is left open: `FileStore` says that they can be read and written, and that
either may fail at any time.
-/

namespace LayerNet

/-- Stores of files, by their paths.  Reading and writing may fail, and may change the store. -/
class FileStore (σ : Type) where
  /-- The contents of a file. -/
  read : String → StateM σ (Option String)
  /-- Writes a file, and says whether it was written. -/
  write : String → String → StateM σ Bool

namespace Document

variable {σ : Type} [FileStore σ]

/-- Writes a document to a file. -/
def write (d : Document) (path : String) : StateM σ (Except Error Unit) := do
  if ← FileStore.write path d.text then return .ok () else return .error .file

/-- Reads a document from a file. -/
def read (path : String) : StateM σ (Except Error Document) := do
  match ← FileStore.read path with
  | none => return .error .file
  | some text =>
    match parse? text with
    | none => return .error .json
    | some d => return .ok d

end Document

/-- The document that is being edited. -/
structure DocumentFile where
  /-- The file that the document was last read from or written to. -/
  path : Option String := none
  /-- Whether there are changes that are not saved. -/
  isModified : Bool := false
  /-- When the document was created. -/
  created : Option String := none
  deriving DecidableEq, Repr, Inhabited

namespace DocumentFile

variable {σ : Type} [FileStore σ]

/-- The name of the file at a path: its last part that is not the path's own folder. -/
def fileName? (path : String) : Option String :=
  match ((Text.cut '/' path).filter fun part => part ≠ "" && part ≠ ".").getLast? with
  | some ".." => none
  | name => name

/-- The name that an editor shows, with a star for changes that are not saved. -/
def displayName (f : DocumentFile) : String :=
  let name := (f.path.bind fileName?).getD "Untitled"
  if f.isModified then name ++ "*" else name

/-- There are changes that are not saved. -/
def markModified (f : DocumentFile) : DocumentFile := { f with isModified := true }

/-- Writes a graph to a file at the time `now`.  A document that was created before keeps the time
of its creation. -/
def saveAs (f : DocumentFile) (path : String) (g : Graph) (settings : Option TrainSettings)
    (now : String) : StateM σ (Except Document.Error Unit × DocumentFile) := do
  let d := Document.ofGraph g settings now
  let created := f.created.getD d.metadata.created
  match ← { d with metadata.created := created }.write path with
  | .error e => return (.error e, f)
  | .ok () => return (.ok (), ⟨some path, false, some created⟩)

/-- Writes a graph to the file of the document, if it has one, and says whether it has. -/
def save (f : DocumentFile) (g : Graph) (settings : Option TrainSettings) (now : String) :
    StateM σ (Except Document.Error Bool × DocumentFile) := do
  match f.path with
  | none => return (.ok false, f)
  | some path =>
    match ← f.saveAs path g settings now with
    | (.error e, f) => return (.error e, f)
    | (.ok (), f) => return (.ok true, f)

/-- Reads the graph and the training settings of a file. -/
def openAt (f : DocumentFile) (path : String) :
    StateM σ (Except Document.Error (Graph × Option TrainSettings) × DocumentFile) := do
  match ← Document.read path with
  | .error e => return (.error e, f)
  | .ok d =>
    match d.toGraph with
    | .error e => return (.error e, f)
    | .ok g => return (.ok (g, d.trainSettings), ⟨some path, false, some d.metadata.created⟩)

end DocumentFile

end LayerNet
