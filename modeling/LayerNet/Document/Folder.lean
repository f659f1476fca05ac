import LayerNet.Document.File

/-!
# Files in memory

A folder with files and further folders in it, as a store of files.  A path is followed part by
part: an empty part and a single dot stay where they are, two dots lead to the folder around, and
any other part leads to a folder of this name, which has to exist.  The last part names the file.

So two paths may lead to the same file; a file is kept under its place, the names that lead to it
without detours.  Paths and names have a greatest length, which counts what is written, detours
included.
-/

namespace LayerNet

/-- A folder with files and other folders in it, given by their places. -/
structure Folder where
  files : List (List String × String) := []
  folders : List (List String) := []
  deriving DecidableEq, Repr, Inhabited

namespace Folder

/-- Whether a file can have this name: it leads to something new, and it has at most 255 bytes, of
which none is 0. -/
def isFileName (part : String) : Bool :=
  part ≠ "" && part ≠ "." && part ≠ ".." && !part.toList.contains '\x00' &&
    part.utf8ByteSize ≤ 255

/-- The greatest number of bytes of a path.  Behind the path of the outermost folder itself it has
to stay below 4096 bytes; 32 of them are set aside for that. -/
def maxPathBytes : Nat := 4064

/-- The folder around another one.  That around the outermost folder is called by two dots. -/
def around (here : List String) : List String :=
  match here.getLast? with
  | none | some ".." => here ++ [".."]
  | some _ => here.dropLast

/-- The folder that a part of a path leads to. -/
def enter? (f : Folder) (here : List String) (part : String) : Option (List String) :=
  if part = "" ∨ part = "." then some here
  else if part = ".." then some (around here)
  else if here ++ [part] ∈ f.folders then some (here ++ [part])
  else none

/-- The place of the file that a path names, whether or not there is one. -/
def place? (f : Folder) (path : String) : Option (List String) :=
  match (Text.cut '/' path).reverse with
  | [] => none
  | name :: parts =>
    if isFileName name ∧ path.utf8ByteSize ≤ maxPathBytes then
      (parts.reverse.foldlM f.enter? []).map (· ++ [name])
    else none

/-- The contents of the file that a path names. -/
def read? (f : Folder) (path : String) : Option String :=
  (f.place? path).bind fun place => f.files.lookup place

/-- A file with new contents, unless the path names a folder or nothing at all. -/
def write? (f : Folder) (path text : String) : Option Folder :=
  match f.place? path with
  | none => none
  | some place =>
    if place ∈ f.folders then none
    else some { f with files := (place, text) :: f.files.filter fun file => file.1 ≠ place }

instance : FileStore Folder where
  read path f := (f.read? path, f)
  write path text f :=
    match f.write? path text with
    | none => (false, f)
    | some f => (true, f)

/-- A folder with the folders that parts of a path lead through, up to one that cannot be made. -/
def makeFolders (f : Folder) (here : List String) : List String → Folder
  | [] => f
  | part :: parts =>
    match f.enter? here part with
    | some next => f.makeFolders next parts
    | none =>
      let next := here ++ [part]
      if !isFileName part || (f.files.lookup next).isSome then f
      else { f with folders := next :: f.folders }.makeFolders next parts

/-- A file written together with the folders that it lies in. -/
def deepPut (f : Folder) (path text : String) : Folder :=
  let f := f.makeFolders [] (Text.cut '/' path).dropLast
  (f.write? path text).getD f

end Folder

end LayerNet
