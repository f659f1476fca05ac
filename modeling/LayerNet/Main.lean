import LayerNet.CommandLine

/-!
# The program

Reads the files that the arguments name, prints what `CommandLine.respond` answers and exits with
its exit code.  Nothing else touches the outside world.
-/

namespace LayerNet.CommandLine

/-- The text of a file, if it can be read. -/
def readText (path : String) : IO (Option String) := do
  try
    let text ← IO.FS.readFile path
    return some text
  catch _ => return none

/-- Those of the given files that can be read, with their texts. -/
def readTexts : List String → IO (List (String × String))
  | [] => return []
  | path :: paths => do
    let texts ← readTexts paths
    match ← readText path with
    | none => return texts
    | some text => return (path, text) :: texts

/-- The files that a command line needs. -/
def neededFiles (arguments : List String) : List String :=
  match Options.parse arguments with
  | .ok options => options.files
  | .error _ => []

end LayerNet.CommandLine

open LayerNet

/-- Runs the program. -/
def main (arguments : List String) : IO UInt32 := do
  let texts ← CommandLine.readTexts (CommandLine.neededFiles arguments)
  let response := CommandLine.respond arguments fun path => texts.lookup path
  IO.print response.output
  if response.complaint ≠ "" then IO.eprintln response.complaint
  return UInt32.ofNat response.exitCode
