import LayerNet.Document
import LayerNet.Engine.Recording
import LayerNet.Lowering
import LayerNet.Terminal

/-!
# The command line

The program reads a network, checks it against capabilities and ranges, compiles it and builds it in
an engine that only records.  It prints what the checks found, the layers, and how many calls there
were.  It succeeds if no check found an error.
-/

namespace LayerNet.CommandLine

/-- What the program is asked to do. -/
structure Options where
  /-- The file of the network. -/
  network : String
  /-- The file of the capabilities. -/
  capabilities : Option String := none
  /-- The file of the configuration. -/
  config : Option String := none
  /-- Whether the layers are printed as JSON. -/
  json : Bool := false
  deriving DecidableEq, Repr

/-- Why the arguments are not understood. -/
inductive UsageError where
  | missingPath (option : String)
  | unknownOption (option : String)
  | missingNetwork
  deriving DecidableEq, Repr

/-- The wording of a usage error. -/
def UsageError.message : UsageError → String
  | missingPath option => s!"{option} needs a path"
  | unknownOption option => s!"unknown option {option}"
  | missingNetwork => "missing network file"

/-- The line that explains the arguments. -/
def usage : String :=
  "usage: layerweave <network.json> [--capabilities caps.json] [--config compiler.json] [--json]"

/-- Reads the arguments one after the other; what comes later replaces what came before. -/
def readArguments (network capabilities config : Option String) (json : Bool) :
    List String → Except UsageError Options
  | [] =>
    match network with
    | none => .error .missingNetwork
    | some network => .ok { network, capabilities, config, json }
  | "--capabilities" :: rest =>
    match rest with
    | [] => .error (.missingPath "--capabilities")
    | path :: rest => readArguments network (some path) config json rest
  | "--config" :: rest =>
    match rest with
    | [] => .error (.missingPath "--config")
    | path :: rest => readArguments network capabilities (some path) json rest
  | "--json" :: rest => readArguments network capabilities config true rest
  | argument :: rest =>
    if argument.startsWith "--" then .error (.unknownOption argument)
    else readArguments (some argument) capabilities config json rest

/-- Reads the arguments. -/
def Options.parse : List String → Except UsageError Options := readArguments none none none false

/-- The files that a run reads. -/
def Options.files (o : Options) : List String :=
  o.network :: (o.config.toList ++ o.capabilities.toList)

/-- Why the program stops. -/
inductive RunError where
  | document (error : Document.Error)
  /-- The file of the configuration or of the capabilities cannot be read. -/
  | file
  /-- The text of the configuration or of the capabilities is not understood. -/
  | json
  | build (error : BuildError)
  deriving DecidableEq, Repr

/-- The wording of a failure. -/
def RunError.message : RunError → String
  | document error => error.message
  | file => "IO error"
  | json => "JSON error"
  | build error => error.message

/-- A run, with the text that it has printed so far. -/
abbrev Run := ExceptT RunError (StateM String)

namespace Run

/-- Prints a text. -/
def print (text : String) : Run Unit := modify (· ++ text)

/-- Prints the findings of a check under a title, if there are any. -/
def printReport (title : String) (report : Report) : Run Unit :=
  match report.diagnostics with
  | [] => return
  | diagnostics =>
    print (s!"{title}:\n" ++ String.join (diagnostics.map fun d => s!"  {d.text}\n"))

/-- Goes on with a value, or stops. -/
def ofExcept {ε α : Type} (f : ε → RunError) : Except ε α → Run α
  | .ok a => return a
  | .error e => throw (f e)

/-- Reads a file by `decode?`. -/
def readFile {α : Type} (read : String → Option String) (decode? : String → Option α)
    (path : String) : Run α :=
  match read path with
  | none => throw .file
  | some text =>
    match decode? text with
    | none => throw .json
    | some a => return a

end Run

open Run

/-- Reads the document of the network. -/
def readDocument (read : String → Option String) (path : String) : Run Document :=
  match read path with
  | none => throw (.document .file)
  | some text =>
    match Document.parse? text with
    | none => throw (.document .json)
    | some d => return d

/-- The check against the capabilities. -/
def capabilityReport (c : Capabilities) (g : Graph) (settings : Option TrainSettings) : Report :=
  match settings with
  | none => c.checkNodes g
  | some settings => (c.checkNodes g).append (c.checkTrainSettings settings)

/-- Reads the capabilities, if there are any, and prints what the check against them finds.  Answers
the engine that knows them, and whether there were no errors. -/
def prepareEngine (read : String → Option String) (path : Option String) (g : Graph)
    (settings : Option TrainSettings) : Run (RecordingEngine × Bool) :=
  match path with
  | none => return ({}, true)
  | some path => do
    let capabilities ← readFile read Capabilities.parse? path
    let report := capabilityReport capabilities g settings
    printReport "Capability check" report
    return ({ capabilities := some capabilities }, !report.hasErrors)

/-- Prints what is wrong with the training settings, if there are any, and answers whether there
were no errors. -/
def checkSettings (settings : Option TrainSettings) : Run Bool :=
  match settings with
  | none => return true
  | some settings => do
    let report := settings.validate
    printReport "Training settings" report
    return !report.hasErrors

/-- The layers as they are printed. -/
def forestText (json : Bool) (forest : List Layer) : String :=
  if json then (Json.array (Layer.forestJson forest)).pretty ++ "\n"
  else Layer.forestTextAt 0 forest

/-- The run of the program on files that `read` finds.  Answers whether no check found an error. -/
def run (options : Options) (read : String → Option String) : Run Bool := do
  let document ← readDocument read options.network
  let graph ← ofExcept .document document.toGraph
  let config ← match options.config with
    | none => pure {}
    | some path => readFile read CompilerConfig.parse? path
  let (engine, capable) ← prepareEngine read options.capabilities graph document.trainSettings
  let inRange ← checkSettings document.trainSettings
  printReport "Network" graph.validate
  let forest ← ofExcept (fun e => .build (.compile e)) (graph.compile config)
  print (forestText options.json forest)
  let (handles, engine) := (lower forest).runIn engine
  let handles ← ofExcept .build handles
  print s!"{engine.log.length} engine call(s), {handles.length} top-level layer(s)\n"
  return capable && inRange

/-- What the program leaves behind. -/
structure Response where
  exitCode : Nat
  output : String := ""
  /-- What it says about a failure. -/
  complaint : String := ""
  deriving DecidableEq, Repr

/-- How a failure is logged: as one entry, whose later lines are indented, and without control
sequences. -/
def logEntry (message : String) : String := Terminal.strip (Text.indentLines 4 message)

/-- The response to a command line. -/
def respond (arguments : List String) (read : String → Option String) : Response :=
  match Options.parse arguments with
  | .error e => { exitCode := 2, complaint := e.message ++ "\n" ++ usage }
  | .ok options =>
    match (run options read).run.run "" with
    | (.ok true, output) => { exitCode := 0, output }
    | (.ok false, output) => { exitCode := 1, output }
    | (.error e, output) => { exitCode := 1, output, complaint := logEntry e.message }

end LayerNet.CommandLine
