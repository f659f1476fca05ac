import LayerNet.Json.Decode
import LayerNet.Json.Writer
import LayerNet.Port
import LayerNet.Text

/-!
# Reports

A check never fails.  It reports what it finds as a list of diagnostics, each an error or a warning,
in the order in which they were found.
-/

namespace LayerNet

/-- Whether a finding stands in the way of compilation. -/
inductive Severity where
  | error
  | warning
  deriving DecidableEq, Repr, Inhabited

/-- The name of a severity. -/
def Severity.name : Severity → String
  | .error => "Error"
  | .warning => "Warning"

/-- One finding. -/
structure Diagnostic where
  severity : Severity
  message : String
  /-- The node that the finding is about. -/
  node : Option NodeId := none
  deriving DecidableEq, Repr, Inhabited

namespace Diagnostic

/-- An error. -/
def error (message : String) (node : Option NodeId) : Diagnostic := ⟨.error, message, node⟩

/-- A warning. -/
def warning (message : String) (node : Option NodeId) : Diagnostic :=
  ⟨.warning, message, node⟩

/-- Whether the finding is an error. -/
def isError (d : Diagnostic) : Bool := d.severity = .error

/-- The line that shows a finding. -/
def text (d : Diagnostic) : String :=
  match d.severity with
  | .error => s!"error: {d.message}"
  | .warning => s!"warning: {d.message}"

end Diagnostic

/-- Findings in the order in which they were made. -/
structure Report where
  diagnostics : List Diagnostic := []
  deriving DecidableEq, Repr, Inhabited

namespace Report

/-- A finding added at the end. -/
def push (r : Report) (d : Diagnostic) : Report := ⟨r.diagnostics ++ [d]⟩

/-- The findings of one report and then those of another. -/
def append (r other : Report) : Report := ⟨r.diagnostics ++ other.diagnostics⟩

/-- The errors. -/
def errors (r : Report) : List Diagnostic := r.diagnostics.filter Diagnostic.isError

/-- The warnings. -/
def warnings (r : Report) : List Diagnostic := r.diagnostics.filter fun d => !d.isError

/-- Whether there is an error. -/
def hasErrors (r : Report) : Bool := r.diagnostics.any Diagnostic.isError

/-- The messages of the errors in one line. -/
def summary (r : Report) : String := Text.join ", " (r.errors.map Diagnostic.message)

end Report

/-! ## JSON -/

/-- A severity is written by its name. -/
def Severity.toJson (s : Severity) : Json := Json.ofString s.name

/-- Reads a severity. -/
def Severity.ofJson? (value : Json) : Option Severity :=
  match value.tagged? with
  | some ("Error", .null) => some .error
  | some ("Warning", .null) => some .warning
  | _ => none

/-- Writes a finding. -/
def Diagnostic.toJson (d : Diagnostic) : Json :=
  Json.record [("severity", d.severity.toJson), ("message", Json.ofString d.message),
    ("node", Json.ofOption Json.ofNat d.node)]

/-- Reads a finding. -/
def Diagnostic.ofJson? (value : Json) : Option Diagnostic := do
  let fields ← value.fields? ["severity", "message", "node"]
  return {
    severity := ← fields.required? "severity" Severity.ofJson?
    message := ← fields.required? "message" Json.string?
    node := ← fields.nullable? "node" Json.word64? }

/-- Writes a report. -/
def Report.toJson (r : Report) : Json :=
  Json.record [("diagnostics", Json.ofList Diagnostic.toJson r.diagnostics)]

/-- Reads a report. -/
def Report.ofJson? (value : Json) : Option Report := do
  let fields ← value.fields? ["diagnostics"]
  return { diagnostics := ← fields.required? "diagnostics" (Json.list? Diagnostic.ofJson?) }

end LayerNet
