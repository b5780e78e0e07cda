import StackCompiler.Text.Location

/-!
# Diagnostics

What the compiler has to say beside its result, in the order in which it is found.

* `Diagnostic`: a severity, a message and perhaps a place.
* `Diagnostic.text`: its wording.
-/

namespace StackCompiler

/-- How serious a diagnostic is. -/
inductive Severity where
  | note
  | warning
  | error
  deriving DecidableEq, Repr

/-- The severity as it is shown. -/
def Severity.text : Severity → String
  | .note => "note"
  | .warning => "warning"
  | .error => "error"

/-- **One finding.** -/
structure Diagnostic where
  /-- How serious it is. -/
  severity : Severity
  /-- What it says. -/
  message : String
  /-- Where it belongs, if anywhere. -/
  location : Option Location
  deriving DecidableEq, Repr

namespace Diagnostic

/-- A note, which has no place. -/
def note (message : String) : Diagnostic := ⟨.note, message, none⟩

/-- A warning. -/
def warning (message : String) (location : Option Location) : Diagnostic :=
  ⟨.warning, message, location⟩

/-- The diagnostic as it is shown. -/
def text (d : Diagnostic) : String :=
  match d.location with
  | some l => l.text ++ ": " ++ d.severity.text ++ ": " ++ d.message
  | none => d.severity.text ++ ": " ++ d.message

/-- The diagnostics of one severity, in order. -/
def ofSeverity (severity : Severity) (diagnostics : List Diagnostic) : List Diagnostic :=
  diagnostics.filter fun d => d.severity == severity

end Diagnostic

end StackCompiler
