/-!
# Diagnostics

What a scan has to say about symbols and images that it could not process.
-/

namespace SwiftSurface

/-- How serious a diagnostic is. -/
inductive Severity where
  /-- A symbol was left out on purpose. -/
  | warning
  /-- A symbol or an image could not be processed. -/
  | error
deriving DecidableEq

/-- The severity as a word of running text. -/
def Severity.render : Severity → String
  | .warning => "warning"
  | .error => "error"

/-- What was not processed, and why. -/
structure Diagnostic where
  severity : Severity
  /-- The symbol, or the name of the image. -/
  symbol : String
  message : String
deriving DecidableEq

/-- The diagnostic as a line. -/
def Diagnostic.render (d : Diagnostic) : String :=
  d.severity.render ++ ": `" ++ d.symbol ++ "`: " ++ d.message

/-- Diagnostics in the order in which they came. -/
structure Diagnostics where
  records : List Diagnostic := []
deriving DecidableEq

namespace Diagnostics

/-- Appends one diagnostic. -/
def push (ds : Diagnostics) (d : Diagnostic) : Diagnostics :=
  ⟨ds.records ++ [d]⟩

/-- Appends the diagnostics of another collection. -/
def append (ds other : Diagnostics) : Diagnostics :=
  ⟨ds.records ++ other.records⟩

/-- The diagnostics of this severity. -/
def ofSeverity (ds : Diagnostics) (severity : Severity) : List Diagnostic :=
  ds.records.filter (·.severity = severity)

/-- The warnings. -/
def warnings (ds : Diagnostics) : List Diagnostic :=
  ds.ofSeverity .warning

/-- The errors. -/
def errors (ds : Diagnostics) : List Diagnostic :=
  ds.ofSeverity .error

/-- Is there an error among them? -/
def hasErrors (ds : Diagnostics) : Bool :=
  !ds.errors.isEmpty

end Diagnostics

end SwiftSurface
