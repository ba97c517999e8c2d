import SwiftSurface.Document.Basic
import SwiftSurface.Scan.Diagnostics

/-!
# The serialized form of diagnostics
-/

namespace SwiftSurface

open Document

instance : Serial Severity where
  encode
    | .warning => .text "Warning"
    | .error => .text "Error"
  decode := enumOf [("Warning", .warning), ("Error", .error)]

instance : Serial Diagnostic where
  encode d := .record
    [("severity", encode d.severity), ("symbol", encode d.symbol), ("message", encode d.message)]
  decode document :=
    match document.fields? ["severity", "symbol", "message"] with
    | some [severity, symbol, message] => do
      return {
        severity := ← required decode severity
        symbol := ← required decode symbol
        message := ← required decode message }
    | _ => none

instance : Serial Diagnostics where
  encode ds := .record [("records", encode ds.records)]
  decode document :=
    match document.fields? ["records"] with
    | some [records] => (required decode records).map Diagnostics.mk
    | _ => none

end SwiftSurface
