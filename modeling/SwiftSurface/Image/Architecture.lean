import SwiftSurface.Text

/-!
# Target architectures
-/

namespace SwiftSurface

/-- The architecture that an image is made for. -/
inductive Architecture where
  | x86_64
  | arm64
  | i386
  | arm
  | unknown
deriving DecidableEq

namespace Architecture

/-- The name of the architecture. -/
def render : Architecture → String
  | .x86_64 => "x86_64"
  | .arm64 => "arm64"
  | .i386 => "i386"
  | .arm => "arm"
  | .unknown => "unknown"

/-- The architecture of this name, or of one of its other names, with blanks around it or not. -/
def ofName (name : String) : Architecture :=
  match String.ofList (Text.trim name.toList) with
  | "x86_64" | "x86-64" | "amd64" => .x86_64
  | "arm64" | "aarch64" | "arm64e" => .arm64
  | "i386" | "x86" => .i386
  | "arm" | "armv7" => .arm
  | _ => .unknown

/-- Does a machine word have 64 bits? -/
def is64Bit : Architecture → Bool
  | .x86_64 | .arm64 => true
  | .i386 | .arm | .unknown => false

/-- The width of a pointer in bytes. -/
def pointerSize (a : Architecture) : Nat :=
  if a.is64Bit then 8 else 4

end Architecture

end SwiftSurface
