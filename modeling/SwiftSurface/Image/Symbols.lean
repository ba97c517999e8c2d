import SwiftSurface.Image.Architecture
import SwiftSurface.Image.Utf8

/-!
# The symbol table of an image

What a reader gives for the bytes of an image: its architecture and the symbols that it exports and
defines, in the order of the symbol table.
-/

namespace SwiftSurface

/-- An exported symbol: its mangled name and its offset in the image. -/
structure Symbol where
  name : String
  offset : UInt64
deriving DecidableEq

/-- The symbol table of an image. -/
structure SymbolTable where
  architecture : Architecture := .unknown
  symbols : List Symbol := []
deriving DecidableEq

/-! ## Images that cannot be read -/

/-- What is wrong with the text of an offset. -/
inductive OffsetFault where
  | badDigit
  | tooLarge
deriving DecidableEq

/-- The fault in words. -/
def OffsetFault.message : OffsetFault → String
  | .badDigit => "invalid digit found in string"
  | .tooLarge => "number too large to fit in target type"

/-- What is wrong with a line of a listing. -/
inductive LineFault where
  /-- The field that should be a single letter is this. -/
  | typeLetter (field : String)
  /-- The field that should be an offset is this. -/
  | offset (field : String) (fault : OffsetFault)
deriving DecidableEq

/-- The fault in words. -/
def LineFault.message : LineFault → String
  | .typeLetter field => "expected a single symbol type letter, got `" ++ field ++ "`"
  | .offset field fault => "invalid offset `" ++ field ++ "`: " ++ fault.message

/-- Why an image cannot be read. -/
inductive ImageError where
  /-- The bytes are no UTF-8. -/
  | encoding (error : Utf8.Error)
  /-- A line, counted from one, is malformed. -/
  | malformed (line : Nat) (fault : LineFault)
deriving DecidableEq

/-- The reason in words. -/
def ImageError.message : ImageError → String
  | .encoding error => "image is not valid UTF-8 text: " ++ error.message
  | .malformed line fault => "line " ++ toString line ++ ": " ++ fault.message

/-- Reads the symbol table of an image from its bytes. -/
abbrev ImageReader := List UInt8 → Except ImageError SymbolTable

/-- The reader that gives this symbol table whatever the bytes. -/
def ImageReader.fixed (table : SymbolTable) : ImageReader :=
  fun _ => .ok table

end SwiftSurface
