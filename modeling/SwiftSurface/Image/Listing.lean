import SwiftSurface.Image.Symbols

/-!
# Symbol listings

A listing has a line `<hex offset> <letter> <name>` for each symbol. Symbols that are not exported
or not defined in a section of the image are dropped. The listing of an image for several
architectures has a slice for each, under a header `(for architecture <name>):`; only the first
slice is read, and its header names the architecture.

* `ListingLine.of` says what one line is;
* `firstSlice` cuts the lines at the second header;
* `readListing` gives the symbols of the first slice, or the first faulty line in it.
-/

namespace SwiftSurface

open Text

/-! ## Offsets -/

/-- Reads hexadecimal digits after a number read so far, from the left. The first character that is
no digit, or that makes the number too large for a word, decides the fault. -/
def readHexDigits (value : Nat) : List Char → Except OffsetFault UInt64
  | [] => .ok (UInt64.ofNat value)
  | c :: rest =>
    match hexDigit? c with
    | none => .error .badDigit
    | some digit =>
      if value * 16 + digit < UInt64.size then readHexDigits (value * 16 + digit) rest
      else .error .tooLarge

/-- Reads an offset: hexadecimal digits, with a plus sign in front or not. -/
def readOffset : List Char → Except OffsetFault UInt64
  | '+' :: digit :: rest => readHexDigits 0 (digit :: rest)
  | digits => readHexDigits 0 digits

/-! ## Lines -/

/-- What a line of a listing is. -/
inductive ListingLine where
  | blank
  /-- The header of the slice for an architecture. -/
  | header (architecture : Architecture)
  | symbol (symbol : Symbol)
  /-- A line without a symbol that is both exported and defined. -/
  | dropped
  | faulty (fault : LineFault)
deriving DecidableEq

/-- The letters of exported symbols defined in a section: text, data, zeroed data or another one. -/
def definedLetters : List Char :=
  ['T', 'D', 'B', 'S']

namespace ListingLine

/-- The architecture of a slice that this line is the header of. -/
def header? (line : List Char) : Option Architecture := do
  let (_, rest) ← splitOnce "(for architecture ".toList line
  let name ← stripEnd "):".toList rest
  return .ofName (String.ofList name)

/-- What the fields of a line say. The letter is looked at before the offset. -/
def ofFields : List (List Char) → ListingLine
  | offset :: [letter] :: name :: _ =>
    if definedLetters.contains letter then
      match readOffset offset with
      | .ok value => .symbol { name := String.ofList name, offset := value }
      | .error fault => .faulty (.offset (String.ofList offset) fault)
    else .dropped
  | _ :: letters :: _ :: _ => .faulty (.typeLetter (String.ofList letters))
  | _ => .dropped

/-- What a line is. -/
def of (line : List Char) : ListingLine :=
  match trimEnd line with
  | [] => .blank
  | trimmed =>
    match header? trimmed with
    | some architecture => .header architecture
    | none => ofFields (words trimmed)

end ListingLine

/-! ## Listings -/

/-- The lines before the second header, or before the first if one was seen already. -/
def firstSlice (headerSeen : Bool) : List ListingLine → List ListingLine
  | [] => []
  | .header architecture :: rest =>
    if headerSeen then [] else .header architecture :: firstSlice true rest
  | line :: rest => line :: firstSlice headerSeen rest

/-- The symbols of these lines, the first of which has this number. -/
def symbolsOf (number : Nat) : List ListingLine → Except ImageError (List Symbol)
  | [] => .ok []
  | .symbol symbol :: rest => (symbol :: ·) <$> symbolsOf (number + 1) rest
  | .faulty fault :: _ => .error (.malformed number fault)
  | _ :: rest => symbolsOf (number + 1) rest

/-- The architecture that the first header among these lines names. -/
def headerArchitecture? (lines : List ListingLine) : Option Architecture :=
  lines.findSome? fun
    | .header architecture => some architecture
    | _ => none

/-- Reads a listing; without a header its architecture is `architecture`. -/
def readListing (architecture : Architecture) : ImageReader := fun bytes =>
  match Utf8.decode bytes with
  | .error error => .error (.encoding error)
  | .ok text =>
    let slice := firstSlice false ((lines text).map ListingLine.of)
    (symbolsOf 1 slice).map fun symbols =>
      { architecture := (headerArchitecture? slice).getD architecture, symbols }

end SwiftSurface
