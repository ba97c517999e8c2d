import SwiftSurface.Toml.Scalar

/-!
# TOML documents

`Toml.parse` reads a document as the entries of its root table. Each line is a key and its value,
the header of a table, or nothing; the lines are then applied in order to the table that is open.
Values nest to a bounded depth, and keys have a bounded number of parts.
-/

namespace SwiftSurface.Toml

open SwiftSurface.Parser

/-- How many arrays and inline tables may nest in each other, and how many parts a key may have. -/
def maxDepth : Nat := 80

/-! ## Keys -/

/-- Is this a character of a key without quotes? -/
def isBareKeyChar (c : Char) : Bool :=
  c.isAlphanum || c == '_' || c == '-'

/-- Reads one part of a key. -/
def keyPart : Parser String :=
  orElse (fun s => (run isBareKeyChar s).map fun (cs, rest) => (String.ofList cs, rest)) lineString

/-- Skips the blanks around what `item` reads. -/
def spaced {α : Type} (item : Parser α) : Parser α := fun s =>
  (item (skipSpaces s)).map fun (a, rest) => (a, skipSpaces rest)

/-- Reads a key: parts joined by dots. -/
def key : Parser (List String) := fun s =>
  match separatedBy '.' (spaced keyPart) s with
  | ([], _) => none
  | (parts, rest) => if parts.length ≤ maxDepth then some (parts, rest) else none

/-! ## Values -/

/-- Reads a comment. -/
def comment : Parser Unit
  | '#' :: rest => some ((), rest.dropWhile isPlain)
  | _ => none

/-- Skips blanks, line breaks and comments. A comment must be followed by a line break. -/
def skipFiller (s : List Char) : List Char :=
  (many (orElse (orElse (char ' ') (char '\t')) (orElse newline (followedBy comment newline))) s).2

/-- Skips blanks, line breaks and comments around what `item` reads. -/
def filled {α : Type} (item : Parser α) : Parser α := fun s =>
  (item (skipFiller s)).map fun (a, rest) => (a, skipFiller rest)

/-- Reads items with commas between them, and a comma after the last one or not. -/
def commaList {α : Type} (item : Parser α) : Parser (List α) := fun s =>
  match separatedBy ',' (filled item) s with
  | ([], _) => some ([], skipFiller s)
  | (items, rest) =>
    match char ',' rest with
    | some (_, rest) => some (items, skipFiller rest)
    | none => some (items, rest)

/-- Reads a key with its value, of which `inner` reads the value. On both sides of the equals sign
stands what `skip` skips. -/
def pair (skip : List Char → List Char) (inner : Parser Value) : Parser (List String × Value) :=
  fun s =>
    match followedBy (spaced key) (fun s => char '=' (skip s)) s with
    | some (path, rest) => (inner (skip rest)).map fun (value, rest) => ((path, value), rest)
    | none => none

/-- Reads an array. -/
def array (inner : Parser Value) : Parser Value := fun s =>
  (between '[' ']' (commaList inner) s).map fun (items, rest) => (.list items, rest)

/-- Reads an inline table. Line breaks and comments may stand around its keys and values, but not
inside a key. -/
def inlineTable (inner : Parser Value) : Parser Value := fun s =>
  match between '\x7b' '\x7d' (commaList (pair skipFiller inner)) s with
  | some (pairs, rest) =>
    (pairs.foldlM (fun entries (path, value) => Entries.addPair path value entries) []).map
      fun entries => (.table .inline entries, rest)
  | none => none

/-- Reads a value in which arrays and inline tables nest at most this deep. -/
def value : Nat → Parser Value
  | 0 => scalar
  | depth + 1 => orElse scalar (orElse (array (value depth)) (inlineTable (value depth)))

/-! ## Lines -/

/-- What a line says. -/
inductive Statement where
  | pair (path : List String) (value : Value)
  /-- The table at this path is open from here on. -/
  | table (path : List String)
  /-- A new table under this repeated header is open from here on. -/
  | row (path : List String)

/-- Reads what a line says. -/
def statement : Parser Statement :=
  let repeated : Parser Statement := fun s =>
    (followedBy (after (literal ['[', '[']) (spaced key)) (literal [']', ']']) s).map
      fun (path, rest) => (.row path, rest)
  let header : Parser Statement := fun s =>
    (between '[' ']' (spaced key) s).map fun (path, rest) => (.table path, rest)
  let assignment : Parser Statement := fun s =>
    (Toml.pair skipSpaces (value maxDepth) s).map fun ((path, value), rest) => (.pair path value, rest)
  orElse repeated (orElse header assignment)

/-- Reads the statements of all lines. -/
def statements (s : List Char) : Option (List Statement) :=
  let (found, rest) := optionally statement (skipSpaces s)
  let (_, rest) := optionally comment (skipSpaces rest)
  match newline rest with
  | some (_, rest) =>
    if rest.length < s.length then (statements rest).map (found.toList ++ ·) else none
  | none => if rest.isEmpty then some found.toList else none
termination_by s.length

/-! ## Documents -/

/-- A document so far: the root table, and the path of the table that is open. -/
structure Builder where
  root : Entries := []
  path : List String := []

/-- The document after one more statement, unless that is at odds with what came before. -/
def Builder.apply (b : Builder) : Statement → Option Builder
  | .pair path value => do
    return { b with root := ← b.root.changeAt (Entries.addPair path value) b.path }
  | .table path => do
    return { root := ← b.root.changeAt (Entries.addTable (← path.getLast?)) path.dropLast, path }
  | .row path => do
    return { root := ← b.root.changeAt (Entries.addRow (← path.getLast?)) path.dropLast, path }

/-- The entries of the root table of a document. A byte order mark in front is skipped. -/
def parse (source : List Char) : Option Entries :=
  let source := if source.head? = some '\uFEFF' then source.drop 1 else source
  match statements source with
  | some found => (found.foldlM Builder.apply {}).map (·.root)
  | none => none

end SwiftSurface.Toml
