import SwiftSurface.Decimal
import SwiftSurface.Document.Basic
import SwiftSurface.Parsing
import SwiftSurface.Text

/-!
# Documents as JSON text

`Document.ofJson` reads the JSON text of a document and `Document.toJson` writes it. Of two fields
of one name in a record the later one counts. A number is natural if it is written in digits alone,
and every number must be within the range of doubles.
-/

namespace SwiftSurface.Json

open SwiftSurface.Parser Text

/-- How deep values may nest. -/
def maxDepth : Nat := 127

/-- Skips the blanks that JSON knows. -/
def skip (s : List Char) : List Char :=
  s.dropWhile fun c => c == ' ' || c == '\t' || c == '\n' || c == '\r'

/-- Skips the blanks before `item`. -/
def token {α : Type} (item : Parser α) : Parser α := fun s => item (skip s)

/-! ## Strings -/

/-- Reads the UTF-16 unit that four hexadecimal digits name. -/
def utf16Unit : Parser Nat
  | a :: b :: c :: d :: rest => do
    let digits ← [a, b, c, d].mapM hexDigit?
    return (digits.foldl (fun value digit => value * 16 + digit) 0, rest)
  | _ => none

/-- Reads the character that one unit names, or two of them outside the basic plane. -/
def unicodeEscape : Parser Char := fun s =>
  match utf16Unit s with
  | none => none
  | some (unit, rest) =>
    if 0xD800 ≤ unit && unit < 0xDC00 then
      match after (literal ['\\', 'u']) utf16Unit rest with
      | some (low, rest) =>
        if 0xDC00 ≤ low && low < 0xE000 then
          some (Char.ofNat (0x10000 + (unit - 0xD800) * 0x400 + (low - 0xDC00)), rest)
        else none
      | none => none
    else if 0xDC00 ≤ unit && unit < 0xE000 then none
    else some (Char.ofNat unit, rest)

/-- Reads one character of a string. -/
def stringChar : Parser Char
  | '\\' :: 'u' :: rest => unicodeEscape rest
  | '\\' :: 'b' :: rest => some ('\x08', rest)
  | '\\' :: 'f' :: rest => some ('\x0c', rest)
  | '\\' :: 'n' :: rest => some ('\n', rest)
  | '\\' :: 'r' :: rest => some ('\r', rest)
  | '\\' :: 't' :: rest => some ('\t', rest)
  | '\\' :: c :: rest => if c == '"' || c == '\\' || c == '/' then some (c, rest) else none
  | c :: rest => if c == '"' || c == '\\' || c.toNat < 0x20 then none else some (c, rest)
  | [] => none

/-- Reads a string. -/
def string : Parser String := fun s =>
  (between '"' '"' (fun s => some (many stringChar s)) s).map fun (cs, rest) =>
    (String.ofList cs, rest)

/-! ## Numbers -/

/-- Reads an integer without a leading zero. -/
def integer : Parser (List Char)
  | '0' :: rest => some (['0'], rest)
  | s => run Char.isDigit s

/-- Reads what follows one of `marks`, if one of them is there. -/
def numberPart {α : Type} (marks : List Char) (item : Parser α) (s : List Char) :
    Option (Option α × List Char) :=
  match s with
  | c :: rest =>
    if marks.contains c then (item rest).map fun (a, rest) => (some a, rest) else some (none, s)
  | [] => some (none, s)

/-- Reads the digits of an exponent, with a sign or not. -/
def exponent : Parser Int := fun s =>
  let (minus, rest) := optionally sign s
  (run Char.isDigit rest).map fun (digits, rest) =>
    (if minus.getD false then -ofDigits 10 digits else ofDigits 10 digits, rest)

/-- Reads a number. -/
def number : Parser Document := fun s => do
  let (minus, rest) := optionally (char '-') s
  let (whole, rest) ← integer rest
  let (fraction, rest) ← numberPart ['.'] (run Char.isDigit) rest
  let (power, rest) ← numberPart ['e', 'E'] exponent rest
  let places := fraction.getD []
  let magnitude : Decimal :=
    { coefficient := ofDigits 10 (whole ++ places), exponent := power.getD 0 - places.length }
  if !magnitude.isFinite then none
  else if minus.isSome || fraction.isSome || power.isSome then
    return (.decimal (String.ofList (s.take (s.length - rest.length))), rest)
  else return (.natural (ofDigits 10 whole), rest)

/-! ## Values -/

/-- Puts a field into a record, in place of one of the same name. -/
def putField (fields : List (String × Document)) (field : String × Document) :
    List (String × Document) :=
  fields.filter (fun other => other.1 != field.1) ++ [field]

/-- Reads items between two marks, with commas between them. -/
def enclosed {α : Type} (opening closing : Char) (item : Parser α) : Parser (List α) :=
  followedBy
    (after (char opening) fun s =>
      some (separatedBy ',' (fun s => (item s).map fun (a, rest) => (a, skip rest)) s))
    (token (char closing))

/-- Reads a value; `inner` reads the values in it, if there is room for any. -/
def valueRule (inner : Option (Parser Document)) : Parser Document :=
  let keyword (text : String) (document : Document) : Parser Document := fun s =>
    (literal text.toList s).map fun (_, rest) => (document, rest)
  let scalar : Parser Document :=
    orElse (fun s => (string s).map fun (text, rest) => (.text text, rest))
      (orElse (keyword "true" (.bool true)) (orElse (keyword "false" (.bool false))
        (orElse (keyword "null" .null) number)))
  match inner with
  | none => token scalar
  | some inner =>
    let list : Parser Document := fun s =>
      (enclosed '[' ']' inner s).map fun (items, rest) => (.list items, rest)
    let field : Parser (String × Document) := fun s =>
      match followedBy (token string) (token (char ':')) s with
      | some (name, rest) => (inner rest).map fun (content, rest) => ((name, content), rest)
      | none => none
    let record : Parser Document := fun s =>
      (enclosed '\x7b' '\x7d' field s).map fun (fields, rest) =>
        (.record (fields.foldl putField []), rest)
    token (orElse scalar (orElse list record))

/-- Reads a value that nests at most this deep. -/
def value : Nat → Parser Document
  | 0 => valueRule none
  | depth + 1 => valueRule (some (value depth))

/-! ## Writing -/

/-- A character inside a JSON string. -/
def quoteChar (c : Char) : List Char :=
  if c == '"' then ['\\', '"']
  else if c == '\\' then ['\\', '\\']
  else if c.toNat < 0x20 then
    ['\\', 'u', '0', '0', Nat.digitChar (c.toNat / 16), Nat.digitChar (c.toNat % 16)]
  else [c]

/-- A JSON string. -/
def quote (text : String) : String :=
  "\"" ++ String.ofList (text.toList.flatMap quoteChar) ++ "\""

end Json

namespace Document

/-- The document that this JSON text stands for. -/
def ofJson (text : List Char) : Option Document :=
  match Json.value Json.maxDepth text with
  | some (document, rest) => if (Json.skip rest).isEmpty then some document else none
  | none => none

mutual

/-- The JSON text of a document, without blanks. -/
def toJson : Document → String
  | .null => "null"
  | .bool value => if value then "true" else "false"
  | .natural value => toString value
  | .decimal literal => literal
  | .text value => Json.quote value
  | .list items => "[" ++ ",".intercalate (itemTexts items) ++ "]"
  | .record fields => "\x7b" ++ ",".intercalate (fieldTexts fields) ++ "\x7d"
termination_by structural document => document

/-- The JSON text of each item. -/
def itemTexts : List Document → List String
  | [] => []
  | item :: rest => item.toJson :: itemTexts rest
termination_by structural items => items

/-- The JSON text of each field. -/
def fieldTexts : List (String × Document) → List String
  | [] => []
  | (name, value) :: rest => (Json.quote name ++ ":" ++ value.toJson) :: fieldTexts rest
termination_by structural fields => fields

end

end Document

end SwiftSurface
