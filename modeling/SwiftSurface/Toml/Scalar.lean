import SwiftSurface.Decimal
import SwiftSurface.Parsing
import SwiftSurface.Text
import SwiftSurface.Toml.Value

/-!
# TOML scalars

Strings in their four forms, and the words that stand for booleans, numbers, dates and times.
-/

namespace SwiftSurface.Toml

open SwiftSurface.Parser Text

/-! ## Characters -/

/-- Is this a character that may stand in a comment or a string as it is? Control characters other
than the tab may not. -/
def isPlain (c : Char) : Bool :=
  c == '\t' || (0x20 ≤ c.toNat && c.toNat != 0x7F)

/-- Reads the end of a line. -/
def newline : Parser Unit
  | '\n' :: rest => some ((), rest)
  | '\r' :: '\n' :: rest => some ((), rest)
  | _ => none

/-- Skips blanks within a line. -/
def skipSpaces (s : List Char) : List Char :=
  s.dropWhile fun c => c == ' ' || c == '\t'

/-- The character of a code point, unless that is a surrogate or beyond the last one. -/
def scalar? (codePoint : Nat) : Option Char :=
  if codePoint.isValidChar then some (Char.ofNat codePoint) else none

/-- Reads the character that exactly `count` hexadecimal digits name. -/
def hexEscape (count : Nat) : Parser Char := fun s => do
  let digits ← (s.take count).mapM hexDigit?
  if digits.length = count then
    return (← scalar? (digits.foldl (fun value digit => value * 16 + digit) 0), s.drop count)
  else none

/-- Reads what stands after a backslash and gives the character that it means. -/
def escape : Parser Char
  | 'b' :: rest => some ('\x08', rest)
  | 't' :: rest => some ('\t', rest)
  | 'n' :: rest => some ('\n', rest)
  | 'f' :: rest => some ('\x0c', rest)
  | 'r' :: rest => some ('\r', rest)
  | 'e' :: rest => some ('\x1b', rest)
  | '"' :: rest => some ('"', rest)
  | '\\' :: rest => some ('\\', rest)
  | 'x' :: rest => hexEscape 2 rest
  | 'u' :: rest => hexEscape 4 rest
  | 'U' :: rest => hexEscape 8 rest
  | _ => none

/-! ## Strings -/

/-- Reads one character of a string between double quotes. -/
def basicChar : Parser Char
  | '\\' :: rest => escape rest
  | c :: rest => if c != '"' && isPlain c then some (c, rest) else none
  | [] => none

/-- Reads one character of a string between single quotes. -/
def literalChar : Parser Char
  | c :: rest => if c != '\'' && isPlain c then some (c, rest) else none
  | [] => none

/-- Reads characters up to a closing quote. -/
def quoted (quote : Char) (character : Parser Char) : Parser String := fun s =>
  (between quote quote (fun s => some (many character s)) s).map fun (cs, rest) =>
    (String.ofList cs, rest)

/-- Reads a string on one line. -/
def lineString : Parser String :=
  orElse (quoted '"' basicChar) (quoted '\'' literalChar)

/-- Reads the line break of a string that goes over several lines, as it is. -/
def lineBreak : Parser (List Char)
  | '\n' :: rest => some (['\n'], rest)
  | '\r' :: '\n' :: rest => some (['\r', '\n'], rest)
  | _ => none

/-- Reads a backslash at the end of a line with all blanks and line breaks after it, which mean
nothing. -/
def continuation : Parser (List Char)
  | '\\' :: rest =>
    (newline (skipSpaces rest)).map fun (_, rest) =>
      ([], (many (orElse newline (orElse (char ' ') (char '\t'))) rest).2)
  | _ => none

/-- Reads one or two quotes inside a string that three quotes close. -/
def innerQuotes (quote : Char) : Parser (List Char) := fun s =>
  match (s.takeWhile (· == quote)).length with
  | 1 | 4 => some ([quote], s.drop 1)
  | 2 | 5 => some ([quote, quote], s.drop 2)
  | _ => none

/-- Reads a string between three quotes of a kind; a line break right after the opening ones is no
part of it. -/
def blockOf (quote : Char) (piece : Parser (List Char)) : Parser String := fun s =>
  let fence := literal [quote, quote, quote]
  match fence s with
  | none => none
  | some (_, rest) =>
    let rest := (optionally newline rest).2
    let (pieces, rest) := many (orElse (innerQuotes quote) (orElse lineBreak piece)) rest
    (fence rest).map fun (_, rest) => (String.ofList pieces.flatten, rest)

/-- Reads a string over several lines. -/
def blockString : Parser String :=
  orElse
    (blockOf '"' (orElse continuation fun s =>
      (basicChar s).map fun (c, rest) => ([c], rest)))
    (blockOf '\'' fun s => (literalChar s).map fun (c, rest) => ([c], rest))

/-! ## Numbers -/

/-- Reads digits of a class, with single underscores between digits, which mean nothing. -/
def digitRun (isDigit : Char → Bool) : Parser (List Char) := fun s =>
  (run isDigit s).map fun (first, rest) =>
    let (more, rest) := many (after (char '_') (run isDigit)) rest
    (first ++ more.flatten, rest)

/-- Reads a decimal integer without a leading zero. -/
def decimal : Parser (List Char)
  | '0' :: rest => some (['0'], rest)
  | s => digitRun Char.isDigit s

/-- Reads an exponent. -/
def exponent : Parser Int := fun s =>
  match orElse (char 'e') (char 'E') s with
  | some (_, rest) =>
    let (minus, rest) := optionally sign rest
    (digitRun Char.isDigit rest).map fun (digits, rest) =>
      (if minus.getD false then -ofDigits 10 digits else ofDigits 10 digits, rest)
  | none => none

/-- Is there a word of 128 bits for this integer: a signed one if it has a minus sign, else an
unsigned one? -/
def fitsWord (isNegative : Bool) (magnitude : Nat) : Bool :=
  if isNegative then magnitude ≤ Nat.pow 2 127 else magnitude < Nat.pow 2 128

/-- Reads an integer or a floating point number after its sign. An integer must fit in a word and a
floating point number must be finite. -/
def unsignedNumber (isNegative : Bool) : Parser Unit := fun s =>
  match decimal s with
  | none => none
  | some (whole, rest) =>
    let (fraction, rest) := optionally (after (char '.') (digitRun Char.isDigit)) rest
    let (power, rest) := optionally exponent rest
    let isInRange :=
      if fraction.isNone && power.isNone then fitsWord isNegative (ofDigits 10 whole)
      else
        let places := fraction.getD []
        Decimal.isFinite
          { coefficient := ofDigits 10 (whole ++ places), exponent := power.getD 0 - places.length }
    if isInRange then some ((), rest) else none

/-- Reads an integer or a floating point number, with a sign or not. -/
def signedNumber : Parser Unit := fun s =>
  let (minus, rest) := optionally sign s
  let special := orElse (literal "inf".toList) (literal "nan".toList)
  orElse special (unsignedNumber (minus.getD false)) rest

/-- Reads an integer in hexadecimal, octal or binary digits, which must fit in a word. -/
def radixNumber : Parser Unit := fun s =>
  let integer (base : Nat) (isDigit : Char → Bool) : Parser Unit := fun s =>
    match digitRun isDigit s with
    | some (digits, rest) => if fitsWord false (ofDigits base digits) then some ((), rest) else none
    | none => none
  match s with
  | '0' :: 'x' :: rest => integer 16 (fun c => (hexDigit? c).isSome) rest
  | '0' :: 'o' :: rest => integer 8 (fun c => '0' ≤ c && c ≤ '7') rest
  | '0' :: 'b' :: rest => integer 2 (fun c => c == '0' || c == '1') rest
  | _ => none

/-! ## Dates and times -/

/-- Reads exactly `count` decimal digits. -/
def fixedDigits (count : Nat) : Parser Nat := fun s =>
  let digits := s.take count
  if digits.length = count && digits.all Char.isDigit then
    some (digits.foldl (fun value digit => value * 10 + (digit.toNat - '0'.toNat)) 0, s.drop count)
  else none

/-- Reads a number of two digits in a range. -/
def inRange (low high : Nat) : Parser Nat := fun s =>
  match fixedDigits 2 s with
  | some (value, rest) => if low ≤ value && value ≤ high then some (value, rest) else none
  | none => none

/-- The number of days of a month. -/
def daysIn (year month : Nat) : Nat :=
  if month = 2 then
    if year % 4 = 0 && (year % 100 != 0 || year % 400 = 0) then 29 else 28
  else if month = 4 || month = 6 || month = 9 || month = 11 then 30
  else 31

/-- Reads a date. -/
def date : Parser Unit := fun s => do
  let (year, s) ← followedBy (fixedDigits 4) (char '-') s
  let (month, s) ← followedBy (inRange 1 12) (char '-') s
  let (_, s) ← inRange 1 (daysIn year month) s
  return ((), s)

/-- Reads a time of day; seconds and fractions of them may be missing. -/
def time : Parser Unit := fun s => do
  let (_, s) ← followedBy (inRange 0 23) (char ':') s
  let (_, s) ← inRange 0 59 s
  let seconds := after (char ':') fun s =>
    (inRange 0 60 s).map fun (_, rest) =>
      ((), (optionally (after (char '.') (run Char.isDigit)) rest).2)
  return ((), (optionally seconds s).2)

/-- Reads the offset of a time zone. -/
def zone : Parser Unit :=
  orElse (orElse (char 'Z') (char 'z')) fun s => do
    let (_, s) ← sign s
    let (_, s) ← followedBy (inRange 0 23) (char ':') s
    let (_, s) ← inRange 0 59 s
    return ((), s)

/-- Reads a date, a time, or both with a time zone or not. -/
def moment : Parser Unit :=
  orElse
    (fun s => (date s).map fun (_, rest) =>
      let between := orElse (char 'T') (orElse (char 't') (char ' '))
      match after between time rest with
      | some (_, rest) => ((), (optionally zone rest).2)
      | none => ((), rest))
    time

/-! ## Words -/

/-- May this character continue a word that stands for a scalar? -/
def continuesWord (c : Char) : Bool :=
  c.isAlphanum || c == '_' || c == '-' || c == '+' || c == '.' || c == ':'

/-- Reads with `item`, which must end where the word ends. -/
def wholeWord {α : Type} (item : Parser α) : Parser α := fun s =>
  match item s with
  | some (a, rest) => if rest.head?.any continuesWord then none else some (a, rest)
  | none => none

/-- Reads a scalar. -/
def scalar : Parser Value := fun s =>
  let as {α : Type} (value : α → Value) (item : Parser α) : Parser Value := fun s =>
    (item s).map fun (a, rest) => (value a, rest)
  [as .text blockString, as .text lineString,
    as (fun _ => .bool true) (wholeWord (literal "true".toList)),
    as (fun _ => .bool false) (wholeWord (literal "false".toList)),
    as (fun _ => .moment) (wholeWord moment), as (fun _ => .number) (wholeWord radixNumber),
    as (fun _ => .number) (wholeWord signedNumber)].findSome? (· s)

end SwiftSurface.Toml
