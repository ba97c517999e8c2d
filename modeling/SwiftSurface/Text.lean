/-!
# Text: blanks, words and pieces of a line

The textual rules shared by the type grammar, the symbol listing and the configuration reader. Text
is cut as `List Char`, so that every rule is a recursion on the characters; `String` appears where a
result is stored.

* `isBlank` is Unicode's `White_Space` property, which decides what the grammar skips;
* `trim`, `trimEnd` and `words` cut at blanks;
* `splitOnce` and `stripEnd` find a fixed piece of text.
-/

namespace SwiftSurface.Text

/-! ## Blanks -/

/-- The code points of Unicode's `White_Space` property. -/
def isBlank (c : Char) : Bool :=
  let n := c.toNat
  (0x9 ≤ n && n ≤ 0xD) || n == 0x20 || n == 0x85 || n == 0xA0 || n == 0x1680
    || (0x2000 ≤ n && n ≤ 0x200A) || n == 0x2028 || n == 0x2029 || n == 0x202F || n == 0x205F
    || n == 0x3000

/-- What is left after the leading blanks. -/
def skipBlanks (s : List Char) : List Char :=
  s.dropWhile isBlank

/-- What is left after dropping the trailing blanks. -/
def trimEnd (s : List Char) : List Char :=
  (s.reverse.dropWhile isBlank).reverse

/-- The text without leading and trailing blanks. -/
def trim (s : List Char) : List Char :=
  trimEnd (skipBlanks s)

/-- The maximal runs of characters that are not blank, in order. A character that is not blank joins
the word that starts right after it, if one does. -/
def words : List Char → List (List Char)
  | [] => []
  | c :: rest =>
    if isBlank c then words rest
    else if rest.head?.all isBlank then [c] :: words rest
    else
      match words rest with
      | [] => [[c]]
      | word :: more => (c :: word) :: more

/-! ## Pieces of a line -/

/-- The lines of a text: the pieces between line feeds. -/
def lines : List Char → List (List Char)
  | [] => [[]]
  | '\n' :: rest => [] :: lines rest
  | c :: rest =>
    match lines rest with
    | [] => [[c]]
    | line :: more => (c :: line) :: more

/-- The rest of `s` after `piece`, if `s` starts with it. -/
def stripStart : (piece s : List Char) → Option (List Char)
  | [], s => some s
  | _ :: _, [] => none
  | p :: ps, c :: cs => if p = c then stripStart ps cs else none

/-- The beginning of `s` before `piece`, if `s` ends with it. -/
def stripEnd (piece s : List Char) : Option (List Char) :=
  (stripStart piece.reverse s.reverse).map List.reverse

/-- What stands before and after the first occurrence of `piece` in `s`. -/
def splitOnce (piece : List Char) : List Char → Option (List Char × List Char)
  | [] => (stripStart piece []).map fun after => ([], after)
  | c :: cs =>
    match stripStart piece (c :: cs) with
    | some after => some ([], after)
    | none => (splitOnce piece cs).map fun (before, after) => (c :: before, after)

/-- Does `s` start with `start`? -/
def startsWith (s start : String) : Bool :=
  start.toList.isPrefixOf s.toList

/-- Does `piece` occur in `s`? -/
def contains (s piece : String) : Bool :=
  (splitOnce piece.toList s.toList).isSome

/-! ## Digits -/

/-- The value of a hexadecimal digit, in either case. -/
def hexDigit? (c : Char) : Option Nat :=
  if '0' ≤ c && c ≤ '9' then some (c.toNat - '0'.toNat)
  else if 'a' ≤ c && c ≤ 'f' then some (c.toNat - 'a'.toNat + 10)
  else if 'A' ≤ c && c ≤ 'F' then some (c.toNat - 'A'.toNat + 10)
  else none

/-- The number that these digits spell in a base. -/
def ofDigits (base : Nat) (digits : List Char) : Nat :=
  digits.foldl (fun value c => value * base + (hexDigit? c).getD 0) 0

/-- The bytes that pairs of hexadecimal digits name; a digit left over at the end names none. -/
def hexBytes : List Char → Option (List UInt8)
  | a :: b :: rest => do
    return UInt8.ofNat ((← hexDigit? a) * 16 + (← hexDigit? b)) :: (← hexBytes rest)
  | _ => some []

end SwiftSurface.Text
