/-!
# Parsing: readers that take a beginning of the text

A `Parser` reads a beginning of the text and gives back its value with the rest, or refuses. Choice
is ordered and nothing already read is read in another way: `optionally` and `many` go on from where
they began when their item refuses.
-/

namespace SwiftSurface

/-- Reads a beginning of the text and gives its value and the rest of the text. -/
abbrev Parser (α : Type) := List Char → Option (α × List Char)

namespace Parser

variable {α β : Type}

/-- Reads the one character `c`. -/
def char (c : Char) : Parser Unit
  | d :: rest => if d = c then some ((), rest) else none
  | [] => none

/-- Reads this text. -/
def literal : List Char → Parser Unit
  | [], s => some ((), s)
  | c :: cs, s =>
    match s with
    | d :: rest => if d = c then literal cs rest else none
    | [] => none

/-- Reads a plus or minus sign and tells whether it is the minus sign. -/
def sign : Parser Bool
  | '+' :: rest => some (false, rest)
  | '-' :: rest => some (true, rest)
  | _ => none

/-- Reads the longest run of characters of a class, which must not be empty. -/
def run (inClass : Char → Bool) : Parser (List Char) := fun s =>
  match s.takeWhile inClass with
  | [] => none
  | cs => some (cs, s.dropWhile inClass)

/-- Reads `first`, then `second`, and gives the value of `second`. -/
def after (first : Parser α) (second : Parser β) : Parser β := fun s =>
  match first s with
  | some (_, rest) => second rest
  | none => none

/-- Reads `first`, then `second`, and gives the value of `first`. -/
def followedBy (first : Parser α) (second : Parser β) : Parser α := fun s =>
  match first s with
  | some (a, rest) => (second rest).map fun (_, rest) => (a, rest)
  | none => none

/-- Reads with `first`, or else with `second`. -/
def orElse (first second : Parser α) : Parser α := fun s =>
  match first s with
  | some found => some found
  | none => second s

/-- Reads with `item` if it accepts, else reads nothing. -/
def optionally (item : Parser α) (s : List Char) : Option α × List Char :=
  match item s with
  | some (a, rest) => (some a, rest)
  | none => (none, s)

/-- Reads as many items as there are. It ends at the first item that reads nothing. -/
def many (item : Parser α) (s : List Char) : List α × List Char :=
  match item s with
  | some (a, rest) =>
    if rest.length < s.length then
      let (more, rest) := many item rest
      (a :: more, rest)
    else ([], s)
  | none => ([], s)
termination_by s.length

/-- Reads items with the character `separator` between them. A separator that no item follows is
left unread. -/
def separatedBy (separator : Char) (item : Parser α) (s : List Char) : List α × List Char :=
  match item s with
  | some (a, rest) =>
    let (more, rest) := many (after (char separator) item) rest
    (a :: more, rest)
  | none => ([], s)

/-- Reads `item` between two characters. -/
def between (opening closing : Char) (item : Parser α) : Parser α :=
  followedBy (after (char opening) item) (char closing)

end Parser

end SwiftSurface
