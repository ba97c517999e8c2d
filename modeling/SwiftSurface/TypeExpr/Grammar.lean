import SwiftSurface.Log
import SwiftSurface.Parsing
import SwiftSurface.Text
import SwiftSurface.TypeExpr.Composition

/-!
# The grammar of type expressions

`TypeExpr.parse` reads a type expression from its text. The grammar takes the written form of
`TypeExpr.write` and the short spellings that a demangler prints: `T?` and `T!` for the two optional
types, `[T]` and `[K: V]` for arrays and dictionaries, and `@name[...]` for an attribute with
parameters. A single element in parentheses without a label stands for itself, so `(T)` is `T`.

```
type        = attribute* ("inout" blank+)? (label ":")? core
core        = composition ("throws"? "->" type)?
composition = atom ("&" atom)*
atom        = (tuple | collection | named) ("?" | "!")*
tuple       = "(" (type ("," type)*)? ")"
collection  = "[" type (":" type)? "]"
named       = segment ("." segment)*
segment     = identifier ("." identifier)* ("<" type ("," type)* ">")?
```

A label is read at the root and in front of the elements of a tuple only. Blanks are skipped around
attributes, elements, commas, colons, `&`, `throws` and the arrow, and nowhere else.

Each rule is a parser in terms of `inner`, the parser of the `core` rule at the places where the
grammar recurs; `core` ties the knot. An `inner` part always begins after something was read, so it
sees a shorter text.
-/

namespace SwiftSurface.Grammar

open SwiftSurface.Parser Text

/-! ## Words and marks -/

/-- The characters that no identifier holds. -/
def delimiters : List Char :=
  ['.', ',', '(', ')', '<', '>', '[', ']', ':', '&', '?', '!', '@', '-', '=']

/-- Is this a character of an identifier? -/
def isIdentifierChar (c : Char) : Bool :=
  !isBlank c && !delimiters.contains c

/-- Skips the blanks before and after `item`. -/
def padded {α : Type} (item : Parser α) : Parser α := fun s =>
  (item (skipBlanks s)).map fun (a, rest) => (a, skipBlanks rest)

/-- Reads an identifier. -/
def identifier : Parser (List Char) :=
  run isIdentifierChar

/-- Reads identifiers joined by dots, as they stand. -/
def dottedName : Parser (List Char) := fun s =>
  (identifier s).map fun (first, rest) =>
    let (more, rest) := many (after (char '.') identifier) rest
    (first ++ more.flatMap ('.' :: ·), rest)

/-! ## Attributes and other decorations -/

/-- Reads one attribute parameter: at least one character up to a comma or the closing mark, without
the blanks at its ends. -/
def attributeParameter (closing : Char) : Parser String := fun s =>
  (run (fun c => c != ',' && c != closing) s).map fun (cs, rest) => (String.ofList (trim cs), rest)

/-- Reads the parameters of an attribute between two marks. -/
def attributeParameters (opening closing : Char) : Parser (List String) :=
  between opening closing fun s => some (separatedBy ',' (attributeParameter closing) s)

/-- Reads an attribute, with its parameters in parentheses or brackets if any follow its name. -/
def attributeMark : Parser Attribute := fun s =>
  (after (char '@') identifier s).map fun (name, rest) =>
    let (parameters, rest) :=
      optionally (orElse (attributeParameters '(' ')') (attributeParameters '[' ']')) rest
    ({ name := String.ofList name, parameters := parameters.getD [] }, rest)

/-- Reads `inout`, which needs a blank after it. -/
def inoutMark : Parser Unit :=
  followedBy (literal "inout".toList) (run isBlank)

/-- Reads a label with its colon. -/
def labelMark : Parser String := fun s =>
  (followedBy identifier (padded (char ':')) s).map fun (name, rest) => (String.ofList name, rest)

/-- Puts decorations in front of those that a type has: attributes before its attributes, `inout` if
it is given, a label in place of its label. -/
def decorate (attributes : List Attribute) (isInout : Bool) (label : Option String) (t : TypeExpr) :
    TypeExpr :=
  { t with
    attributes := attributes ++ t.attributes
    isInout := isInout || t.isInout
    label := label.or t.label }

/-- Reads attributes, `inout`, a label where one may stand, and then `core`. -/
def withDecorations (mayHaveLabel : Bool) (core : Parser TypeExpr) : Parser TypeExpr := fun s =>
  let (attributes, s) := many (padded attributeMark) s
  let (inoutRead, s) := optionally inoutMark s
  let (label, s) := if mayHaveLabel then optionally labelMark s else (none, s)
  (core s).map fun (t, rest) => (decorate attributes inoutRead.isSome label t, rest)

/-! ## Atoms -/

section Rules

variable (inner : Parser TypeExpr)

/-- Reads a type without a label, with blanks around it. -/
def unlabeled : Parser TypeExpr :=
  padded (withDecorations false inner)

/-- Reads generic arguments: at least one type between angle brackets. -/
def genericArguments : Parser (List TypeExpr) :=
  between '<' '>' fun s =>
    match separatedBy ',' (unlabeled inner) s with
    | ([], _) => none
    | found => some found

/-- Reads a piece of a nominal path: names joined by dots, and the generic arguments after them. -/
def segment : Parser TypeExpr := fun s =>
  (dottedName s).map fun (name, rest) =>
    let (arguments, rest) := optionally (genericArguments inner) rest
    (TypeExpr.generic (String.ofList name) (arguments.getD []), rest)

/-- The nominal path of these segments: each later one is an inner type of the one before it. -/
def nominalPath : TypeExpr → List TypeExpr → TypeExpr
  | head, [] => head
  | head, next :: rest => head.withInner (nominalPath next rest)

/-- Reads a nominal path. -/
def nominal : Parser TypeExpr := fun s =>
  (segment inner s).map fun (head, rest) =>
    let (more, rest) := many (after (char '.') (segment inner)) rest
    (nominalPath head more, rest)

/-- Elements in parentheses: one element without a label stands for itself. -/
def groupOf : List TypeExpr → TypeExpr
  | [t] => if t.label.isNone then t else .tuple [t]
  | elements => .tuple elements

/-- Reads elements in parentheses. -/
def group : Parser TypeExpr := fun s =>
  let elements : Parser (List TypeExpr) := fun s =>
    some (separatedBy ',' (padded (withDecorations true inner)) s)
  (followedBy (after (padded (char '(')) elements) (char ')') s).map fun (elements, rest) =>
    (groupOf elements, rest)

/-- Reads the short spelling of an array or a dictionary. -/
def collection : Parser TypeExpr :=
  between '[' ']' fun s =>
    (unlabeled inner s).map fun (first, rest) =>
      match optionally (after (padded (char ':')) (unlabeled inner)) rest with
      | (some value, rest) => (.generic "Swift.Dictionary" [first, value], rest)
      | (none, rest) => (.generic "Swift.Array" [first], rest)

/-- Reads a `?` or `!` and gives the optional type that it stands for. -/
def optionalMark : Parser String
  | '?' :: rest => some ("Swift.Optional", rest)
  | '!' :: rest => some ("Swift.ImplicitlyUnwrappedOptional", rest)
  | _ => none

/-- Reads an atom with its optional marks; each mark wraps what stands before it. -/
def atom : Parser TypeExpr := fun s =>
  (orElse (group inner) (orElse (collection inner) (nominal inner)) s).map fun (t, rest) =>
    let (marks, rest) := many optionalMark rest
    (marks.foldl (fun t wrapper => .generic wrapper [t]) t, rest)

/-! ## Compositions and closures -/

/-- The constituent that an operand of `&` gives: it must be a named type without generic arguments,
and only its name and inner type are kept. -/
def constituentOf (t : TypeExpr) : Option NamedType :=
  if t.generics.isEmpty then t.named? else none

/-- Reads an atom, or a composition of at least two. -/
def composition : Parser TypeExpr := fun s =>
  match atom inner s with
  | none => none
  | some (first, rest) =>
    match many (after (padded (char '&')) (atom inner)) rest with
    | ([], rest) => some (first, rest)
    | (more, rest) =>
      ((first :: more).mapM constituentOf).map fun constituents =>
        (.composition constituents, rest)

/-- Reads `throws` if it stands there, the arrow and the result of a closure. -/
def arrow : Parser (Bool × TypeExpr) := fun s =>
  let (throwsRead, s) := optionally (padded (literal "throws".toList)) s
  (after (padded (literal "->".toList)) (withDecorations false inner) s).map fun (returns, rest) =>
    ((throwsRead.isSome, returns), rest)

/-- The `core` rule in terms of itself: a composition, or a closure whose argument it is. -/
def coreRule : Parser TypeExpr := fun s =>
  (composition inner s).map fun (t, rest) =>
    match optionally (arrow inner) rest with
    | (some (throws, returns), rest) => (.closure t returns throws, rest)
    | (none, rest) => (t, rest)

end Rules

/-! ## The whole grammar -/

/-- Reads a type expression without decorations in front of it. -/
def core (s : List Char) : Option (TypeExpr × List Char) :=
  coreRule (fun part => if part.length < s.length then core part else none) s
termination_by s.length

/-- Reads a type expression with its decorations. -/
def type : Parser TypeExpr :=
  withDecorations true core

end Grammar

open Grammar in
/-- The type expression that this text spells, with blanks around it or not. -/
def TypeExpr.parse (source : String) : Option TypeExpr :=
  match padded type source.toList with
  | some (t, []) => some t
  | _ => none

/-- The message about a text that spells no type expression. -/
def TypeExpr.parseFailure (source : String) (reasons : List String) : String :=
  "Unable to parse type expression `" ++ source ++ "`: " ++ "; ".intercalate reasons
    ++ ". Type expressions follow the demangler's fully qualified output, e.g. "
    ++ "`Swift.Array<Swift.Int>` or `(Swift.Int) throws -> ()`."

/-- The log line about a text that spells no type expression. The first place where the grammar
refuses is the only reason there is. -/
def TypeExpr.rejectionLine (source : String) : Log.Line :=
  ⟨.debug, "rejected type expression `" ++ source ++ "` (1 errors)"⟩

end SwiftSurface
