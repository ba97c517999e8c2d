import SwiftSurface.Document.Basic
import SwiftSurface.Image.Utf8
import SwiftSurface.Scan.Options
import SwiftSurface.Toml.Document

/-!
# The options file

Options are kept as TOML: a key for each option, of which any may be missing. Keys that are no
options are ignored.
-/

namespace SwiftSurface

/-- Why options cannot be loaded or saved. -/
inductive OptionsError where
  /-- The file cannot be read as text, or not be written. -/
  | inaccessible
  /-- The text is no TOML, or an option has a value of the wrong type. -/
  | unparsable (file : String)
deriving DecidableEq

/-- The library's part of the message about a file that holds no options. -/
def OptionsError.parseMessage (file : String) : String :=
  "Failed to parse configuration file '" ++ file ++ "': "

namespace ScanOptions

/-! ## Reading -/

/-- The text that a value is. -/
def text? : Toml.Value → Option String
  | .text value => some value
  | _ => none

/-- The truth value that a value is. -/
def bool? : Toml.Value → Option Bool
  | .bool value => some value
  | _ => none

/-- The texts that a value lists. -/
def texts? : Toml.Value → Option (List String)
  | .list items => items.mapM text?
  | _ => none

/-- The option under `key`, or `default` if there is none; a value of the wrong type is refused. -/
def optionAt {α : Type} (entries : Toml.Entries) (key : String) (read : Toml.Value → Option α)
    (default : α) : Option α :=
  match entries.get? key with
  | some value => read value
  | none => some default

/-- The options that a TOML table holds. -/
def ofToml (entries : Toml.Entries) : Option ScanOptions := do
  let defaults : ScanOptions := {}
  return {
    strict := ← optionAt entries "strict" bool? defaults.strict
    skipHidden := ← optionAt entries "skip_privatized" bool? defaults.skipHidden
    entryPointPrefixes :=
      ← optionAt entries "entry_point_prefixes" texts? defaults.entryPointPrefixes
    oldManglingMarker := ← optionAt entries "old_mangling_marker" text? defaults.oldManglingMarker }

/-- Reads the options from the text of the file of this name. -/
def parse (source : List Char) (file : String) : Except OptionsError ScanOptions :=
  match (Toml.parse source).bind ofToml with
  | some options => .ok options
  | none => .error (.unparsable file)

/-- Reads the options from the file of this name with these contents, if it exists. -/
def load (contents : Option (List UInt8)) (file : String) : Except OptionsError ScanOptions :=
  match contents with
  | none => .error .inaccessible
  | some bytes =>
    match Utf8.decode bytes with
    | .ok source => parse source file
    | .error _ => .error .inaccessible

/-- Reads the options from the file of this name, or takes the defaults if it does not exist. -/
def loadIfPresent (contents : Option (List UInt8)) (file : String) :
    Except OptionsError ScanOptions :=
  if contents.isSome then load contents file else .ok {}

/-! ## Writing -/

/-- A character inside a TOML string between double quotes. -/
def quoteChar (c : Char) : List Char :=
  if c == '"' then ['\\', '"']
  else if c == '\\' then ['\\', '\\']
  else if c == '\n' then ['\\', 'n']
  else if c == '\r' then ['\\', 'r']
  else [c]

/-- A TOML string between double quotes. -/
def quoteText (text : String) : String :=
  "\"" ++ String.ofList (text.toList.flatMap quoteChar) ++ "\""

/-- The text of the options file: each option on a line of its own. -/
def render (o : ScanOptions) : String :=
  let flag (value : Bool) : String := if value then "true" else "false"
  let line (key value : String) : String := key ++ " = " ++ value ++ "\n"
  line "strict" (flag o.strict) ++ line "skip_privatized" (flag o.skipHidden)
    ++ line "entry_point_prefixes"
      ("[" ++ ", ".intercalate (o.entryPointPrefixes.map quoteText) ++ "]")
    ++ line "old_mangling_marker" (quoteText o.oldManglingMarker)

end ScanOptions

/-! ## The serialized form -/

open Document in
/-- Options that are missing when they are read take their defaults. -/
instance : Serial ScanOptions where
  encode o := .record
    [("strict", encode o.strict), ("skip_privatized", encode o.skipHidden),
      ("entry_point_prefixes", encode o.entryPointPrefixes),
      ("old_mangling_marker", encode o.oldManglingMarker)]
  decode document :=
    let names := ["strict", "skip_privatized", "entry_point_prefixes", "old_mangling_marker"]
    let fields : Option (List (Option Document)) :=
      match document with
      | .record fields => some (names.map (find? fields))
      | .list items =>
        if items.length ≤ names.length then
          some (items.map some ++ List.replicate (names.length - items.length) none)
        else none
      | _ => none
    let orDefault {α : Type} [Serial α] (default : α) (field : Option Document) : Option α :=
      (field.map decode).getD (some default)
    let defaults : ScanOptions := {}
    match fields with
    | some [strict, skipHidden, entryPointPrefixes, oldManglingMarker] => do
      return {
        strict := ← orDefault defaults.strict strict
        skipHidden := ← orDefault defaults.skipHidden skipHidden
        entryPointPrefixes := ← orDefault defaults.entryPointPrefixes entryPointPrefixes
        oldManglingMarker := ← orDefault defaults.oldManglingMarker oldManglingMarker }
    | _ => none

end SwiftSurface
