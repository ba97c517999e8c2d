/-!
# TOML values and tables

A TOML document is a table. `Table` entries keep how a table came to be, because that decides what
may still be added to it:

* an inline table is complete;
* a table defined by a header takes no second header and no dotted keys from outside;
* a table implied by a longer header may still get a header of its own;
* a table made by dotted keys takes more dotted keys of the same table, and no header.
-/

namespace SwiftSurface.Toml

/-- How a table came to be. -/
inductive TableOrigin where
  /-- It was written in braces. -/
  | inline
  /-- It has a header. -/
  | header
  /-- It lies on the path of another table's header. -/
  | implied
  /-- It lies on the path of a dotted key. -/
  | dotted
deriving DecidableEq

/-- A value. Of numbers, dates and times it is only known that they are there. -/
inductive Value where
  | text (value : String)
  | bool (value : Bool)
  | number
  | moment
  | list (items : List Value)
  | table (origin : TableOrigin) (entries : List (String × Value))
  /-- Tables under one repeated header. -/
  | tables (rows : List (List (String × Value)))
deriving Inhabited

/-- The entries of a table, in the order in which they came. -/
abbrev Entries := List (String × Value)

namespace Entries

/-- The value of `key`. -/
def get? (entries : Entries) (key : String) : Option Value :=
  (entries.find? fun entry => entry.1 == key).map Prod.snd

/-- Writes the value of `key`, in its place if it is there. -/
def set (key : String) (value : Value) : Entries → Entries
  | [] => [(key, value)]
  | entry :: rest => if entry.1 == key then (key, value) :: rest else entry :: set key value rest

/-- Changes the last of these rows. -/
def changeLast (change : Entries → Option Entries) (rows : List Entries) : Option (List Entries) :=
  match rows.getLast? with
  | some row => (change row).map fun row => rows.dropLast ++ [row]
  | none => none

/-- Adds a value under a dotted key. Its last part must be new, and the tables before it must be
new, made by dotted keys, or (except for the last of them) implied by a header or the last row of a
repeated one. -/
def addPair : List String → Value → Entries → Option Entries
  | [], _, _ => none
  | [key], value, entries =>
    match entries.get? key with
    | none => some (entries.set key value)
    | some _ => none
  | key :: next :: path, value, entries =>
    match entries.get? key with
    | none => do return entries.set key (.table .dotted (← addPair (next :: path) value []))
    | some (.table .dotted inner) => do
      return entries.set key (.table .dotted (← addPair (next :: path) value inner))
    | some (.table .implied inner) =>
      if path.isEmpty then none
      else do return entries.set key (.table .implied (← addPair (next :: path) value inner))
    | some (.tables rows) =>
      if path.isEmpty then none
      else do return entries.set key (.tables (← changeLast (addPair (next :: path) value) rows))
    | some _ => none

/-- Changes the table at `path`. A table on the way that is not there is implied; of repeated tables
the last one is meant; an inline table cannot be changed. -/
def changeAt (change : Entries → Option Entries) : List String → Entries → Option Entries
  | [], entries => change entries
  | key :: path, entries =>
    match entries.get? key with
    | none => do return entries.set key (.table .implied (← changeAt change path []))
    | some (.table .inline _) => none
    | some (.table origin inner) => do
      return entries.set key (.table origin (← changeAt change path inner))
    | some (.tables rows) => do
      return entries.set key (.tables (← changeLast (changeAt change path) rows))
    | some _ => none

/-- Adds the table that a header names: a new one, or one implied before. -/
def addTable (key : String) (entries : Entries) : Option Entries :=
  match entries.get? key with
  | none => some (entries.set key (.table .header []))
  | some (.table .implied inner) => some (entries.set key (.table .header inner))
  | some _ => none

/-- Adds one more table under a repeated header. -/
def addRow (key : String) (entries : Entries) : Option Entries :=
  match entries.get? key with
  | none => some (entries.set key (.tables [[]]))
  | some (.tables rows) => some (entries.set key (.tables (rows ++ [[]])))
  | some _ => none

end Entries

end SwiftSurface.Toml
