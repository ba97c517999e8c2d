/-!
# Documents: the serialized form of values

A `Document` is a tree of scalars, lists and records. `Serial α` says how a value of `α` is written
as a document and read back:

* a structure is a record of its fields (a list of exactly its fields, in order, is read too);
* a variant without content is its name, one with content a record whose only field is its name;
* the fields of a variant's own are read from a record alone;
* an absent value is `null`, and its field may be missing.

Fields that a structure does not have are ignored.
-/

namespace SwiftSurface

/-- A tree of scalars, lists and records. -/
inductive Document where
  | null
  | bool (value : Bool)
  | natural (value : Nat)
  /-- A number that is no natural number, as it is written. No field takes one. -/
  | decimal (literal : String)
  | text (value : String)
  | list (items : List Document)
  | record (fields : List (String × Document))
deriving Inhabited

/-- How values of a type are written as documents and read back. -/
class Serial (α : Type) where
  encode : α → Document
  decode : Document → Option α

export Serial (encode decode)

namespace Document

/-! ## Taking documents apart -/

/-- The value of the field `name`. -/
def find? (fields : List (String × Document)) (name : String) : Option Document :=
  (fields.find? fun field => field.1 == name).map Prod.snd

/-- The values of the fields of a structure, in the order of `names`; `none` where one is missing. A
list is taken for the fields in order if it has as many items. -/
def fields? (names : List String) : Document → Option (List (Option Document))
  | .record fields => some (names.map (find? fields))
  | .list items => if items.length = names.length then some (items.map some) else none
  | _ => none

/-- The values of the fields of a record, in the order of `names`; `none` where one is missing. -/
def members? (names : List String) : Document → Option (List (Option Document))
  | .record fields => some (names.map (find? fields))
  | _ => none

/-- The name and the content of a variant. -/
def variant? : Document → Option (String × Option Document)
  | .text name => some (name, none)
  | .record [(name, content)] => some (name, some content)
  | _ => none

/-- The items of a list, each read with `item`. -/
def listOf {α : Type} (item : Document → Option α) : Document → Option (List α)
  | .list items => items.mapM item
  | _ => none

/-- `null` as absence, anything else read with `item`. -/
def optionOf {α : Type} (item : Document → Option α) : Document → Option (Option α)
  | .null => some none
  | document => (item document).map some

/-- A field that must be there, read with `item`. -/
def required {α : Type} (item : Document → Option α) (field : Option Document) : Option α :=
  field.bind item

/-- A field whose value may be absent: missing, `null`, or read with `item`. -/
def optional {α : Type} (item : Document → Option α) (field : Option Document) :
    Option (Option α) :=
  match field with
  | none => some none
  | some document => optionOf item document

/-- A variant without content, by the table of their names. -/
def enumOf {α : Type} (names : List (String × α)) (document : Document) : Option α :=
  match document.variant? with
  | some (name, none) | some (name, some .null) =>
    (names.find? fun entry => entry.1 == name).map Prod.snd
  | _ => none

/-- A variant with its content. -/
def tagged (name : String) (content : Document) : Document :=
  .record [(name, content)]

/-! ## Measure -/

mutual

/-- How many documents are nested in each other. It bounds the recursion of readers. -/
def depth : Document → Nat
  | .list items => depthOfItems items + 1
  | .record fields => depthOfFields fields + 1
  | _ => 1
termination_by structural document => document

/-- The greatest depth of these items. -/
def depthOfItems : List Document → Nat
  | [] => 0
  | item :: rest => max item.depth (depthOfItems rest)
termination_by structural items => items

/-- The greatest depth of the values of these fields. -/
def depthOfFields : List (String × Document) → Nat
  | [] => 0
  | (_, value) :: rest => max value.depth (depthOfFields rest)
termination_by structural fields => fields

end

end Document

/-! ## Scalars and lists -/

open Document

instance : Serial Bool where
  encode := .bool
  decode
    | .bool value => some value
    | _ => none

instance : Serial String where
  encode := .text
  decode
    | .text value => some value
    | _ => none

/-- A word is written as its natural number, and only numbers below `2^64` are read as one. -/
instance : Serial UInt64 where
  encode word := .natural word.toNat
  decode
    | .natural value => if value < UInt64.size then some (UInt64.ofNat value) else none
    | _ => none

instance {α : Type} [Serial α] : Serial (List α) where
  encode values := .list (values.map encode)
  decode := listOf decode

instance {α : Type} [Serial α] : Serial (Option α) where
  encode
    | none => .null
    | some value => encode value
  decode := optionOf decode

end SwiftSurface
