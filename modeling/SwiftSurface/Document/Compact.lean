import SwiftSurface.Document.TypeExpr
import SwiftSurface.TypeExpr.Written

/-!
# The compact form of a document

For reading by people: each type expression becomes its text, and the members of other records that
hold nothing are left out.
-/

namespace SwiftSurface.Document

/-- Does the document hold nothing? -/
def isVoid : Document → Bool
  | .null | .list [] | .record [] => true
  | _ => false

/-- The type expression that a record with this shape stands for, if it is one. -/
def typeExpr? (document : Document) : Option TypeExpr :=
  match document with
  | .record fields =>
    if (find? fields "shape").isSome && (find? fields "generic_parameters").isSome then
      decode document
    else none
  | _ => none

mutual

/-- Makes a document compact, from the inside out. -/
def compact : Document → Document
  | .list items => .list (compactItems items)
  | .record fields =>
    match typeExpr? (.record fields) with
    | some t => .text t.render
    | none => .record (compactFields fields)
  | scalar => scalar
termination_by structural document => document

/-- Makes the items compact; none is left out. -/
def compactItems : List Document → List Document
  | [] => []
  | item :: rest => item.compact :: compactItems rest
termination_by structural items => items

/-- Makes the members compact and leaves out those that then hold nothing. -/
def compactFields : List (String × Document) → List (String × Document)
  | [] => []
  | (name, value) :: rest =>
    let value := value.compact
    if value.isVoid then compactFields rest else (name, value) :: compactFields rest
termination_by structural fields => fields

end

end SwiftSurface.Document
