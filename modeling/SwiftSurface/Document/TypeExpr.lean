import SwiftSurface.Document.Basic
import SwiftSurface.TypeExpr.Basic

/-!
# The serialized form of type expressions

A type expression is a record of `shape`, `generic_parameters`, `attributes`, `is_inout` and
`label`. Reading takes the tree as it is: names are not given a module and compositions are not
sorted.
-/

namespace SwiftSurface

open Document

instance : Serial Attribute where
  encode a := .record [("name", encode a.name), ("parameters", encode a.parameters)]
  decode document :=
    match document.fields? ["name", "parameters"] with
    | some [name, parameters] => do
      return { name := ← required decode name, parameters := ← required decode parameters }
    | _ => none

/-! ## Writing -/

mutual

/-- Writes a type expression as a document. -/
def TypeExpr.toDocument : TypeExpr → Document
  | ⟨shape, generics, attributes, isInout, label⟩ =>
    .record
      [("shape", shape.toDocument), ("generic_parameters", .list (TypeExpr.toDocuments generics)),
        ("attributes", encode attributes), ("is_inout", encode isInout), ("label", encode label)]
termination_by structural t => t

/-- Writes a shape as a document. -/
def Shape.toDocument : Shape → Document
  | .named ⟨name, none⟩ =>
    tagged "Named" (.record [("name", encode name), ("inner_type", .null)])
  | .named ⟨name, some inner⟩ =>
    tagged "Named" (.record [("name", encode name), ("inner_type", inner.toDocument)])
  | .tuple elements =>
    tagged "Tuple" (.record [("elements", .list (TypeExpr.toDocuments elements))])
  | .closure arguments returns throws =>
    tagged "Closure" (.record
      [("arguments", arguments.toDocument), ("returns", returns.toDocument),
        ("throws", encode throws)])
  | .composition constituents =>
    tagged "ProtocolList" (.record [("protocols", .list (Shape.constituentDocuments constituents))])
termination_by structural shape => shape

/-- Writes each type of a list as a document. -/
def TypeExpr.toDocuments : List TypeExpr → List Document
  | [] => []
  | t :: rest => t.toDocument :: TypeExpr.toDocuments rest
termination_by structural types => types

/-- Writes each constituent of a composition as a document. -/
def Shape.constituentDocuments : List NamedType → List Document
  | [] => []
  | ⟨name, none⟩ :: rest =>
    .record [("name", encode name), ("inner_type", .null)] :: Shape.constituentDocuments rest
  | ⟨name, some inner⟩ :: rest =>
    .record [("name", encode name), ("inner_type", inner.toDocument)]
      :: Shape.constituentDocuments rest
termination_by structural constituents => constituents

end

/-! ## Reading -/

/-- Reads a named type, its inner type with `inner`. -/
def NamedType.ofDocument (inner : Document → Option TypeExpr) (document : Document) :
    Option NamedType :=
  match document.fields? ["name", "inner_type"] with
  | some [name, innerType] => do
    return { name := ← required decode name, inner := ← optional inner innerType }
  | _ => none

/-- Reads a shape, the types in it with `inner`. -/
def Shape.ofDocument (inner : Document → Option TypeExpr) (document : Document) : Option Shape :=
  match document.variant? with
  | some ("Named", some content) => (NamedType.ofDocument inner content).map .named
  | some ("Tuple", some content) =>
    match content.fields? ["elements"] with
    | some [elements] => (required (listOf inner) elements).map .tuple
    | _ => none
  | some ("Closure", some content) =>
    match content.fields? ["arguments", "returns", "throws"] with
    | some [arguments, returns, throws] => do
      return .closure (← required inner arguments) (← required inner returns)
        (← required decode throws)
    | _ => none
  | some ("ProtocolList", some content) =>
    match content.fields? ["protocols"] with
    | some [protocols] =>
      (required (listOf (NamedType.ofDocument inner)) protocols).map .composition
    | _ => none
  | _ => none

/-- Reads a type expression of at most this depth. -/
def TypeExpr.ofDocumentWithin : Nat → Document → Option TypeExpr
  | 0, _ => none
  | bound + 1, document =>
    let inner := ofDocumentWithin bound
    match document.fields? ["shape", "generic_parameters", "attributes", "is_inout", "label"] with
    | some [shape, generics, attributes, isInout, label] => do
      return {
        shape := ← required (Shape.ofDocument inner) shape
        generics := ← required (listOf inner) generics
        attributes := ← required decode attributes
        isInout := ← required decode isInout
        label := ← optional decode label }
    | _ => none

/-- Reads a type expression. -/
def TypeExpr.ofDocument (document : Document) : Option TypeExpr :=
  ofDocumentWithin document.depth document

instance : Serial TypeExpr where
  encode := TypeExpr.toDocument
  decode := TypeExpr.ofDocument

end SwiftSurface
