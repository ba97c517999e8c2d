/-!
# Type expressions

The type expressions that appear in decoded signatures: a nominal type such as
`Swift.Dictionary<K, V>.Index`, a tuple, a closure or a protocol composition. Every node also
carries generic arguments, attributes, an `inout` flag and an optional label.

* `TypeExpr`, `Shape` and `NamedType` are the tree;
* `NamedType.ofName` gives `Any` and `AnyObject` their module;
* `TypeExpr.withInner` selects an inner type;
* `TypeExpr.asArguments` reads `T -> U` and `(T) -> U` as the same list of arguments.
-/

namespace SwiftSurface

/-! ## The tree -/

/-- An attribute such as `@escaping` or `@convention(thin)`. -/
structure Attribute where
  name : String
  parameters : List String := []
deriving DecidableEq, Inhabited

mutual

/-- A type expression: its shape, and what may decorate any shape. -/
structure TypeExpr where
  shape : Shape
  generics : List TypeExpr
  attributes : List Attribute
  isInout : Bool
  label : Option String

/-- The four shapes of a type expression. -/
inductive Shape where
  /-- A nominal type or a generic parameter, by name. -/
  | named (type : NamedType)
  /-- An ordered list of elements, each possibly labelled. `()` is the unit type. -/
  | tuple (elements : List TypeExpr)
  /-- A function type `arguments -> returns`. -/
  | closure (arguments returns : TypeExpr) (throws : Bool)
  /-- A protocol composition `A & B`. -/
  | composition (constituents : List NamedType)

/-- A name, bare (`T`) or with its module (`Swift.Int`), and the inner type selected after the
generic arguments of the node, as `Index` in `Swift.Dictionary<K, V>.Index`. -/
structure NamedType where
  name : String
  inner : Option TypeExpr

end

/-- The kind of a shape. -/
inductive ShapeKind where
  | named
  | tuple
  | closure
  | composition
deriving DecidableEq

/-- The kind of this shape. -/
def Shape.kind : Shape → ShapeKind
  | .named _ => .named
  | .tuple _ => .tuple
  | .closure _ _ _ => .closure
  | .composition _ => .composition

/-! ## Names -/

namespace NamedType

/-- The name with which a type is referred to. `Any` and `AnyObject` live in the `Swift` module, so
the bare spellings get it; no other name is touched. -/
def canonicalName (name : String) : String :=
  if name = "Any" then "Swift.Any"
  else if name = "AnyObject" then "Swift.AnyObject"
  else name

/-- The type of this name, with no inner type. -/
def ofName (name : String) : NamedType :=
  { name := canonicalName name, inner := none }

/-- The text of a name before and after its first dot. -/
def splitModule (name : String) : Option (String × String) :=
  match name.toList.dropWhile (· != '.') with
  | [] => none
  | _ :: rest =>
    some (String.ofList (name.toList.takeWhile (· != '.')), String.ofList rest)

/-- The module qualifier: the text before the first dot. -/
def module? (type : NamedType) : Option String :=
  (splitModule type.name).map Prod.fst

/-- A name without its module qualifier. -/
def unqualifiedName (name : String) : String :=
  ((splitModule name).map Prod.snd).getD name

end NamedType

namespace TypeExpr

/-! ## Building type expressions -/

/-- A shape without decorations. -/
def ofShape (shape : Shape) : TypeExpr :=
  { shape, generics := [], attributes := [], isInout := false, label := none }

/-- A type by name, without generic arguments. -/
def named (name : String) : TypeExpr :=
  ofShape (.named (.ofName name))

/-- Replaces the generic arguments. -/
def withGenerics (t : TypeExpr) (generics : List TypeExpr) : TypeExpr :=
  { t with generics }

/-- A type by name, applied to generic arguments. -/
def generic (name : String) (generics : List TypeExpr) : TypeExpr :=
  (named name).withGenerics generics

/-- The tuple of these elements. -/
def tuple (elements : List TypeExpr) : TypeExpr :=
  ofShape (.tuple elements)

/-- The unit type `()`. -/
def unit : TypeExpr :=
  tuple []

/-- The function type `arguments -> returns`. -/
def closure (arguments returns : TypeExpr) (throws : Bool) : TypeExpr :=
  ofShape (.closure arguments returns throws)

/-- Appends an attribute. -/
def withAttribute (t : TypeExpr) (added : Attribute) : TypeExpr :=
  { t with attributes := t.attributes ++ [added] }

/-- Sets the label. -/
def withLabel (t : TypeExpr) (label : String) : TypeExpr :=
  { t with label := some label }

/-- Sets the `inout` flag to `isInout`. -/
def withInout (t : TypeExpr) (isInout : Bool) : TypeExpr :=
  { t with isInout }

/-- Selects `inner` as an inner type of a named type; any other type is left as it is.

An inner type is a node of its own only after generic arguments. Without them the two names are
joined by a dot, and the result has the generic arguments and the inner type of `inner`. A type that
has an inner type already passes `inner` on to it. -/
def withInner : TypeExpr → TypeExpr → TypeExpr
  | ⟨.named ⟨name, some current⟩, generics, attributes, isInout, label⟩, inner =>
    ⟨.named ⟨name, some (current.withInner inner)⟩, generics, attributes, isInout, label⟩
  | ⟨.named ⟨name, none⟩, [], attributes, isInout, label⟩, inner =>
    match inner.shape with
    | .named type =>
      ⟨.named ⟨name ++ "." ++ type.name, type.inner⟩, inner.generics, attributes, isInout, label⟩
    | _ => ⟨.named ⟨name, some inner⟩, [], attributes, isInout, label⟩
  | ⟨.named ⟨name, none⟩, generics, attributes, isInout, label⟩, inner =>
    ⟨.named ⟨name, some inner⟩, generics, attributes, isInout, label⟩
  | t, _ => t
termination_by structural t => t

/-! ## Questions about one node -/

/-- The kind of this type's shape. -/
def kind (t : TypeExpr) : ShapeKind :=
  t.shape.kind

/-- The named type, if that is the shape. -/
def named? (t : TypeExpr) : Option NamedType :=
  match t.shape with
  | .named type => some type
  | _ => none

/-- The elements, if this is a tuple. -/
def elements? (t : TypeExpr) : Option (List TypeExpr) :=
  match t.shape with
  | .tuple elements => some elements
  | _ => none

/-- Is this the unit type `()`? -/
def isUnit (t : TypeExpr) : Bool :=
  t.elements?.any List.isEmpty

/-- Is this `Swift.Array`, of whatever elements? -/
def isArray (t : TypeExpr) : Bool :=
  t.named?.any (·.name == "Swift.Array")

/-- Is an attribute of this name attached? -/
def hasAttribute (t : TypeExpr) (name : String) : Bool :=
  t.attributes.any (·.name == name)

/-- The arguments that a closure's argument type stands for: the elements of a tuple, else that one
type. -/
def asArguments (arguments : TypeExpr) : List TypeExpr :=
  arguments.elements?.getD [arguments]

/-- Is this a closure that may outlive the call it is passed to? -/
def isEscaping (t : TypeExpr) : Bool :=
  t.kind = .closure && t.hasAttribute "escaping"

/-- Is this a closure made from the expression passed for it? -/
def isAutoclosure (t : TypeExpr) : Bool :=
  t.kind = .closure && t.hasAttribute "autoclosure"

/-! ## Closures below the root -/

mutual

/-- Is this node a closure, or does one of its generic arguments (for a named type) or elements (for
a tuple) hold one? -/
def holdsClosure : TypeExpr → Bool
  | ⟨.named _, generics, _, _, _⟩ => anyHoldsClosure generics
  | ⟨.tuple elements, _, _, _, _⟩ => anyHoldsClosure elements
  | ⟨.closure _ _ _, _, _, _, _⟩ => true
  | ⟨.composition _, _, _, _, _⟩ => false
termination_by structural t => t

/-- Does one of these types hold a closure? -/
def anyHoldsClosure : List TypeExpr → Bool
  | [] => false
  | t :: rest => holdsClosure t || anyHoldsClosure rest
termination_by structural types => types

end

/-- Does a closure appear below the root, as a generic argument or a tuple element, at any depth? -/
def holdsInnerClosure (t : TypeExpr) : Bool :=
  t.kind != .closure && t.holdsClosure

end TypeExpr

end SwiftSurface
