import SwiftSurface.Proofs.TypeExpr.Normal

/-!
# Chains of names

A named type is a chain of names, its own one and those of its inner types, each with its generic
arguments: `Swift.Dictionary<K, V>.Index` has the segments `Swift.Dictionary<K, V>` and `Index`.
-/

namespace SwiftSurface

/-- A name of a chain with the generic arguments behind it. -/
structure Segment where
  name : String
  arguments : List TypeExpr

/-- The segments of a named type; another type has none. -/
def TypeExpr.segments : TypeExpr → List Segment
  | ⟨.named ⟨name, none⟩, generics, _, _, _⟩ => [⟨name, generics⟩]
  | ⟨.named ⟨name, some inner⟩, generics, _, _, _⟩ => ⟨name, generics⟩ :: inner.segments
  | _ => []
termination_by structural t => t

/-- The names of a named type and its inner types joined by dots, without the generic arguments. -/
def TypeExpr.path (t : TypeExpr) : String :=
  ".".intercalate (t.segments.map (·.name))

/-- A named type whose inner types are named types, all along the chain. -/
inductive TypeExpr.IsNominal : TypeExpr → Prop where
  | last {name : String} {generics : List TypeExpr} {attributes : List Attribute} {isInout : Bool}
      {label : Option String} :
      IsNominal ⟨.named ⟨name, none⟩, generics, attributes, isInout, label⟩
  | dot {name : String} {inner : TypeExpr} {generics : List TypeExpr} {attributes : List Attribute}
      {isInout : Bool} {label : Option String} (hinner : inner.IsNominal) :
      IsNominal ⟨.named ⟨name, some inner⟩, generics, attributes, isInout, label⟩

end SwiftSurface
