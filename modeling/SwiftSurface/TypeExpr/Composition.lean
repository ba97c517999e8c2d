import SwiftSurface.TypeExpr.Written

/-!
# Protocol compositions

`A & B` and `B & A & A` are the same composition: the constituents ascend by their written name and
each written name occurs once. Of two constituents with one written name the first given stays.
-/

namespace SwiftSurface

namespace NamedType

/-- Puts a constituent into its place in an ascending list, unless its written name is there. -/
def insertByName (type : NamedType) : List NamedType → List NamedType
  | [] => [type]
  | head :: rest =>
    match compare type.render head.render with
    | .lt => type :: head :: rest
    | .eq => head :: rest
    | .gt => head :: insertByName type rest

/-- These constituents in ascending order of their written names, each name once. -/
def sortByName (types : List NamedType) : List NamedType :=
  types.foldl (fun sorted type => insertByName type sorted) []

end NamedType

/-- The composition of these protocols. -/
def TypeExpr.composition (constituents : List NamedType) : TypeExpr :=
  ofShape (.composition (NamedType.sortByName constituents))

end SwiftSurface
