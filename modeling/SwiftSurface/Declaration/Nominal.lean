import SwiftSurface.TypeExpr.Basic

/-!
# Names of nominal types

A class, struct, enum or protocol is named by its module and the path inside it, such as
`M.Outer.Inner`.
-/

namespace SwiftSurface

/-- The kinds of nominal types, in the order in which they sort. -/
inductive NominalKind where
  | classType
  | structType
  | enumType
  | protocolType
deriving DecidableEq, Ord

/-- The kind as a word of running text. -/
def NominalKind.render : NominalKind → String
  | .classType => "class"
  | .structType => "struct"
  | .enumType => "enum"
  | .protocolType => "protocol"

/-- The name of a nominal type: its module, the path inside the module, and its kind. -/
structure NominalName where
  module : String
  path : List String
  kind : NominalKind
deriving DecidableEq

namespace NominalName

/-- Module and path joined by dots. -/
def fullName (n : NominalName) : String :=
  ".".intercalate (n.module :: n.path)

/-- The last component: the end of the path, or the module if the path is empty. -/
def name (n : NominalName) : String :=
  n.path.getLast?.getD n.module

/-- The type of this name. -/
def asType (n : NominalName) : TypeExpr :=
  .named n.fullName

/-- Names sort by module, then by path, then by kind. -/
instance : Ord NominalName where
  compare a b :=
    (compare a.module b.module).then ((compare a.path b.path).then (compare a.kind b.kind))

end NominalName

end SwiftSurface
