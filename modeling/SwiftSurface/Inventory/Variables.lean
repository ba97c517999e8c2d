import SwiftSurface.Declaration.Basic
import SwiftSurface.Table

/-!
# Variables grouped by name

A variable and its static counterpart may share a name, so each name has a list.
-/

namespace SwiftSurface

/-- Variables by name, in the order in which they came. -/
structure VariableTable where
  groups : Table String (List VariableDecl)
deriving DecidableEq

namespace VariableTable

/-- The table without variables. -/
def empty : VariableTable :=
  ⟨.empty⟩

/-- Files a variable under its name. -/
def add (t : VariableTable) (v : VariableDecl) : VariableTable :=
  ⟨t.groups.insert v.name ((t.groups.get? v.name).getD [] ++ [v])⟩

/-- The variables of this name. -/
def named (t : VariableTable) (name : String) : List VariableDecl :=
  (t.groups.get? name).getD []

/-- All variables, by name. -/
def all (t : VariableTable) : List VariableDecl :=
  t.groups.values.flatten

end VariableTable

end SwiftSurface
