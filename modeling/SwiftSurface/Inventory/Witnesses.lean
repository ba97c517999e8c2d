import SwiftSurface.Declaration.Basic
import SwiftSurface.Table

/-!
# The symbols of witness tables

The symbols that make up the witness tables of a type, grouped by kind.
-/

namespace SwiftSurface

/-- Witness table symbols by kind, in the order in which they came. -/
structure WitnessTable where
  groups : Table WitnessKind (List FunctionDecl)
deriving DecidableEq

namespace WitnessTable

/-- The table without symbols. -/
def empty : WitnessTable :=
  ⟨.empty⟩

/-- Files a witness table symbol with its kind; any other function is not taken. -/
def add? (t : WitnessTable) (f : FunctionDecl) : Option WitnessTable :=
  match f.signature with
  | .witnessTable kind _ => some ⟨t.groups.insert kind ((t.groups.get? kind).getD [] ++ [f])⟩
  | _ => none

/-- The symbols of this kind. -/
def ofKind (t : WitnessTable) (kind : WitnessKind) : List FunctionDecl :=
  (t.groups.get? kind).getD []

/-- All symbols, by the order of kinds. -/
def all (t : WitnessTable) : List FunctionDecl :=
  t.groups.values.flatten

/-- The mangled names of all symbols. -/
def mangledNames (t : WitnessTable) : List String :=
  t.all.map (·.mangledName)

/-- The value witness table, if there is one. -/
def valueWitness? (t : WitnessTable) : Option FunctionDecl :=
  (t.ofKind .value).head?

end WitnessTable

end SwiftSurface
