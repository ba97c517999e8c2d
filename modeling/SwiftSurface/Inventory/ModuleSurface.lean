import SwiftSurface.Inventory.TypeSurface

/-!
# The contents of a module

`ModuleSurface` holds the types of a module by their full names, and what belongs to the module
itself. A type is made when its first declaration comes.
-/

namespace SwiftSurface

/-- Everything that an image exports for one module. -/
structure ModuleSurface where
  name : String
  /-- The classes, structs and enums by their full names. -/
  classes : Table String TypeSurface := .empty
  /-- The protocols by their full names. -/
  protocols : Table String TypeSurface := .empty
  functions : FunctionTable := .empty
  storedVariables : VariableTable := .empty
  definitionsOfUnknownDestination : List Declaration := []
deriving DecidableEq

namespace ModuleSurface

/-- The types among which this kind is kept. -/
def family (m : ModuleSurface) : NominalKind → Table String TypeSurface
  | .protocolType => m.protocols
  | .classType | .structType | .enumType => m.classes

/-- The module with these types as the family of this kind. -/
def withFamily (m : ModuleSurface) (kind : NominalKind) (types : Table String TypeSurface) :
    ModuleSurface :=
  match kind with
  | .protocolType => { m with protocols := types }
  | .classType | .structType | .enumType => { m with classes := types }

/-- Files a declaration in the contents of its owner, which are made if they are not there. -/
def addOwned (m : ModuleSurface) (owner : NominalName) (d : Declaration) : Filed ModuleSurface :=
  let types := m.family owner.kind
  let rebuild (c : TypeSurface) := m.withFamily owner.kind (types.insert owner.fullName c)
  match types.get? owner.fullName with
  | some c => (c.add d).within rebuild
  | none =>
    (((TypeSurface.empty owner).add d).within rebuild).following
      (.newType owner.kind owner.fullName m.name)

/-- Files a declaration that has no owner. -/
def addFree (m : ModuleSurface) : Declaration → Filed ModuleSurface
  | .function f => (m.functions.add f).within fun functions => { m with functions }
  | .variable v => { after := { m with storedVariables := m.storedVariables.add v } }
  | d =>
    { after :=
        { m with definitionsOfUnknownDestination := m.definitionsOfUnknownDestination ++ [d] }
      events := [.ownerless d.mangledName m.name] }

/-- Files a declaration. -/
def add (m : ModuleSurface) (d : Declaration) : Filed ModuleSurface :=
  match d.owner with
  | some owner => m.addOwned owner d
  | none => m.addFree d

end ModuleSurface

end SwiftSurface
