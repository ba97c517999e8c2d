import SwiftSurface.Image.Architecture
import SwiftSurface.Inventory.ModuleSurface

/-!
# The inventory of an image

`Inventory` is the public surface of an image: its modules, their types and the members of these. It
is built by filing one declaration after another; modules and types are made when their first
declaration comes.
-/

namespace SwiftSurface

/-- The modules of an image, and the architecture that it is made for. -/
structure Inventory where
  architecture : Architecture := .unknown
  modules : Table String ModuleSurface := .empty
deriving DecidableEq

namespace Inventory

/-- Files a declaration in its module, which is made if it is not there. -/
def add (i : Inventory) (d : Declaration) : Filed Inventory :=
  let m := (i.modules.get? d.module).getD { name := d.module }
  (m.add d).within fun m => { i with modules := i.modules.insert d.module m }

/-- The width of a pointer on the architecture of the image. -/
def pointerSize (i : Inventory) : Nat :=
  i.architecture.pointerSize

/-- The module of this name. -/
def module? (i : Inventory) (name : String) : Option ModuleSurface :=
  i.modules.get? name

/-- The classes, structs and enums of every module. -/
def classes (i : Inventory) : List TypeSurface :=
  i.modules.values.flatMap fun m => m.classes.values

/-- The classes, structs and enums of a module; an unknown module has none. -/
def classesOf (i : Inventory) (moduleName : String) : List TypeSurface :=
  ((i.module? moduleName).map (·.classes.values)).getD []

/-- The protocols of a module; an unknown module has none. -/
def protocolsOf (i : Inventory) (moduleName : String) : List TypeSurface :=
  ((i.module? moduleName).map (·.protocols.values)).getD []

/-- The classes, structs or enums of a module, by their kind. -/
def nominalsOfKind (i : Inventory) (moduleName : String) (kind : NominalKind) : List TypeSurface :=
  (i.classesOf moduleName).filter (·.name.kind = kind)

/-- The class, struct or enum of this full name. Its module is the text before the first dot. -/
def classNamed? (i : Inventory) (fullName : String) : Option TypeSurface := do
  let moduleName ← (NamedType.splitModule fullName).map Prod.fst
  (← i.module? moduleName).classes.get? fullName

/-- The protocol of this full name. Its module is the text before the first dot. -/
def protocolNamed? (i : Inventory) (fullName : String) : Option TypeSurface := do
  let moduleName ← (NamedType.splitModule fullName).map Prod.fst
  (← i.module? moduleName).protocols.get? fullName

end Inventory

end SwiftSurface
