import SwiftSurface.Inventory.Filing
import SwiftSurface.Table

/-!
# Properties and their accessors

A `PropertyEntry` has a slot for each accessor of a property, and a second one for each accessor
that came as the descriptor of a method. Every slot is written once. A `PropertyTable` holds the
entries of one group of properties by their names.
-/

namespace SwiftSurface

/-! ## Accessor tables -/

/-- A slot for each accessor. -/
structure AccessorTable where
  getter : Option FunctionDecl := none
  setter : Option FunctionDecl := none
  materializer : Option FunctionDecl := none
  willSet : Option FunctionDecl := none
  didSet : Option FunctionDecl := none
  modify : Option FunctionDecl := none
deriving DecidableEq

namespace AccessorTable

/-- What the slot of this accessor holds. -/
def get (t : AccessorTable) : AccessorKind → Option FunctionDecl
  | .getter => t.getter
  | .setter => t.setter
  | .materializer => t.materializer
  | .willSet => t.willSet
  | .didSet => t.didSet
  | .modify => t.modify

/-- Writes the slot of this accessor. -/
def set (t : AccessorTable) (kind : AccessorKind) (f : FunctionDecl) : AccessorTable :=
  match kind with
  | .getter => { t with getter := some f }
  | .setter => { t with setter := some f }
  | .materializer => { t with materializer := some f }
  | .willSet => { t with willSet := some f }
  | .didSet => { t with didSet := some f }
  | .modify => { t with modify := some f }

/-- The accessors that are there, in the order of their kinds. -/
def filled (t : AccessorTable) : List (AccessorKind × FunctionDecl) :=
  AccessorKind.all.filterMap fun kind => (t.get kind).map (kind, ·)

theorem get_set (t : AccessorTable) (kind other : AccessorKind) (f : FunctionDecl) :
    (t.set kind f).get other = if kind = other then some f else t.get other := by
  cases kind <;> cases other <;> rfl

end AccessorTable

/-! ## Property entries -/

/-- The accessors of one property. -/
structure PropertyEntry where
  /-- The full name of the type that has the property. -/
  owner : String
  name : String
  accessors : AccessorTable := {}
  descriptors : AccessorTable := {}
deriving DecidableEq

namespace PropertyEntry

/-- Files `f` in the slot of this accessor, of the table for descriptors or of the other one. -/
def add (r : PropertyEntry) (f : FunctionDecl) (kind : AccessorKind) (isDescriptor : Bool) :
    Filed PropertyEntry :=
  if isDescriptor then
    match r.descriptors.get kind with
    | some _ =>
      .refused r { slot := .accessorDescriptor kind, owner := r.owner, member := some r.name }
    | none =>
      Filed.following { after := { r with descriptors := r.descriptors.set kind f } }
        (.accessor (.accessorDescriptor kind) r.name r.owner f.mangledName)
  else
    match r.accessors.get kind with
    | some _ => .refused r { slot := .accessor kind, owner := r.owner, member := some r.name }
    | none =>
      Filed.following { after := { r with accessors := r.accessors.set kind f } }
        (.accessor (.accessor kind) r.name r.owner f.mangledName)

/-- The type of the property: what the getter says, or else the first accessor that says one. -/
def valueType? (r : PropertyEntry) : Option TypeExpr :=
  let said (f : FunctionDecl) : Option TypeExpr := f.signature.property?.map (·.ofType)
  (r.accessors.getter.bind said).or (r.accessors.filled.findSome? fun (_, f) => said f)

end PropertyEntry

/-! ## Property tables -/

/-- Property entries by name. -/
structure PropertyTable where
  entries : Table String PropertyEntry
deriving DecidableEq

namespace PropertyTable

/-- The table without properties. -/
def empty : PropertyTable :=
  ⟨.empty⟩

/-- Files an accessor in the entry of its name, which is made if it is not there. -/
def add (t : PropertyTable) (f : FunctionDecl) (kind : AccessorKind) (isDescriptor : Bool) :
    Filed PropertyTable :=
  let r := (t.entries.get? f.name).getD { owner := f.ownerName, name := f.name }
  (r.add f kind isDescriptor).within fun r => ⟨t.entries.insert f.name r⟩

/-- The entry of this name. -/
def get? (t : PropertyTable) (name : String) : Option PropertyEntry :=
  t.entries.get? name

end PropertyTable

end SwiftSurface
