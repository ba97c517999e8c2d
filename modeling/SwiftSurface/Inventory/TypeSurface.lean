import SwiftSurface.Inventory.Properties
import SwiftSurface.Inventory.Thunks
import SwiftSurface.Inventory.Variables
import SwiftSurface.Inventory.Witnesses

/-!
# The contents of a nominal type

`TypeSurface` holds what an image exports for one class, struct, enum or protocol, and
`TypeSurface.add` files a declaration in exactly one place of it: a function by its `Destination`,
any other declaration by its kind.
-/

namespace SwiftSurface

/-- Everything that an image exports for one nominal type. -/
structure TypeSurface where
  name : NominalName
  constructors : FunctionTable := .empty
  classConstructor : Option FunctionDecl := none
  destructors : FunctionTable := .empty
  properties : PropertyTable := .empty
  staticProperties : PropertyTable := .empty
  privateProperties : PropertyTable := .empty
  staticPrivateProperties : PropertyTable := .empty
  subscripts : List FunctionDecl := []
  privateSubscripts : List FunctionDecl := []
  methods : FunctionTable := .empty
  methodDescriptors : FunctionTable := .empty
  staticFunctions : FunctionTable := .empty
  witnessTable : WitnessTable := .empty
  initializers : FunctionTable := .empty
  storedVariables : VariableTable := .empty
  propertyDescriptors : List VariableDecl := []
  conformances : List ConformanceDecl := []
  directMetadata : Option MetadataRecord := none
  lazyCacheVariable : Option MetadataRecord := none
  metaclass : Option MetadataRecord := none
  nominalTypeDescriptor : Option MetadataRecord := none
  functionsOfUnknownDestination : List FunctionDecl := []
deriving DecidableEq

namespace TypeSurface

/-- The contents of a type before anything is filed. -/
def empty (name : NominalName) : TypeSurface :=
  { name }

/-! ## Groups of properties and record slots -/

/-- The properties of this group. -/
def group (c : TypeSurface) : PropertyGroup → PropertyTable
  | .instances => c.properties
  | .privates => c.privateProperties
  | .statics => c.staticProperties
  | .staticPrivates => c.staticPrivateProperties

/-- The contents with these properties in this group. -/
def withGroup (c : TypeSurface) (group : PropertyGroup) (properties : PropertyTable) :
    TypeSurface :=
  match group with
  | .instances => { c with properties }
  | .privates => { c with privateProperties := properties }
  | .statics => { c with staticProperties := properties }
  | .staticPrivates => { c with staticPrivateProperties := properties }

/-- The record of this kind. -/
def record? (c : TypeSurface) : RecordKind → Option MetadataRecord
  | .directMetadata => c.directMetadata
  | .lazyCacheVariable => c.lazyCacheVariable
  | .metaclass => c.metaclass
  | .nominalTypeDescriptor => c.nominalTypeDescriptor

/-- The contents with this record in the slot of its kind. -/
def withRecord (c : TypeSurface) (kind : RecordKind) (r : MetadataRecord) : TypeSurface :=
  match kind with
  | .directMetadata => { c with directMetadata := some r }
  | .lazyCacheVariable => { c with lazyCacheVariable := some r }
  | .metaclass => { c with metaclass := some r }
  | .nominalTypeDescriptor => { c with nominalTypeDescriptor := some r }

/-! ## Filing -/

/-- The refusal of a declaration for a slot of the type itself. -/
def slotTaken (c : TypeSurface) (slot : Slot) : SlotTaken :=
  { slot, owner := c.name.fullName, member := none }

/-- Files a record in the slot of its kind, if that is free. -/
def addRecord (c : TypeSurface) (kind : RecordKind) (r : MetadataRecord) : Filed TypeSurface :=
  match c.record? kind with
  | some _ => .refused c (c.slotTaken (.record kind))
  | none => { after := c.withRecord kind r }

/-- Files the accessor of the type's metadata, if its slot is free. -/
def addClassConstructor (c : TypeSurface) (f : FunctionDecl) : Filed TypeSurface :=
  match c.classConstructor with
  | some _ => .refused c (c.slotTaken .classConstructor)
  | none => { after := { c with classConstructor := some f } }

/-- Keeps a function that has no known destination. -/
def addUnknown (c : TypeSurface) (f : FunctionDecl) : TypeSurface :=
  { c with functionsOfUnknownDestination := c.functionsOfUnknownDestination ++ [f] }

/-- Files a function at this destination. -/
def addAt (c : TypeSurface) (f : FunctionDecl) (isDescriptor : Bool) :
    Destination → Filed TypeSurface
  | .constructors => (c.constructors.add f).within fun constructors => { c with constructors }
  | .classConstructor => c.addClassConstructor f
  | .destructors => (c.destructors.add f).within fun destructors => { c with destructors }
  | .subscripts true => { after := { c with privateSubscripts := c.privateSubscripts ++ [f] } }
  | .subscripts false => { after := { c with subscripts := c.subscripts ++ [f] } }
  | .property group accessor =>
    ((c.group group).add f accessor isDescriptor).within (c.withGroup group)
  | .methods => (c.methods.add f).within fun methods => { c with methods }
  | .methodDescriptors =>
    (c.methodDescriptors.add f).within fun methodDescriptors => { c with methodDescriptors }
  | .staticFunctions =>
    (c.staticFunctions.addStatic f).within fun staticFunctions => { c with staticFunctions }
  | .witnessTable =>
    match c.witnessTable.add? f with
    | some witnessTable => { after := { c with witnessTable } }
    | none => { after := c.addUnknown f }
  | .initializers => (c.initializers.add f).within fun initializers => { c with initializers }
  | .unknown => { after := c.addUnknown f }

/-- Files a function, which is the descriptor of a method or not. -/
def addFunction (c : TypeSurface) (f : FunctionDecl) (isDescriptor : Bool) : Filed TypeSurface :=
  let destination := Destination.of c.name f isDescriptor
  (c.addAt f isDescriptor destination).following
    (.routed c.name.fullName f.mangledName destination)

/-- Files a declaration. -/
def add (c : TypeSurface) : Declaration → Filed TypeSurface
  | .function f => c.addFunction f false
  | .methodDescriptor f => c.addFunction f true
  | .record kind r => c.addRecord kind r
  | .variable v => { after := { c with storedVariables := c.storedVariables.add v } }
  | .propertyDescriptor v =>
    { after := { c with propertyDescriptors := c.propertyDescriptors ++ [v] } }
  | .conformance d => { after := { c with conformances := c.conformances ++ [d] } }

/-! ## Questions -/

/-- The rest of a mangled name after its mangling mark, the first three bytes. There is none if the
name is shorter or a character straddles the third byte. -/
def dropMark : Nat → List Char → Option (List Char)
  | 0, s => some s
  | _ + 1, [] => none
  | bytes + 1, c :: rest =>
    if c.utf8Size ≤ bytes + 1 then dropMark (bytes + 1 - c.utf8Size) rest else none

/-- Can no other function take the place of `f`? One can if a witness table refers to `f`: the
mangled name of a symbol in it ends with that of `f` without the mangling mark. -/
def isFinal (c : TypeSurface) (f : FunctionDecl) : Bool :=
  match dropMark 3 f.mangledName.toList with
  | none | some [] => true
  | some ending => !c.witnessTable.mangledNames.any fun name => ending.isSuffixOf name.toList

/-- The entries of this name in the groups of properties, in the order of the groups. -/
def propertiesNamed (c : TypeSurface) (name : String) : List PropertyEntry :=
  PropertyGroup.all.filterMap fun group => (c.group group).get? name

end TypeSurface

end SwiftSurface
