import SwiftSurface.Document.Declaration
import SwiftSurface.Inventory.Basic

/-!
# The serialized form of inventories

A table is a record with its keys as the names of the fields. A table of accessors has a field for
each accessor, whether it is there or not.
-/

namespace SwiftSurface

open Document

/-! ## Tables -/

/-- Keys of tables as names of fields. -/
class SerialKey (κ : Type) where
  toName : κ → String
  ofName : String → Option κ

instance : SerialKey String where
  toName := id
  ofName := some

instance : SerialKey WitnessKind where
  toName := WitnessKind.tag
  ofName name := WitnessKind.all.find? (·.tag == name)

instance : SerialKey AccessorKind where
  toName := AccessorKind.tag
  ofName name := AccessorKind.all.find? (·.tag == name)

/-- The fields of a record with their names read as keys. -/
def Document.entriesOf {κ α : Type} [SerialKey κ] [Serial α] (fields : List (String × Document)) :
    Option (List (κ × α)) :=
  fields.mapM fun (name, value) => do return (← SerialKey.ofName name, ← decode value)

instance {κ α : Type} [Ord κ] [Std.TransOrd κ] [SerialKey κ] [Serial α] : Serial (Table κ α) where
  encode t := .record (t.entries.map fun (key, value) => (SerialKey.toName key, encode value))
  decode
    | .record fields => (entriesOf fields).map Table.ofList
    | _ => none

instance : Serial AccessorTable where
  encode t := .record (AccessorKind.all.map fun kind => (kind.tag, encode (t.get kind)))
  decode
    | .record fields => do
      let entries : List (AccessorKind × Option FunctionDecl) ← entriesOf fields
      let slot (kind : AccessorKind) : Option (Option FunctionDecl) :=
        (entries.find? fun entry => entry.1 = kind).map Prod.snd
      return {
        getter := ← slot .getter
        setter := ← slot .setter
        materializer := ← slot .materializer
        willSet := ← slot .willSet
        didSet := ← slot .didSet
        modify := ← slot .modify }
    | _ => none

/-! ## Collections -/

instance : Serial OverloadSet where
  encode set := .record [("name", encode set.name), ("functions", encode set.functions)]
  decode document :=
    match document.fields? ["name", "functions"] with
    | some [name, functions] => do
      return { name := ← required decode name, functions := ← required decode functions }
    | _ => none

instance : Serial FunctionTable where
  encode t := .record [("overloads", encode t.overloads)]
  decode document :=
    match document.fields? ["overloads"] with
    | some [overloads] => (required decode overloads).map FunctionTable.mk
    | _ => none

instance : Serial PropertyEntry where
  encode r := .record
    [("owner", encode r.owner), ("name", encode r.name), ("accessors", encode r.accessors),
      ("descriptors", encode r.descriptors)]
  decode document :=
    match document.fields? ["owner", "name", "accessors", "descriptors"] with
    | some [owner, name, accessors, descriptors] => do
      return {
        owner := ← required decode owner
        name := ← required decode name
        accessors := ← required decode accessors
        descriptors := ← required decode descriptors }
    | _ => none

instance : Serial PropertyTable where
  encode t := .record [("records", encode t.entries)]
  decode document :=
    match document.fields? ["records"] with
    | some [entries] => (required decode entries).map PropertyTable.mk
    | _ => none

instance : Serial WitnessTable where
  encode t := .record [("entries", encode t.groups)]
  decode document :=
    match document.fields? ["entries"] with
    | some [groups] => (required decode groups).map WitnessTable.mk
    | _ => none

instance : Serial VariableTable where
  encode t := .record [("variables", encode t.groups)]
  decode document :=
    match document.fields? ["variables"] with
    | some [groups] => (required decode groups).map VariableTable.mk
    | _ => none

/-! ## Types, modules and inventories -/

instance : Serial TypeSurface where
  encode c := .record
    [("name", encode c.name), ("constructors", encode c.constructors),
      ("class_constructor", encode c.classConstructor), ("destructors", encode c.destructors),
      ("properties", encode c.properties), ("static_properties", encode c.staticProperties),
      ("private_properties", encode c.privateProperties),
      ("static_private_properties", encode c.staticPrivateProperties),
      ("subscripts", encode c.subscripts), ("private_subscripts", encode c.privateSubscripts),
      ("methods", encode c.methods), ("method_descriptors", encode c.methodDescriptors),
      ("static_functions", encode c.staticFunctions), ("witness_table", encode c.witnessTable),
      ("initializers", encode c.initializers), ("variables", encode c.storedVariables),
      ("property_descriptors", encode c.propertyDescriptors),
      ("protocol_conformance_descriptors", encode c.conformances),
      ("direct_metadata", encode c.directMetadata),
      ("lazy_cache_variable", encode c.lazyCacheVariable), ("metaclass", encode c.metaclass),
      ("nominal_type_descriptor", encode c.nominalTypeDescriptor),
      ("functions_of_unknown_destination", encode c.functionsOfUnknownDestination)]
  decode document :=
    match document.fields?
      ["name", "constructors", "class_constructor", "destructors", "properties",
        "static_properties", "private_properties", "static_private_properties", "subscripts",
        "private_subscripts", "methods", "method_descriptors", "static_functions",
        "witness_table", "initializers", "variables", "property_descriptors",
        "protocol_conformance_descriptors", "direct_metadata", "lazy_cache_variable", "metaclass",
        "nominal_type_descriptor", "functions_of_unknown_destination"] with
    | some [name, constructors, classConstructor, destructors, properties, staticProperties,
        privateProperties, staticPrivateProperties, subscripts, privateSubscripts, methods,
        methodDescriptors, staticFunctions, witnessTable, initializers, storedVariables,
        propertyDescriptors, conformances, directMetadata, lazyCacheVariable, metaclass,
        nominalTypeDescriptor, functionsOfUnknownDestination] => do
      return {
        name := ← required decode name
        constructors := ← required decode constructors
        classConstructor := ← optional decode classConstructor
        destructors := ← required decode destructors
        properties := ← required decode properties
        staticProperties := ← required decode staticProperties
        privateProperties := ← required decode privateProperties
        staticPrivateProperties := ← required decode staticPrivateProperties
        subscripts := ← required decode subscripts
        privateSubscripts := ← required decode privateSubscripts
        methods := ← required decode methods
        methodDescriptors := ← required decode methodDescriptors
        staticFunctions := ← required decode staticFunctions
        witnessTable := ← required decode witnessTable
        initializers := ← required decode initializers
        storedVariables := ← required decode storedVariables
        propertyDescriptors := ← required decode propertyDescriptors
        conformances := ← required decode conformances
        directMetadata := ← optional decode directMetadata
        lazyCacheVariable := ← optional decode lazyCacheVariable
        metaclass := ← optional decode metaclass
        nominalTypeDescriptor := ← optional decode nominalTypeDescriptor
        functionsOfUnknownDestination := ← required decode functionsOfUnknownDestination }
    | _ => none

instance : Serial ModuleSurface where
  encode m := .record
    [("name", encode m.name), ("classes", encode m.classes), ("protocols", encode m.protocols),
      ("functions", encode m.functions), ("variables", encode m.storedVariables),
      ("definitions_of_unknown_destination", encode m.definitionsOfUnknownDestination)]
  decode document :=
    match document.fields? ["name", "classes", "protocols", "functions", "variables",
      "definitions_of_unknown_destination"] with
    | some [name, classes, protocols, functions, storedVariables, definitions] => do
      return {
        name := ← required decode name
        classes := ← required decode classes
        protocols := ← required decode protocols
        functions := ← required decode functions
        storedVariables := ← required decode storedVariables
        definitionsOfUnknownDestination := ← required decode definitions }
    | _ => none

instance : Serial Architecture where
  encode
    | .x86_64 => .text "X86_64"
    | .arm64 => .text "Arm64"
    | .i386 => .text "I386"
    | .arm => .text "Arm"
    | .unknown => .text "Unknown"
  decode := enumOf
    [("X86_64", .x86_64), ("Arm64", .arm64), ("I386", .i386), ("Arm", .arm),
      ("Unknown", .unknown)]

instance : Serial Inventory where
  encode i := .record [("architecture", encode i.architecture), ("modules", encode i.modules)]
  decode document :=
    match document.fields? ["architecture", "modules"] with
    | some [architecture, modules] => do
      return {
        architecture := ← required decode architecture
        modules := ← required decode modules }
    | _ => none

end SwiftSurface
