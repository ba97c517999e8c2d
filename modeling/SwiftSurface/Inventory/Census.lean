import SwiftSurface.Inventory.Basic

/-!
# Census: how much an inventory holds where

The number of declarations, or of property entries, in each place of a type or module, for
overviews.
-/

namespace SwiftSurface

/-- How many declarations a slot holds. -/
def slotCount {α : Type} (slot : Option α) : Nat :=
  if slot.isSome then 1 else 0

/-- The places of a type with the number of functions, records or other declarations there. -/
def TypeSurface.census (c : TypeSurface) : List (String × Nat) :=
  [("constructors", c.constructors.functionCount),
    ("class_constructor", slotCount c.classConstructor),
    ("destructors", c.destructors.functionCount), ("properties", c.properties.entries.size),
    ("static_properties", c.staticProperties.entries.size),
    ("private_properties", c.privateProperties.entries.size),
    ("static_private_properties", c.staticPrivateProperties.entries.size),
    ("subscripts", c.subscripts.length), ("private_subscripts", c.privateSubscripts.length),
    ("methods", c.methods.functionCount),
    ("method_descriptors", c.methodDescriptors.functionCount),
    ("static_functions", c.staticFunctions.functionCount),
    ("witness_table", c.witnessTable.all.length), ("initializers", c.initializers.functionCount),
    ("variables", c.storedVariables.all.length),
    ("property_descriptors", c.propertyDescriptors.length),
    ("protocol_conformance_descriptors", c.conformances.length),
    ("direct_metadata", slotCount c.directMetadata),
    ("lazy_cache_variable", slotCount c.lazyCacheVariable), ("metaclass", slotCount c.metaclass),
    ("nominal_type_descriptor", slotCount c.nominalTypeDescriptor),
    ("functions_of_unknown_destination", c.functionsOfUnknownDestination.length)]

/-- The places of a module with the number of types or declarations there. -/
def ModuleSurface.census (m : ModuleSurface) : List (String × Nat) :=
  [("classes", m.classes.size), ("protocols", m.protocols.size),
    ("functions", m.functions.functionCount), ("variables", m.storedVariables.all.length),
    ("unknown", m.definitionsOfUnknownDestination.length)]

end SwiftSurface
