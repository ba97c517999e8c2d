import SwiftSurface.Declaration.Basic

/-!
# Where the contents of a type hold a function

`Destination.of` routes a function declaration by the shape of its signature. The rules are tried in
order and the first that applies decides:

1. a constructor with the member name of one;
2. the accessor of the type's metadata;
3. a destructor with the member name of one;
4. an accessor of a subscript, or else of a property, by its being static and private;
5. a method uncurried over the owner;
6. a static function;
7. a symbol of a witness table;
8. an initializer;
9. anything else has no known destination.
-/

namespace SwiftSurface

/-- The four groups of properties of a type. -/
inductive PropertyGroup where
  | instances
  | privates
  | statics
  | staticPrivates
deriving DecidableEq

namespace PropertyGroup

/-- The group of a property with these flags. -/
def of (isStatic isPrivate : Bool) : PropertyGroup :=
  match isStatic, isPrivate with
  | false, false => .instances
  | false, true => .privates
  | true, false => .statics
  | true, true => .staticPrivates

/-- The groups, in the order in which a name is looked up in them. -/
def all : List PropertyGroup :=
  [.instances, .privates, .statics, .staticPrivates]

/-- The name of the group. -/
def tag : PropertyGroup → String
  | .instances => "Instance"
  | .privates => "Private"
  | .statics => "Static"
  | .staticPrivates => "StaticPrivate"

end PropertyGroup

/-- A place for function declarations in the contents of a type. -/
inductive Destination where
  | constructors
  | classConstructor
  | destructors
  | subscripts (isPrivate : Bool)
  | property (group : PropertyGroup) (accessor : AccessorKind)
  | methods
  | methodDescriptors
  | staticFunctions
  | witnessTable
  | initializers
  | unknown
deriving DecidableEq

namespace Destination

/-- Where the contents of `owner` hold `f`, which is the descriptor of a method or not. -/
def of (owner : NominalName) (f : FunctionDecl) (isDescriptor : Bool) : Destination :=
  match f.signature with
  | .constructor name _ _ _ =>
    if Signature.constructorNames.contains name then .constructors else .unknown
  | .classConstructor _ => .classConstructor
  | .destructor name =>
    if Signature.destructorNames.contains name then .destructors else .unknown
  | .property s =>
    if s.isSubscript then .subscripts s.isPrivate
    else .property (.of s.isStatic s.isPrivate) s.accessor
  | .uncurried .. =>
    if f.signature.isMethodOf owner then
      if isDescriptor then .methodDescriptors else .methods
    else .unknown
  | .static _ => .staticFunctions
  | .witnessTable _ _ => .witnessTable
  | .initializer _ _ => .initializers

/-- The destination with what it depends on. -/
def render : Destination → String
  | constructors => "Constructors"
  | classConstructor => "ClassConstructor"
  | destructors => "Destructors"
  | subscripts isPrivate =>
    "Subscripts \x7b is_private: " ++ (if isPrivate then "true" else "false") ++ " \x7d"
  | property group accessor =>
    "Property \x7b bucket: " ++ group.tag ++ ", accessor: " ++ accessor.tag ++ " \x7d"
  | methods => "Methods"
  | methodDescriptors => "MethodDescriptors"
  | staticFunctions => "StaticFunctions"
  | witnessTable => "WitnessTable"
  | initializers => "Initializers"
  | unknown => "Unknown"

end Destination

end SwiftSurface
