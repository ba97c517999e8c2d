import SwiftSurface.Declaration.Basic

/-!
# Sample declarations

Builders for the declarations of a class that an image typically exports, all at offset zero.
-/

namespace SwiftSurface.Sample

/-- A function of the class `module.type`. -/
def function (module type name mangledName : String) (signature : Signature) : FunctionDecl :=
  { module, owner := some ⟨module, [type], .classType⟩, name, mangledName, offset := 0, signature }

/-- The type of the class. -/
def classType (module type : String) : TypeExpr :=
  .named (module ++ "." ++ type)

/-- A constructor without arguments. -/
def constructor (module type name mangledName : String) : FunctionDecl :=
  function module type name mangledName (.constructor name .unit (classType module type) false)

/-- The accessor of the type's metadata. -/
def classConstructor (module type mangledName : String) : FunctionDecl :=
  function module type "metadata accessor" mangledName
    (.classConstructor (.named "Swift.AnyObject"))

/-- A method without arguments and result. -/
def method (module type name mangledName : String) : FunctionDecl :=
  function module type name mangledName (.uncurried (classType module type) .unit .unit false)

/-- A static function without arguments and result, or its thunk. -/
def staticFunction (module type name mangledName : String) (isThunk : Bool) : FunctionDecl :=
  function module type name mangledName
    (.static { parameters := .unit, returns := .unit, throws := false, isThunk })

/-- An accessor of an integer property. -/
def propertyAccessor (module type name mangledName : String) (accessor : AccessorKind) :
    FunctionDecl :=
  function module type name mangledName (.property { accessor, ofType := .named "Swift.Int" })

/-- A protocol witness table. -/
def witnessTable (module type mangledName : String) : FunctionDecl :=
  function module type "protocol witness table" mangledName (.witnessTable .conformance none)

/-- A record about the class. -/
def metadataRecord (module type mangledName : String) : MetadataRecord :=
  { module, owner := ⟨module, [type], .classType⟩, mangledName, offset := 0 }

end SwiftSurface.Sample
