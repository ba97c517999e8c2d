import SwiftSurface.Declaration.Signature
import SwiftSurface.Text

/-!
# Declarations

What the decoder makes of one exported symbol. Every declaration has a module, the mangled name that
identifies it, and its offset in the image; most have the nominal type that owns them.
-/

namespace SwiftSurface

/-! ## The kinds of declarations -/

/-- A function, accessor or other function-like symbol. -/
structure FunctionDecl where
  module : String
  owner : Option NominalName
  name : String
  mangledName : String
  offset : UInt64
  signature : Signature
deriving DecidableEq

/-- A variable, or the descriptor of a property. -/
structure VariableDecl where
  module : String
  owner : Option NominalName
  name : String
  mangledName : String
  offset : UInt64
  ofType : TypeExpr
  isStatic : Bool
deriving DecidableEq

/-- A record that the runtime keeps about a nominal type. -/
structure MetadataRecord where
  module : String
  owner : NominalName
  mangledName : String
  offset : UInt64
deriving DecidableEq

/-- The conformance of a nominal type to a protocol. -/
structure ConformanceDecl where
  module : String
  owner : NominalName
  conformsTo : NominalName
  mangledName : String
  offset : UInt64
deriving DecidableEq

/-- The four records that the runtime keeps about a type, each at most once. -/
inductive RecordKind where
  | directMetadata
  | lazyCacheVariable
  | metaclass
  | nominalTypeDescriptor
deriving DecidableEq

/-- A decoded declaration. -/
inductive Declaration where
  | function (f : FunctionDecl)
  | methodDescriptor (f : FunctionDecl)
  | variable (v : VariableDecl)
  | propertyDescriptor (v : VariableDecl)
  | record (kind : RecordKind) (r : MetadataRecord)
  | conformance (c : ConformanceDecl)
deriving DecidableEq

/-! ## Functions -/

namespace FunctionDecl

/-- The full name of the owner, or the module of a function without one. -/
def ownerName (f : FunctionDecl) : String :=
  match f.owner with
  | some owner => owner.fullName
  | none => f.module

/-- Is this the thunk of a static function? -/
def isThunk (f : FunctionDecl) : Bool :=
  f.signature.static?.any (·.isThunk)

/-- Are the two the static function and its thunk: the same owner and name, and signatures of which
one is the thunk of the other? -/
def isCounterpartOf (f g : FunctionDecl) : Bool :=
  match f.signature, g.signature with
  | .static a, .static b => f.owner = g.owner && f.name == g.name && a.pairsWith b
  | _, _ => false

/-- Has the compiler hidden the name, which it marks by three dots? -/
def isHidden (f : FunctionDecl) : Bool :=
  Text.contains f.name "..."

/-- Are the two the same declaration, types compared as types? -/
def same (f g : FunctionDecl) : Bool :=
  { f with signature := f.signature.erase } = { g with signature := g.signature.erase }

end FunctionDecl

/-! ## What all declarations have -/

namespace Declaration

/-- The module of the declaration. -/
def module : Declaration → String
  | .function f | .methodDescriptor f => f.module
  | .variable v | .propertyDescriptor v => v.module
  | .record _ r => r.module
  | .conformance c => c.module

/-- The mangled name, which identifies the declaration. -/
def mangledName : Declaration → String
  | .function f | .methodDescriptor f => f.mangledName
  | .variable v | .propertyDescriptor v => v.mangledName
  | .record _ r => r.mangledName
  | .conformance c => c.mangledName

/-- The offset of the symbol in the image. -/
def offset : Declaration → UInt64
  | .function f | .methodDescriptor f => f.offset
  | .variable v | .propertyDescriptor v => v.offset
  | .record _ r => r.offset
  | .conformance c => c.offset

/-- The same declaration at another offset. -/
def withOffset (d : Declaration) (offset : UInt64) : Declaration :=
  match d with
  | .function f => .function { f with offset }
  | .methodDescriptor f => .methodDescriptor { f with offset }
  | .variable v => .variable { v with offset }
  | .propertyDescriptor v => .propertyDescriptor { v with offset }
  | .record kind r => .record kind { r with offset }
  | .conformance c => .conformance { c with offset }

/-- The nominal type that owns the declaration. -/
def owner : Declaration → Option NominalName
  | .function f | .methodDescriptor f => f.owner
  | .variable v | .propertyDescriptor v => v.owner
  | .record _ r => some r.owner
  | .conformance c => some c.owner

/-- The unqualified name of a declared member. -/
def name? : Declaration → Option String
  | .function f | .methodDescriptor f => some f.name
  | .variable v | .propertyDescriptor v => some v.name
  | .record _ _ | .conformance _ => none

/-- The function, if this declares one or describes a method. -/
def function? : Declaration → Option FunctionDecl
  | .function f | .methodDescriptor f => some f
  | _ => none

end Declaration

end SwiftSurface
