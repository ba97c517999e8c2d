import SwiftSurface.Declaration.Basic
import SwiftSurface.Document.TypeExpr

/-!
# The serialized form of declarations

A declaration is a variant with its kind as the name; so is a signature. A static signature is read
with a bound on the depth of its document, since its thunk holds a static signature again.
-/

namespace SwiftSurface

open Document

/-! ## Kinds and names -/

instance : Serial NominalKind where
  encode
    | .classType => .text "Class"
    | .structType => .text "Struct"
    | .enumType => .text "Enum"
    | .protocolType => .text "Protocol"
  decode := enumOf
    [("Class", .classType), ("Struct", .structType), ("Enum", .enumType),
      ("Protocol", .protocolType)]

instance : Serial NominalName where
  encode n := .record
    [("module", encode n.module), ("path", encode n.path), ("kind", encode n.kind)]
  decode document :=
    match document.fields? ["module", "path", "kind"] with
    | some [module, path, kind] => do
      return {
        module := ← required decode module
        path := ← required decode path
        kind := ← required decode kind }
    | _ => none

instance : Serial AccessorKind where
  encode kind := .text kind.tag
  decode := enumOf (AccessorKind.all.map fun kind => (kind.tag, kind))

instance : Serial WitnessKind where
  encode kind := .text kind.tag
  decode := enumOf (WitnessKind.all.map fun kind => (kind.tag, kind))

instance : Serial InitializerKind where
  encode
    | .variable => .text "Variable"
  decode := enumOf [("Variable", .variable)]

/-! ## Signatures -/

instance : Serial PropertySignature where
  encode s := .record
    [("accessor", encode s.accessor), ("of_type", encode s.ofType),
      ("subscript_parameters", encode s.subscriptParameters),
      ("is_subscript", encode s.isSubscript), ("is_static", encode s.isStatic),
      ("is_private", encode s.isPrivate)]
  decode document :=
    match document.fields? ["accessor", "of_type", "subscript_parameters", "is_subscript",
      "is_static", "is_private"] with
    | some [accessor, ofType, subscriptParameters, isSubscript, isStatic, isPrivate] => do
      return {
        accessor := ← required decode accessor
        ofType := ← required decode ofType
        subscriptParameters := ← required decode subscriptParameters
        isSubscript := ← required decode isSubscript
        isStatic := ← required decode isStatic
        isPrivate := ← required decode isPrivate }
    | _ => none

/-- Writes a static signature as a document. -/
def StaticSignature.toDocument : StaticSignature → Document
  | ⟨parameters, returns, throws, isThunk, none⟩ =>
    .record
      [("parameters", encode parameters), ("returns", encode returns), ("throws", encode throws),
        ("is_thunk", encode isThunk), ("thunk", .null)]
  | ⟨parameters, returns, throws, isThunk, some ⟨mangledName, offset, signature⟩⟩ =>
    .record
      [("parameters", encode parameters), ("returns", encode returns), ("throws", encode throws),
        ("is_thunk", encode isThunk),
        ("thunk", .record
          [("mangled_name", encode mangledName), ("offset", encode offset),
            ("signature", signature.toDocument)])]
termination_by structural s => s

/-- Reads a thunk, its signature with `signature`. -/
def Thunk.ofDocument (signature : Document → Option StaticSignature) (document : Document) :
    Option Thunk :=
  match document.fields? ["mangled_name", "offset", "signature"] with
  | some [mangledName, offset, signatureField] => do
    return {
      mangledName := ← required decode mangledName
      offset := ← required decode offset
      signature := ← required signature signatureField }
  | _ => none

/-- Reads a static signature of at most this depth. -/
def StaticSignature.ofDocumentWithin : Nat → Document → Option StaticSignature
  | 0, _ => none
  | bound + 1, document =>
    match document.fields? ["parameters", "returns", "throws", "is_thunk", "thunk"] with
    | some [parameters, returns, throws, isThunk, thunk] => do
      return {
        parameters := ← required decode parameters
        returns := ← required decode returns
        throws := ← required decode throws
        isThunk := ← required decode isThunk
        thunk := ← optional (Thunk.ofDocument (ofDocumentWithin bound)) thunk }
    | _ => none

instance : Serial StaticSignature where
  encode := StaticSignature.toDocument
  decode document := StaticSignature.ofDocumentWithin document.depth document

instance : Serial Signature where
  encode
    | .constructor name parameters returns throws =>
      tagged "Constructor" (.record
        [("name", encode name), ("parameters", encode parameters), ("returns", encode returns),
          ("throws", encode throws)])
    | .classConstructor returns =>
      tagged "ClassConstructor" (.record [("returns", encode returns)])
    | .destructor name => tagged "Destructor" (.record [("name", encode name)])
    | .property signature => tagged "Property" (encode signature)
    | .uncurried receiver parameters returns throws =>
      tagged "UncurriedFunction" (.record
        [("instance", encode receiver), ("parameters", encode parameters),
          ("returns", encode returns), ("throws", encode throws)])
    | .static signature => tagged "StaticFunction" (encode signature)
    | .witnessTable kind conformsTo =>
      tagged "WitnessTable" (.record [("kind", encode kind), ("protocol", encode conformsTo)])
    | .initializer kind ofType =>
      tagged "Initializer" (.record [("kind", encode kind), ("of_type", encode ofType)])
  decode document :=
    match document.variant? with
    | some ("Constructor", some content) =>
      match content.members? ["name", "parameters", "returns", "throws"] with
      | some [name, parameters, returns, throws] => do
        return .constructor (← required decode name) (← required decode parameters)
          (← required decode returns) (← required decode throws)
      | _ => none
    | some ("ClassConstructor", some content) =>
      match content.members? ["returns"] with
      | some [returns] => (required decode returns).map .classConstructor
      | _ => none
    | some ("Destructor", some content) =>
      match content.members? ["name"] with
      | some [name] => (required decode name).map .destructor
      | _ => none
    | some ("Property", some content) => (decode content).map .property
    | some ("UncurriedFunction", some content) =>
      match content.members? ["instance", "parameters", "returns", "throws"] with
      | some [receiver, parameters, returns, throws] => do
        return .uncurried (← required decode receiver) (← required decode parameters)
          (← required decode returns) (← required decode throws)
      | _ => none
    | some ("StaticFunction", some content) => (decode content).map .static
    | some ("WitnessTable", some content) =>
      match content.members? ["kind", "protocol"] with
      | some [kind, conformsTo] => do
        return .witnessTable (← required decode kind) (← optional decode conformsTo)
      | _ => none
    | some ("Initializer", some content) =>
      match content.members? ["kind", "of_type"] with
      | some [kind, ofType] => do
        return .initializer (← required decode kind) (← required decode ofType)
      | _ => none
    | _ => none

/-! ## Declarations -/

instance : Serial FunctionDecl where
  encode f := .record
    [("module", encode f.module), ("owner", encode f.owner), ("name", encode f.name),
      ("mangled_name", encode f.mangledName), ("offset", encode f.offset),
      ("signature", encode f.signature)]
  decode document :=
    match document.fields? ["module", "owner", "name", "mangled_name", "offset", "signature"] with
    | some [module, owner, name, mangledName, offset, signature] => do
      return {
        module := ← required decode module
        owner := ← optional decode owner
        name := ← required decode name
        mangledName := ← required decode mangledName
        offset := ← required decode offset
        signature := ← required decode signature }
    | _ => none

instance : Serial VariableDecl where
  encode v := .record
    [("module", encode v.module), ("owner", encode v.owner), ("name", encode v.name),
      ("mangled_name", encode v.mangledName), ("offset", encode v.offset),
      ("of_type", encode v.ofType), ("is_static", encode v.isStatic)]
  decode document :=
    match document.fields? ["module", "owner", "name", "mangled_name", "offset", "of_type",
      "is_static"] with
    | some [module, owner, name, mangledName, offset, ofType, isStatic] => do
      return {
        module := ← required decode module
        owner := ← optional decode owner
        name := ← required decode name
        mangledName := ← required decode mangledName
        offset := ← required decode offset
        ofType := ← required decode ofType
        isStatic := ← required decode isStatic }
    | _ => none

instance : Serial MetadataRecord where
  encode r := .record
    [("module", encode r.module), ("owner", encode r.owner),
      ("mangled_name", encode r.mangledName), ("offset", encode r.offset)]
  decode document :=
    match document.fields? ["module", "owner", "mangled_name", "offset"] with
    | some [module, owner, mangledName, offset] => do
      return {
        module := ← required decode module
        owner := ← required decode owner
        mangledName := ← required decode mangledName
        offset := ← required decode offset }
    | _ => none

instance : Serial ConformanceDecl where
  encode c := .record
    [("module", encode c.module), ("owner", encode c.owner), ("protocol", encode c.conformsTo),
      ("mangled_name", encode c.mangledName), ("offset", encode c.offset)]
  decode document :=
    match document.fields? ["module", "owner", "protocol", "mangled_name", "offset"] with
    | some [module, owner, conformsTo, mangledName, offset] => do
      return {
        module := ← required decode module
        owner := ← required decode owner
        conformsTo := ← required decode conformsTo
        mangledName := ← required decode mangledName
        offset := ← required decode offset }
    | _ => none

instance : Serial Declaration where
  encode
    | .function f => tagged "Function" (encode f)
    | .methodDescriptor f => tagged "MethodDescriptor" (encode f)
    | .variable v => tagged "Variable" (encode v)
    | .propertyDescriptor v => tagged "PropertyDescriptor" (encode v)
    | .record .directMetadata r => tagged "DirectMetadata" (encode r)
    | .record .lazyCacheVariable r => tagged "LazyCacheVariable" (encode r)
    | .record .metaclass r => tagged "Metaclass" (encode r)
    | .record .nominalTypeDescriptor r => tagged "NominalTypeDescriptor" (encode r)
    | .conformance c => tagged "ProtocolConformanceDescriptor" (encode c)
  decode document :=
    match document.variant? with
    | some ("Function", some content) => (decode content).map .function
    | some ("MethodDescriptor", some content) => (decode content).map .methodDescriptor
    | some ("Variable", some content) => (decode content).map .variable
    | some ("PropertyDescriptor", some content) => (decode content).map .propertyDescriptor
    | some ("DirectMetadata", some content) => (decode content).map (.record .directMetadata)
    | some ("LazyCacheVariable", some content) => (decode content).map (.record .lazyCacheVariable)
    | some ("Metaclass", some content) => (decode content).map (.record .metaclass)
    | some ("NominalTypeDescriptor", some content) =>
      (decode content).map (.record .nominalTypeDescriptor)
    | some ("ProtocolConformanceDescriptor", some content) => (decode content).map .conformance
    | _ => none

end SwiftSurface
