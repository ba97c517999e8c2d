import SwiftSurface.Declaration.Nominal
import SwiftSurface.TypeExpr.Identity

/-!
# Signatures of functions

What a decoded function-like symbol is: a constructor, an accessor of a property, a method uncurried
over its receiver, a static function, an entry of a witness table and so on. A static function may
carry its thunk, the function that adapts the calling convention for it.
-/

namespace SwiftSurface

/-! ## Kinds -/

/-- The accessors of a property. -/
inductive AccessorKind where
  | getter
  | setter
  | materializer
  | willSet
  | didSet
  | modify
deriving DecidableEq

namespace AccessorKind

/-- The accessors in their order. -/
def all : List AccessorKind :=
  [.getter, .setter, .materializer, .willSet, .didSet, .modify]

/-- The accessor as a word of running text. -/
def render : AccessorKind → String
  | .getter => "getter"
  | .setter => "setter"
  | .materializer => "materializer"
  | .willSet => "willSet"
  | .didSet => "didSet"
  | .modify => "modify"

/-- The name of the accessor's variant. -/
def tag : AccessorKind → String
  | .getter => "Getter"
  | .setter => "Setter"
  | .materializer => "Materializer"
  | .willSet => "WillSet"
  | .didSet => "DidSet"
  | .modify => "ModifyAccessor"

end AccessorKind

/-- The kinds of symbols that make up witness tables. -/
inductive WitnessKind where
  | value
  | conformance
  | accessor
  | lazyAccessor
  | lazyCacheVariable
deriving DecidableEq

namespace WitnessKind

/-- The kinds in their order. -/
def all : List WitnessKind :=
  [.value, .conformance, .accessor, .lazyAccessor, .lazyCacheVariable]

/-- The place of the kind in the order. -/
def rank : WitnessKind → Nat
  | .value => 0
  | .conformance => 1
  | .accessor => 2
  | .lazyAccessor => 3
  | .lazyCacheVariable => 4

/-- The name of the kind. -/
def tag : WitnessKind → String
  | .value => "Value"
  | .conformance => "Protocol"
  | .accessor => "ProtocolAccessor"
  | .lazyAccessor => "LazyProtocolAccessor"
  | .lazyCacheVariable => "LazyProtocolCacheVariable"

instance : Ord WitnessKind where
  compare a b := compare a.rank b.rank

theorem compare_eq (a b : WitnessKind) : compare a b = compare a.rank b.rank := rfl

theorem rank_injective {a b : WitnessKind} (same : a.rank = b.rank) : a = b := by
  cases a <;> cases b <;> simp_all [rank]

instance : Std.TransOrd WitnessKind where
  eq_swap := by simp only [compare_eq]; exact Std.OrientedCmp.eq_swap
  isLE_trans := by simp only [compare_eq]; exact Std.TransCmp.isLE_trans

instance : Std.LawfulEqOrd WitnessKind where
  compare_self := by simp only [compare_eq]; exact Std.ReflCmp.compare_self
  eq_of_compare := by
    simp only [compare_eq]
    exact fun same => rank_injective (Std.LawfulEqCmp.eq_of_compare same)

end WitnessKind

/-- What an initializer symbol initializes. -/
inductive InitializerKind where
  | variable
deriving DecidableEq

/-! ## Signatures -/

/-- The signature of an accessor of a property or subscript. -/
structure PropertySignature where
  accessor : AccessorKind
  ofType : TypeExpr
  subscriptParameters : List TypeExpr := []
  isSubscript : Bool := false
  isStatic : Bool := false
  isPrivate : Bool := false
deriving DecidableEq

mutual

/-- The signature of a static function. A function that is no thunk may carry the thunk linked to
it. -/
structure StaticSignature where
  parameters : TypeExpr
  returns : TypeExpr
  throws : Bool
  isThunk : Bool := false
  thunk : Option Thunk := none

/-- A thunk as its canonical function carries it. -/
structure Thunk where
  mangledName : String
  offset : UInt64
  signature : StaticSignature

end

/-- The signature of a function-like symbol. -/
inductive Signature where
  /-- A constructor; `name` tells whether it allocates. -/
  | constructor (name : String) (parameters returns : TypeExpr) (throws : Bool)
  /-- The accessor of a type's metadata. -/
  | classConstructor (returns : TypeExpr)
  /-- A destructor; `name` tells whether it deallocates. -/
  | destructor (name : String)
  /-- An accessor of a property or subscript. -/
  | property (signature : PropertySignature)
  /-- A method, as a function of its receiver. -/
  | uncurried (receiver parameters returns : TypeExpr) (throws : Bool)
  /-- A static function. -/
  | static (signature : StaticSignature)
  /-- A symbol of a witness table. -/
  | witnessTable (kind : WitnessKind) (conformsTo : Option NominalName)
  /-- A symbol that initializes a variable. -/
  | initializer (kind : InitializerKind) (ofType : TypeExpr)

/-! ## Decidable equality -/

/-- Decides whether two static signatures are the same, thunks included. -/
def StaticSignature.decEq : (a b : StaticSignature) → Decidable (a = b)
  | ⟨p₁, r₁, t₁, i₁, none⟩, ⟨p₂, r₂, t₂, i₂, none⟩ =>
    if h : (p₁, r₁, t₁, i₁) = (p₂, r₂, t₂, i₂) then isTrue (by simp_all) else isFalse (by simp_all)
  | ⟨p₁, r₁, t₁, i₁, some ⟨m₁, o₁, s₁⟩⟩, ⟨p₂, r₂, t₂, i₂, some ⟨m₂, o₂, s₂⟩⟩ =>
    match StaticSignature.decEq s₁ s₂ with
    | isTrue _ =>
      if h : (p₁, r₁, t₁, i₁, m₁, o₁) = (p₂, r₂, t₂, i₂, m₂, o₂) then isTrue (by simp_all)
      else isFalse (by simp_all)
    | isFalse h => isFalse (by simp_all)
  | ⟨_, _, _, _, none⟩, ⟨_, _, _, _, some _⟩ => isFalse (by simp)
  | ⟨_, _, _, _, some _⟩, ⟨_, _, _, _, none⟩ => isFalse (by simp)
termination_by structural a => a

instance : DecidableEq StaticSignature := StaticSignature.decEq

instance : DecidableEq Thunk
  | ⟨m₁, o₁, s₁⟩, ⟨m₂, o₂, s₂⟩ =>
    decidable_of_iff ((m₁, o₁, s₁) = (m₂, o₂, s₂)) (by simp)

deriving instance DecidableEq for Signature

/-! ## What tells signatures apart -/

/-- The signature with its types erased. -/
def PropertySignature.erase (s : PropertySignature) : PropertySignature :=
  { s with
    ofType := s.ofType.erase
    subscriptParameters := s.subscriptParameters.map TypeExpr.erase }

/-- The signature with its types erased, in its thunk too. -/
def StaticSignature.erase : StaticSignature → StaticSignature
  | ⟨parameters, returns, throws, isThunk, none⟩ =>
    ⟨parameters.erase, returns.erase, throws, isThunk, none⟩
  | ⟨parameters, returns, throws, isThunk, some ⟨mangledName, offset, signature⟩⟩ =>
    ⟨parameters.erase, returns.erase, throws, isThunk,
      some ⟨mangledName, offset, signature.erase⟩⟩
termination_by structural s => s

/-- The signature with its types erased. -/
def Signature.erase : Signature → Signature
  | .constructor name parameters returns throws =>
    .constructor name parameters.erase returns.erase throws
  | .classConstructor returns => .classConstructor returns.erase
  | .destructor name => .destructor name
  | .property signature => .property signature.erase
  | .uncurried receiver parameters returns throws =>
    .uncurried receiver.erase parameters.erase returns.erase throws
  | .static signature => .static signature.erase
  | .witnessTable kind conformsTo => .witnessTable kind conformsTo
  | .initializer kind ofType => .initializer kind ofType.erase

/-! ## Questions -/

namespace StaticSignature

/-- Is one of the two the thunk of the other: the same function, just one of them as a thunk? -/
def pairsWith (a b : StaticSignature) : Bool :=
  a.isThunk != b.isThunk && a.throws == b.throws && a.parameters.same b.parameters
    && a.returns.same b.returns

end StaticSignature

namespace Signature

/-- The member names of allocating and of non-allocating constructors. -/
def constructorNames : List String :=
  ["__allocating_init", "init"]

/-- The member names of deallocating and of non-deallocating destructors. -/
def destructorNames : List String :=
  ["__deallocating_deinit", "deinit"]

/-- The signature of a property accessor, if this is one. -/
def property? : Signature → Option PropertySignature
  | .property signature => some signature
  | _ => none

/-- The signature of a static function, if this is one. -/
def static? : Signature → Option StaticSignature
  | .static signature => some signature
  | _ => none

/-- Is this a method uncurried over a receiver of the type `owner`? -/
def isMethodOf (s : Signature) (owner : NominalName) : Bool :=
  match s with
  | .uncurried receiver _ _ _ => receiver.named?.any fun type => type.name == owner.fullName
  | _ => false

/-- The shape of the signature in one word. -/
def shapeName : Signature → String
  | .constructor .. => "constructor"
  | .classConstructor _ => "class_constructor"
  | .destructor _ => "destructor"
  | .property _ => "property"
  | .uncurried .. => "uncurried_function"
  | .static _ => "static_function"
  | .witnessTable .. => "witness_table"
  | .initializer .. => "initializer"

end Signature

end SwiftSurface
