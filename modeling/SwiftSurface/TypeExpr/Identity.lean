import SwiftSurface.TypeExpr.Basic

/-!
# When two type expressions denote the same type

Labels and attributes do not tell types apart, and neither does writing a closure's only argument
with or without parentheses. `TypeExpr.erase` drops these differences, and two expressions denote
the same type (`TypeExpr.same`) when they are equal after it.

The coarser `TypeExpr.sameUpToModule` also forgets module qualifiers, for comparison with a
declaration whose module is not known. Dropping the qualifiers may reorder the constituents of a
composition, so `TypeExpr.unqualify` sorts them again.
-/

namespace SwiftSurface

/-! ## Decidable equality of trees -/

mutual

/-- Decides whether two type expressions are the same tree. -/
def TypeExpr.decEq : (a b : TypeExpr) → Decidable (a = b)
  | ⟨s₁, g₁, a₁, i₁, l₁⟩, ⟨s₂, g₂, a₂, i₂, l₂⟩ =>
    match Shape.decEq s₁ s₂, TypeExpr.decEqAll g₁ g₂, decEq (a₁, i₁, l₁) (a₂, i₂, l₂) with
    | isTrue hs, isTrue hg, isTrue hd => isTrue (by simp_all)
    | isFalse h, _, _ => isFalse (by simp_all)
    | _, isFalse h, _ => isFalse (by simp_all)
    | _, _, isFalse h => isFalse (by simp_all)
termination_by structural a => a

/-- Decides whether two shapes are the same. -/
def Shape.decEq : (a b : Shape) → Decidable (a = b)
  | .named ⟨n₁, none⟩, .named ⟨n₂, none⟩ =>
    if h : n₁ = n₂ then isTrue (by simp_all) else isFalse (by simp_all)
  | .named ⟨n₁, some t₁⟩, .named ⟨n₂, some t₂⟩ =>
    match TypeExpr.decEq t₁ t₂ with
    | isTrue ht => if h : n₁ = n₂ then isTrue (by simp_all) else isFalse (by simp_all)
    | isFalse ht => isFalse (by simp_all)
  | .named ⟨_, none⟩, .named ⟨_, some _⟩ => isFalse (by simp)
  | .named ⟨_, some _⟩, .named ⟨_, none⟩ => isFalse (by simp)
  | .tuple t₁, .tuple t₂ =>
    match TypeExpr.decEqAll t₁ t₂ with
    | isTrue h => isTrue (by simp_all)
    | isFalse h => isFalse (by simp_all)
  | .closure a₁ r₁ t₁, .closure a₂ r₂ t₂ =>
    match TypeExpr.decEq a₁ a₂, TypeExpr.decEq r₁ r₂, decEq t₁ t₂ with
    | isTrue ha, isTrue hr, isTrue ht => isTrue (by simp_all)
    | isFalse h, _, _ => isFalse (by simp_all)
    | _, isFalse h, _ => isFalse (by simp_all)
    | _, _, isFalse h => isFalse (by simp_all)
  | .composition c₁, .composition c₂ =>
    match Shape.decEqConstituents c₁ c₂ with
    | isTrue h => isTrue (by simp_all)
    | isFalse h => isFalse (by simp_all)
  | .named _, .tuple _ | .named _, .closure _ _ _ | .named _, .composition _ => isFalse (by simp)
  | .tuple _, .named _ | .tuple _, .closure _ _ _ | .tuple _, .composition _ => isFalse (by simp)
  | .closure _ _ _, .named _ | .closure _ _ _, .tuple _ | .closure _ _ _, .composition _ =>
    isFalse (by simp)
  | .composition _, .named _ | .composition _, .tuple _ | .composition _, .closure _ _ _ =>
    isFalse (by simp)
termination_by structural a => a

/-- Decides whether two lists hold the same type expressions. -/
def TypeExpr.decEqAll : (a b : List TypeExpr) → Decidable (a = b)
  | [], [] => isTrue rfl
  | [], _ :: _ => isFalse (by simp)
  | _ :: _, [] => isFalse (by simp)
  | t₁ :: r₁, t₂ :: r₂ =>
    match TypeExpr.decEq t₁ t₂, TypeExpr.decEqAll r₁ r₂ with
    | isTrue ht, isTrue hr => isTrue (by simp_all)
    | isFalse h, _ => isFalse (by simp_all)
    | _, isFalse h => isFalse (by simp_all)
termination_by structural a => a

/-- Decides whether two lists hold the same constituents. -/
def Shape.decEqConstituents : (a b : List NamedType) → Decidable (a = b)
  | [], [] => isTrue rfl
  | [], _ :: _ => isFalse (by simp)
  | _ :: _, [] => isFalse (by simp)
  | ⟨n₁, none⟩ :: r₁, ⟨n₂, none⟩ :: r₂ =>
    match decEq n₁ n₂, Shape.decEqConstituents r₁ r₂ with
    | isTrue hn, isTrue hr => isTrue (by simp_all)
    | isFalse h, _ => isFalse (by simp_all)
    | _, isFalse h => isFalse (by simp_all)
  | ⟨n₁, some t₁⟩ :: r₁, ⟨n₂, some t₂⟩ :: r₂ =>
    match TypeExpr.decEq t₁ t₂, decEq n₁ n₂, Shape.decEqConstituents r₁ r₂ with
    | isTrue ht, isTrue hn, isTrue hr => isTrue (by simp_all)
    | isFalse h, _, _ => isFalse (by simp_all)
    | _, isFalse h, _ => isFalse (by simp_all)
    | _, _, isFalse h => isFalse (by simp_all)
  | ⟨_, none⟩ :: _, ⟨_, some _⟩ :: _ => isFalse (by simp)
  | ⟨_, some _⟩ :: _, ⟨_, none⟩ :: _ => isFalse (by simp)
termination_by structural a => a

end

instance : DecidableEq TypeExpr := TypeExpr.decEq

/-! ## What tells types apart -/

mutual

/-- The expression without labels and attributes, at every node, and with every closure argument a
plain tuple of the arguments. -/
def TypeExpr.erase : TypeExpr → TypeExpr
  | ⟨shape, generics, _, isInout, _⟩ => ⟨shape.erase, TypeExpr.eraseAll generics, [], isInout, none⟩
termination_by structural t => t

/-- The shape with its parts erased. -/
def Shape.erase : Shape → Shape
  | .named ⟨name, none⟩ => .named ⟨name, none⟩
  | .named ⟨name, some inner⟩ => .named ⟨name, some inner.erase⟩
  | .tuple elements => .tuple (TypeExpr.eraseAll elements)
  | .closure ⟨.tuple elements, _, _, _, _⟩ returns throws =>
    .closure (.tuple (TypeExpr.eraseAll elements)) returns.erase throws
  | .closure argument returns throws => .closure (.tuple [argument.erase]) returns.erase throws
  | .composition constituents => .composition (Shape.eraseConstituents constituents)
termination_by structural shape => shape

/-- Erases each type of a list. -/
def TypeExpr.eraseAll : List TypeExpr → List TypeExpr
  | [] => []
  | t :: rest => t.erase :: TypeExpr.eraseAll rest
termination_by structural types => types

/-- Erases the inner types of constituents. -/
def Shape.eraseConstituents : List NamedType → List NamedType
  | [] => []
  | ⟨name, none⟩ :: rest => ⟨name, none⟩ :: Shape.eraseConstituents rest
  | ⟨name, some inner⟩ :: rest => ⟨name, some inner.erase⟩ :: Shape.eraseConstituents rest
termination_by structural constituents => constituents

end

/-- Puts a constituent before the first one whose name is not smaller. -/
def NamedType.insertStably (type : NamedType) : List NamedType → List NamedType
  | [] => [type]
  | head :: rest =>
    if compare type.name head.name = .gt then head :: NamedType.insertStably type rest
    else type :: head :: rest

/-- Sorts by name; constituents of one name keep their order. -/
def NamedType.sortStably (types : List NamedType) : List NamedType :=
  types.foldr NamedType.insertStably []

mutual

/-- The expression with every name stripped of its module qualifier, inner types included. -/
def TypeExpr.unqualify : TypeExpr → TypeExpr
  | ⟨shape, generics, attributes, isInout, label⟩ =>
    ⟨shape.unqualify, TypeExpr.unqualifyAll generics, attributes, isInout, label⟩
termination_by structural t => t

/-- The shape with its names stripped. -/
def Shape.unqualify : Shape → Shape
  | .named ⟨name, none⟩ => .named ⟨NamedType.unqualifiedName name, none⟩
  | .named ⟨name, some inner⟩ => .named ⟨NamedType.unqualifiedName name, some inner.unqualify⟩
  | .tuple elements => .tuple (TypeExpr.unqualifyAll elements)
  | .closure arguments returns throws => .closure arguments.unqualify returns.unqualify throws
  | .composition constituents =>
    .composition (NamedType.sortStably (Shape.unqualifyConstituents constituents))
termination_by structural shape => shape

/-- Strips the names in each type of a list. -/
def TypeExpr.unqualifyAll : List TypeExpr → List TypeExpr
  | [] => []
  | t :: rest => t.unqualify :: TypeExpr.unqualifyAll rest
termination_by structural types => types

/-- Strips the names of constituents. -/
def Shape.unqualifyConstituents : List NamedType → List NamedType
  | [] => []
  | ⟨name, none⟩ :: rest =>
    ⟨NamedType.unqualifiedName name, none⟩ :: Shape.unqualifyConstituents rest
  | ⟨name, some inner⟩ :: rest =>
    ⟨NamedType.unqualifiedName name, some inner.unqualify⟩ :: Shape.unqualifyConstituents rest
termination_by structural constituents => constituents

end

/-! ## The two comparisons -/

namespace TypeExpr

/-- Do the two expressions denote the same type? -/
def same (a b : TypeExpr) : Bool :=
  a.erase = b.erase

/-- Do the two expressions denote the same type once module qualifiers are dropped? -/
def sameUpToModule (a b : TypeExpr) : Bool :=
  a.erase.unqualify = b.erase.unqualify

end TypeExpr

end SwiftSurface
