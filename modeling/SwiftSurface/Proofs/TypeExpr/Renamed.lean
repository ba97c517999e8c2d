import SwiftSurface.Proofs.TypeExpr.Normal

/-!
# Renaming

`TypeExpr.renamed f g` gives every named type of an expression a new name with `f` and puts new
constituents into its compositions with `g`. Everything else stays: the forms of the nodes, their
decorations and the parts they have.
-/

namespace SwiftSurface

variable (f : String → String) (g : List NamedType → List NamedType)

mutual

/-- The expression with the names of its named types and the constituents of its compositions
replaced. -/
def TypeExpr.renamed : TypeExpr → TypeExpr
  | ⟨shape, generics, attributes, isInout, label⟩ =>
    ⟨shape.renamed, TypeExpr.renamedAll generics, attributes, isInout, label⟩
termination_by structural t => t

/-- The shape with its names replaced. -/
def Shape.renamed : Shape → Shape
  | .named ⟨name, none⟩ => .named ⟨f name, none⟩
  | .named ⟨name, some inner⟩ => .named ⟨f name, some inner.renamed⟩
  | .tuple elements => .tuple (TypeExpr.renamedAll elements)
  | .closure arguments returns throws => .closure arguments.renamed returns.renamed throws
  | .composition constituents => .composition (g constituents)
termination_by structural shape => shape

/-- Replaces the names in each type of a list. -/
def TypeExpr.renamedAll : List TypeExpr → List TypeExpr
  | [] => []
  | t :: rest => t.renamed :: TypeExpr.renamedAll rest
termination_by structural types => types

end

theorem TypeExpr.renamedAll_eq_map (types : List TypeExpr) :
    renamedAll f g types = types.map (renamed f g) := by
  induction types with
  | nil => rfl
  | cons t rest ih => simp [renamedAll, ih]

theorem TypeExpr.renamed_mk (shape : Shape) (generics : List TypeExpr)
    (attributes : List Attribute) (isInout : Bool) (label : Option String) :
    renamed f g ⟨shape, generics, attributes, isInout, label⟩ =
      ⟨shape.renamed f g, generics.map (renamed f g), attributes, isInout, label⟩ := by
  rw [renamed, renamedAll_eq_map]

theorem TypeExpr.label_renamed (t : TypeExpr) : (t.renamed f g).label = t.label := by
  cases t
  rfl

namespace Shape

theorem renamed_named (type : NamedType) :
    (named type).renamed f g = .named ⟨f type.name, type.inner.map (TypeExpr.renamed f g)⟩ := by
  obtain ⟨name, _ | inner⟩ := type <;> rfl

theorem renamed_tuple (elements : List TypeExpr) :
    (tuple elements).renamed f g = .tuple (elements.map (TypeExpr.renamed f g)) := by
  rw [renamed, TypeExpr.renamedAll_eq_map]

theorem kind_renamed (shape : Shape) : (shape.renamed f g).kind = shape.kind := by
  cases shape with
  | named type => rw [renamed_named]; rfl
  | _ => rfl

end Shape

namespace TypeExpr

theorem kind_renamed (t : TypeExpr) : (t.renamed f g).kind = t.kind := by
  obtain ⟨shape, generics, attributes, isInout, label⟩ := t
  exact shape.kind_renamed f g

theorem needsParentheses_renamed (t : TypeExpr) :
    (t.renamed f g).needsParentheses = t.needsParentheses := by
  rw [needsParentheses, kind_renamed]
  cases t
  rfl

theorem asArguments_renamed (t : TypeExpr) :
    (t.renamed f g).asArguments = t.asArguments.map (renamed f g) := by
  obtain ⟨shape, generics, attributes, isInout, label⟩ := t
  cases shape with
  | tuple elements => exact renamedAll_eq_map f g elements
  | named type =>
      obtain ⟨name, _ | inner⟩ := type <;> rfl
  | _ => rfl

variable {f g}

/-- The parts of a renamed expression are renamed parts, as long as the new constituents have no
inner types. -/
theorem exists_of_mem_children_renamed
    (hg : ∀ types, ∀ type ∈ g types, type.inner = none) {t u : TypeExpr}
    (hu : u ∈ (t.renamed f g).children) : ∃ v ∈ t.children, v.renamed f g = u := by
  obtain ⟨shape, generics, attributes, isInout, label⟩ := t
  have hshape : ∀ u ∈ (shape.renamed f g).children, ∃ v ∈ shape.children, v.renamed f g = u := by
    cases shape with
    | named type =>
        rw [Shape.renamed_named]
        simp [Shape.children]
    | tuple elements =>
        rw [Shape.renamed_tuple]
        simp [Shape.children]
    | closure arguments returns throws => simp [Shape.renamed, Shape.children]
    | composition constituents =>
        have hnone : (g constituents).filterMap (·.inner) = [] :=
          List.filterMap_eq_nil_iff.2 (hg constituents)
        simp [Shape.renamed, Shape.children, hnone]
  rw [renamed_mk] at hu
  rcases List.mem_append.1 hu with hu | hu
  · obtain ⟨v, hv, rfl⟩ := List.mem_map.1 hu
    exact ⟨v, List.mem_append_left _ hv, rfl⟩
  · obtain ⟨v, hv, rfl⟩ := hshape u hu
    exact ⟨v, List.mem_append_right _ hv, rfl⟩

/-- A property of all nodes, carried over to the renamed expression. -/
theorem Everywhere.renamed {p q : TypeExpr → Prop} {t : TypeExpr} (h : t.Everywhere p)
    (hg : ∀ types, ∀ type ∈ g types, type.inner = none) (hpq : ∀ u, p u → q (u.renamed f g)) :
    (t.renamed f g).Everywhere q := by
  induction h with
  | @node t here children ih =>
      refine .node (hpq t here) fun u hu => ?_
      obtain ⟨v, hv, rfl⟩ := exists_of_mem_children_renamed hg hu
      exact ih v hv

end TypeExpr

end SwiftSurface
