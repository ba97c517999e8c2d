import SwiftSurface.Proofs.TypeExpr.Renamed
import SwiftSurface.Proofs.TypeExpr.Respelling

/-!
# The frame of an expression

The frame of an expression is what is left of its type without the names: the forms of its nodes
and their `inout` and `throws` marks. Expressions that are the same up to module qualifiers have one
frame (`TypeExpr.frame_eq_of_sameUpToModule`), so expressions of different frames are told apart by
either comparison.
-/

namespace SwiftSurface

/-- The expression with empty names and without the constituents of compositions. -/
def TypeExpr.nameless : TypeExpr → TypeExpr :=
  TypeExpr.renamed (fun _ => "") fun _ => []

/-- The shape with empty names. -/
def Shape.nameless : Shape → Shape :=
  Shape.renamed (fun _ => "") fun _ => []

/-- What is left of the type without the names. -/
def TypeExpr.frame (t : TypeExpr) : TypeExpr :=
  t.erase.nameless

/-- What is left of the shape without the names. -/
def Shape.frame (shape : Shape) : Shape :=
  shape.erase.nameless

/-! ## Node by node -/

theorem TypeExpr.frame_mk (shape : Shape) (generics : List TypeExpr) (attributes : List Attribute)
    (isInout : Bool) (label : Option String) :
    frame ⟨shape, generics, attributes, isInout, label⟩ =
      ⟨shape.frame, generics.map frame, [], isInout, none⟩ := by
  rw [frame, erase, nameless, renamed_mk, eraseAll_eq_map, List.map_map]
  rfl

namespace Shape

theorem frame_named (type : NamedType) :
    (named type).frame = .named ⟨"", type.inner.map TypeExpr.frame⟩ := by
  obtain ⟨name, _ | inner⟩ := type <;> rfl

theorem frame_tuple (elements : List TypeExpr) :
    (tuple elements).frame = .tuple (elements.map TypeExpr.frame) := by
  rw [frame, erase, nameless, renamed_tuple, TypeExpr.eraseAll_eq_map, List.map_map]
  rfl

/-- The frame of a closure is that of the function of its arguments. -/
theorem frame_closure (arguments returns : TypeExpr) (throws : Bool) :
    (closure arguments returns throws).frame =
      .closure (.tuple (arguments.asArguments.map TypeExpr.frame)) returns.frame throws := by
  rw [frame, erase_closure, nameless, renamed, TypeExpr.tuple, TypeExpr.ofShape,
    TypeExpr.renamed_mk, renamed_tuple, List.map_map]
  rfl

theorem frame_composition (constituents : List NamedType) :
    (composition constituents).frame = .composition [] := rfl

end Shape

/-- The frames of the arguments depend on the frame only. -/
theorem TypeExpr.map_frame_asArguments (t : TypeExpr) :
    t.asArguments.map frame = t.frame.asArguments := by
  rw [frame, nameless, asArguments_renamed, ← map_erase_asArguments, List.map_map]
  rfl

/-! ## Expressions of one frame -/

theorem TypeExpr.frame_eq_of_erase_eq {t u : TypeExpr} (h : t.erase = u.erase) :
    t.frame = u.frame :=
  congrArg nameless h

mutual

theorem TypeExpr.nameless_unqualify : (t : TypeExpr) → t.unqualify.nameless = t.nameless
  | ⟨shape, generics, attributes, isInout, label⟩ => by
    have hshape := Shape.nameless_unqualify shape
    rw [Shape.nameless] at hshape
    rw [TypeExpr.unqualify, TypeExpr.nameless, TypeExpr.renamed, TypeExpr.renamed, hshape,
      TypeExpr.nameless_unqualifyAll generics]
termination_by structural t => t

theorem Shape.nameless_unqualify : (shape : Shape) → shape.unqualify.nameless = shape.nameless
  | .named ⟨_, none⟩ => rfl
  | .named ⟨_, some inner⟩ =>
    congrArg (fun inner => Shape.named ⟨"", some inner⟩) (TypeExpr.nameless_unqualify inner)
  | .tuple elements => congrArg Shape.tuple (TypeExpr.nameless_unqualifyAll elements)
  | .closure arguments returns throws => by
    have harguments := TypeExpr.nameless_unqualify arguments
    have hreturns := TypeExpr.nameless_unqualify returns
    rw [TypeExpr.nameless] at harguments hreturns
    rw [Shape.unqualify, Shape.nameless, Shape.renamed, Shape.renamed, harguments, hreturns]
  | .composition _ => rfl
termination_by structural shape => shape

theorem TypeExpr.nameless_unqualifyAll : (types : List TypeExpr) →
    TypeExpr.renamedAll (fun _ => "") (fun _ => []) (TypeExpr.unqualifyAll types) =
      TypeExpr.renamedAll (fun _ => "") (fun _ => []) types
  | [] => rfl
  | t :: rest => by
    have ht := TypeExpr.nameless_unqualify t
    rw [TypeExpr.nameless] at ht
    rw [TypeExpr.unqualifyAll, TypeExpr.renamedAll, TypeExpr.renamedAll, ht,
      TypeExpr.nameless_unqualifyAll rest]
termination_by structural types => types

end

/-- Module qualifiers are no part of the frame. -/
theorem TypeExpr.frame_eq_of_sameUpToModule {t u : TypeExpr} (h : t.sameUpToModule u) :
    t.frame = u.frame := by
  have heq : t.erase.unqualify = u.erase.unqualify := by simpa [sameUpToModule] using h
  rw [frame, frame, ← nameless_unqualify t.erase, heq, nameless_unqualify]

/-- Names are no part of the frame. -/
theorem TypeExpr.frame_renamed (f : String → String) (g : List NamedType → List NamedType)
    (t : TypeExpr) : (t.renamed f g).frame = t.frame := by
  -- the frame of a closure is that of the elements of its argument
  suffices h : (t.renamed f g).frame = t.frame ∧
      t.asArguments.map (frame ∘ renamed f g) = t.asArguments.map frame from h.1
  induction t using induction_on_children with
  | node t ih =>
      have hnode : (t.renamed f g).frame = t.frame := by
        obtain ⟨shape, generics, attributes, isInout, label⟩ := t
        have hgenerics : ∀ u ∈ generics, (frame ∘ renamed f g) u = u.frame :=
          fun u hu => (ih u (List.mem_append_left _ hu)).1
        have hparts := fun u hu => ih u (List.mem_append_right _ hu)
        have hshape : (shape.renamed f g).frame = shape.frame := by
          cases shape with
          | named type =>
              obtain ⟨name, _ | inner⟩ := type
              · rfl
              · rw [Shape.renamed_named, Shape.frame_named, Shape.frame_named]
                simpa [Shape.children] using (hparts inner (by simp [Shape.children])).1
          | tuple elements =>
              rw [Shape.renamed_tuple, Shape.frame_tuple, Shape.frame_tuple, List.map_map]
              exact congrArg Shape.tuple (List.map_congr_left fun u hu => (hparts u hu).1)
          | closure arguments returns throws =>
              rw [Shape.renamed, Shape.frame_closure, Shape.frame_closure, asArguments_renamed,
                List.map_map, (hparts arguments (by simp [Shape.children])).2,
                (hparts returns (by simp [Shape.children])).1]
          | composition constituents => rfl
        rw [renamed_mk, frame_mk, frame_mk, hshape, List.map_map, List.map_congr_left hgenerics]
      refine ⟨hnode, ?_⟩
      by_cases hkind : t.kind = .tuple
      · obtain ⟨shape, generics, attributes, isInout, label⟩ := t
        cases shape with
        | tuple elements =>
            exact List.map_congr_left fun u hu => (ih u (List.mem_append_right _ hu)).1
        | _ => simp [kind, Shape.kind] at hkind
      · rw [asArguments_of_kind_ne hkind]
        exact congrArg (fun frame => [frame]) hnode

end SwiftSurface
