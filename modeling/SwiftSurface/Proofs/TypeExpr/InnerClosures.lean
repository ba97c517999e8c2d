import Mathlib.Logic.Relation
import SwiftSurface.Proofs.TypeExpr.Normal

/-!
# Closures below the root

`TypeExpr.holdsInnerClosure` searches the generic arguments of named types and the elements of
tuples, and it stops at a closure. What it does not search are the parts of the root if that is a
closure, and inner types wherever they stand. A closure below the root is one that is found or one
that is overlooked in such a part (`hasClosureBelow_iff`), so the answer is right for the types in
which another closure is found if one is overlooked (`holdsInnerClosure_complete_iff`).
-/

namespace SwiftSurface.TypeExpr

open Relation

/-! ## Parts that are searched -/

/-- The parts in which closures are searched. -/
def searched (t : TypeExpr) : List TypeExpr :=
  match t.shape with
  | .named _ => t.generics
  | .tuple elements => elements
  | .closure _ _ _ | .composition _ => []

/-- The parts in which closures are not searched. -/
def unsearched (t : TypeExpr) : List TypeExpr :=
  match t.shape with
  | .named type => type.inner.toList
  | .tuple _ => t.generics
  | .closure _ _ _ | .composition _ => t.children

/-- The second expression is a searched part of the first one. -/
def Searches (t u : TypeExpr) : Prop :=
  u ∈ t.searched

/-- A closure is in the expression, at the root or below. -/
def HasClosure (t : TypeExpr) : Prop :=
  ∃ u, Within u t ∧ u.kind = .closure

/-- A closure is below the root of the expression, at any depth and in any part. -/
def HasClosureBelow (t : TypeExpr) : Prop :=
  ∃ part ∈ t.children, part.HasClosure

/-- The search comes to a node that has a closure in a part which is not searched. -/
def Overlooks (t : TypeExpr) : Prop :=
  ∃ node, ReflTransGen Searches t node ∧ ∃ part ∈ node.unsearched, part.HasClosure

/-- Each part of the node is searched, unless the node is itself a closure. -/
def SearchedNode (t : TypeExpr) : Prop :=
  t.kind ≠ .closure → t.unsearched = []

variable {t u : TypeExpr}

theorem mem_children_iff : u ∈ t.children ↔ u ∈ t.searched ∨ u ∈ t.unsearched := by
  obtain ⟨shape, generics, attributes, isInout, label⟩ := t
  cases shape with
  | named type => simp [children, Shape.children, searched, unsearched]
  | tuple elements => simp [children, Shape.children, searched, unsearched, or_comm]
  | closure arguments returns throws => simp [searched, unsearched]
  | composition constituents => simp [searched, unsearched]

theorem Searches.mem_children (h : Searches t u) : u ∈ t.children :=
  mem_children_iff.2 (.inl h)

/-- What a search comes to is the root or comes up from a searched part. -/
theorem exists_search_iff {p : TypeExpr → Prop} : (∃ u, ReflTransGen Searches t u ∧ p u) ↔
    p t ∨ ∃ part, Searches t part ∧ ∃ u, ReflTransGen Searches part u ∧ p u := by
  constructor
  · rintro ⟨u, hu, hp⟩
    obtain rfl | ⟨part, hpart, hu⟩ := hu.cases_head
    · exact .inl hp
    · exact .inr ⟨part, hpart, u, hu, hp⟩
  · rintro (hp | ⟨part, hpart, u, hu, hp⟩)
    · exact ⟨t, .refl, hp⟩
    · exact ⟨u, .head hpart hu, hp⟩

/-! ## What is found -/

theorem anyHoldsClosure_iff (types : List TypeExpr) :
    anyHoldsClosure types ↔ ∃ t ∈ types, t.holdsClosure := by
  induction types with
  | nil => simp [anyHoldsClosure]
  | cons t types ih => simp [anyHoldsClosure, ih]

theorem holdsClosure_node (t : TypeExpr) :
    t.holdsClosure ↔ t.kind = .closure ∨ ∃ part, Searches t part ∧ part.holdsClosure := by
  obtain ⟨shape, generics, attributes, isInout, label⟩ := t
  cases shape <;>
    simp [holdsClosure, kind, Shape.kind, Searches, searched, anyHoldsClosure_iff]

/-- A closure is found if the search comes to it. -/
theorem holdsClosure_iff (t : TypeExpr) :
    t.holdsClosure ↔ ∃ u, ReflTransGen Searches t u ∧ u.kind = .closure := by
  induction t using induction_on_children with
  | node t ih =>
      rw [holdsClosure_node, exists_search_iff]
      exact or_congr_right <| exists_congr fun part =>
        and_congr_right fun h => ih part h.mem_children

theorem holdsInnerClosure_node (t : TypeExpr) :
    t.holdsInnerClosure ↔ ∃ part, Searches t part ∧ part.holdsClosure := by
  obtain ⟨shape, generics, attributes, isInout, label⟩ := t
  cases shape <;>
    simp [holdsInnerClosure, holdsClosure, kind, Shape.kind, Searches, searched,
      anyHoldsClosure_iff]

/-- A closure is found below the root if the search comes to it from there. -/
theorem holdsInnerClosure_iff (t : TypeExpr) :
    t.holdsInnerClosure ↔ ∃ u, TransGen Searches t u ∧ u.kind = .closure := by
  simp only [holdsInnerClosure_node, holdsClosure_iff, TransGen.head'_iff]
  grind

/-! ## What is overlooked -/

theorem overlooks_node (t : TypeExpr) : t.Overlooks ↔
    (∃ part ∈ t.unsearched, part.HasClosure) ∨ ∃ part, Searches t part ∧ part.Overlooks :=
  exists_search_iff

theorem hasClosure_node (t : TypeExpr) :
    t.HasClosure ↔ t.kind = .closure ∨ t.HasClosureBelow := by
  constructor
  · rintro ⟨u, hu, hclosure⟩
    rcases within_iff.1 hu with rfl | ⟨part, hpart, hu⟩
    · exact .inl hclosure
    · exact .inr ⟨part, hpart, u, hu, hclosure⟩
  · rintro (hclosure | ⟨part, hpart, u, hu, hclosure⟩)
    · exact ⟨t, .root t, hclosure⟩
    · exact ⟨u, within_iff.2 (.inr ⟨part, hpart, hu⟩), hclosure⟩

/-- A closure below the root is found or overlooked, if one in the parts is. -/
theorem hasClosureBelow_of_parts
    (h : ∀ part ∈ t.children, part.HasClosure ↔ part.holdsClosure ∨ part.Overlooks) :
    t.HasClosureBelow ↔ t.holdsInnerClosure ∨ t.Overlooks := by
  have hsearched : (∃ part, Searches t part ∧ part.HasClosure) ↔
      t.holdsInnerClosure ∨ ∃ part, Searches t part ∧ part.Overlooks := by
    rw [holdsInnerClosure_node, ← exists_or]
    refine exists_congr fun part => ?_
    rw [← and_or_left]
    exact and_congr_right fun hpart => h part hpart.mem_children
  calc t.HasClosureBelow
      ↔ (∃ part, Searches t part ∧ part.HasClosure) ∨
          ∃ part ∈ t.unsearched, part.HasClosure := by
        simp only [HasClosureBelow, mem_children_iff, or_and_right, exists_or, Searches]
    _ ↔ t.holdsInnerClosure ∨ t.Overlooks := by
        rw [hsearched, or_assoc, overlooks_node, or_comm (b := ∃ part ∈ t.unsearched, _)]

/-- A closure in an expression, at the root or below, is found or overlooked. -/
theorem hasClosure_iff (t : TypeExpr) : t.HasClosure ↔ t.holdsClosure ∨ t.Overlooks := by
  induction t using induction_on_children with
  | node t ih =>
      rw [hasClosure_node, hasClosureBelow_of_parts ih, holdsClosure_node, holdsInnerClosure_node,
        or_assoc]

/-- A closure below the root is found or overlooked. -/
theorem hasClosureBelow_iff (t : TypeExpr) :
    t.HasClosureBelow ↔ t.holdsInnerClosure ∨ t.Overlooks :=
  hasClosureBelow_of_parts fun part _ => hasClosure_iff part

/-- If all parts but those of closures are searched, one overlooks a closure in a closure only. -/
theorem Overlooks.holdsClosure (h : t.Overlooks) (ht : t.Everywhere SearchedNode) :
    t.holdsClosure := by
  obtain ⟨node, hnode, part, hpart, -⟩ := h
  induction hnode using ReflTransGen.head_induction_on with
  | refl =>
      have hkind : node.kind = .closure := by
        by_cases hkind : node.kind = .closure
        · exact hkind
        · exact absurd hpart (by simp [ht.here hkind])
      exact (holdsClosure_iff node).2 ⟨node, .refl, hkind⟩
  | head hsearched _ ih =>
      have hholds := ih (ht.child _ hsearched.mem_children)
      exact (holdsClosure_node _).2 (.inr ⟨_, hsearched, hholds⟩)

/-- The closures that are found are those below the root in generic arguments of named types and in
elements of tuples. These and the overlooked ones are all, so the answer tells whether any closure
is below the root if and only if one is found where one is overlooked. So it does if the root is no
closure and all parts but those of closures are searched. -/
theorem holdsInnerClosure_complete_iff (t : TypeExpr) :
    (t.holdsInnerClosure ↔ ∃ u, TransGen Searches t u ∧ u.kind = .closure) ∧
    (t.HasClosureBelow ↔ t.holdsInnerClosure ∨ t.Overlooks) ∧
    ((t.holdsInnerClosure ↔ t.HasClosureBelow) ↔ (t.Overlooks → t.holdsInnerClosure)) ∧
    (t.kind ≠ .closure → t.Everywhere SearchedNode →
      (t.holdsInnerClosure ↔ t.HasClosureBelow)) := by
  have hexact : (t.holdsInnerClosure ↔ t.HasClosureBelow) ↔
      (t.Overlooks → t.holdsInnerClosure) := by
    rw [hasClosureBelow_iff]
    exact iff_comm.trans or_iff_left_iff_imp
  refine ⟨holdsInnerClosure_iff t, hasClosureBelow_iff t, hexact, fun hroot hsearched => ?_⟩
  refine hexact.2 fun hoverlooks => ?_
  simp [holdsInnerClosure, hroot, hoverlooks.holdsClosure hsearched]

theorem holdsInnerClosure_complete_iff_optional :
    let t := generic "Swift.Optional" [closure unit unit true]
    t.kind ≠ .closure ∧ t.Everywhere SearchedNode ∧ t.holdsInnerClosure ∧ t.HasClosureBelow := by
  intro t
  have hunit : unit.Everywhere SearchedNode := .node (fun _ => rfl) (fun _ hu => nomatch hu)
  have hclosure : (closure unit unit true).Everywhere SearchedNode := by
    refine .node (fun h => absurd rfl h) fun u hu => ?_
    obtain rfl : u = unit := by simpa [children, Shape.children, closure, ofShape] using hu
    exact hunit
  have hsearched : t.Everywhere SearchedNode := by
    refine .node (fun _ => rfl) fun u hu => ?_
    obtain rfl := List.eq_of_mem_singleton hu
    exact hclosure
  have hkind : t.kind ≠ .closure := by decide
  have hfound : t.holdsInnerClosure := by decide
  obtain ⟨-, -, -, hcomplete⟩ := holdsInnerClosure_complete_iff t
  exact ⟨hkind, hsearched, hfound, (hcomplete hkind hsearched).1 hfound⟩

/-- A closure in the argument of a closure is overlooked, and one in an inner type. -/
example : (parse "(A -> B) -> C").map (·.holdsInnerClosure) = some false ∧
    (parse "A<B>.C<D -> E>").map (·.holdsInnerClosure) = some false := by
  decide +kernel

end SwiftSurface.TypeExpr
