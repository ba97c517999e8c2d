import SwiftSurface.Proofs.Grammar.Accepted

/-!
# The nodes of an accepted expression

`normal_of_parse` says of an accepted expression as a whole that it is normal. `parse_normalForm`
reads this off at any one of its nodes: where generic arguments, inner types and labels stand, and
what names, constituents and attributes are like.
-/

namespace SwiftSurface.TypeExpr

open Grammar SwiftSurface.Parser Text

/-! ## Nodes -/

variable {source : String} {t u part : TypeExpr}

namespace NormalNode

theorem kind_of_generics (h : u.NormalNode) (hgenerics : u.generics ≠ []) : u.kind = .named := by
  have hshape := h.shape
  obtain ⟨shape, generics, attributes, isInout, label⟩ := u
  cases shape with
  | named => rfl
  | tuple => exact absurd hshape.1 hgenerics
  | closure => exact absurd hshape.1 hgenerics
  | composition => exact absurd hshape.1 hgenerics

/-- Of the parts of a node only the elements of a tuple have labels. -/
theorem element_of_label (h : u.NormalNode) (hpart : part ∈ u.children)
    (hlabel : part.label ≠ none) : ∃ elements, u.shape = .tuple elements ∧ part ∈ elements := by
  have hshape := h.shape
  rcases List.mem_append.1 hpart with hgeneric | hpart
  · exact absurd (h.generics part hgeneric) hlabel
  · cases hu : u.shape with
    | named type =>
        rw [hu] at hshape hpart
        exact absurd (hshape.2 part (by simpa [Shape.children] using hpart)).2.2.2.2 hlabel
    | tuple elements => exact ⟨elements, rfl, by rwa [hu] at hpart⟩
    | closure arguments returns throws =>
        rw [hu] at hshape hpart
        obtain rfl | rfl : part = arguments ∨ part = returns := by
          simpa [Shape.children] using hpart
        · exact absurd hshape.2.1 hlabel
        · exact absurd hshape.2.2 hlabel
    | composition constituents =>
        rw [hu] at hshape hpart
        obtain ⟨type, htype, hinner⟩ := List.mem_filterMap.1 hpart
        rw [(hshape.2.2.1 type htype).2] at hinner
        exact absurd hinner (by simp)

end NormalNode

/-! ## Accepted expressions -/

/-- Every node of an accepted expression is in normal form. -/
theorem parse_normalForm (h : parse source = some t) (hu : u.Within t) :
    (u.generics ≠ [] → u.kind = .named) ∧
    (∀ type, u.shape = .named type → IsTypeName type.name ∧
      ∀ inner ∈ type.inner, u.generics ≠ [] ∧ inner.IsBareNamed) ∧
    (∀ element, u.shape = .tuple [element] → element.label ≠ none) ∧
    (∀ label ∈ u.label, IsIdentifier label.toList) ∧
    (∀ part ∈ u.children, part.label ≠ none →
      ∃ elements, u.shape = .tuple elements ∧ part ∈ elements) ∧
    (∀ constituents, u.shape = .composition constituents → constituents ≠ [] ∧
      (constituents.Pairwise fun a b => compare a.name b.name = .lt) ∧
      ∀ type ∈ constituents, IsTypeName type.name ∧ type.inner = none) ∧
    (∀ a ∈ u.attributes, IsIdentifier a.name.toList ∧ ∀ parameter ∈ a.parameters,
      (∀ c ∈ parameter.toList.head?, isBlank c = false) ∧
      (∀ c ∈ parameter.toList.getLast?, isBlank c = false) ∧ ',' ∉ parameter.toList) := by
  have hnode := ((normal_of_parse h).within hu).here
  have hshape := hnode.shape
  refine ⟨hnode.kind_of_generics, fun type htype => ?_, fun element htuple => ?_, hnode.label,
    fun part => hnode.element_of_label, fun constituents hcomposition => ?_, fun a ha => ?_⟩
  · rwa [htype] at hshape
  · rw [htuple] at hshape
    exact Option.isSome_iff_ne_none.1 (hshape.2 element rfl)
  · rw [hcomposition] at hshape
    obtain ⟨-, hne, hnames, hascending⟩ := hshape
    exact ⟨hne, hascending, hnames⟩
  · obtain ⟨hname, hparameters⟩ := hnode.attributes a ha
    refine ⟨hname, fun parameter hparameter => ?_⟩
    obtain ⟨htrimmed, hcomma⟩ := hparameters parameter hparameter
    obtain ⟨hhead, hlast⟩ := trim_eq_self_iff.1 htrimmed
    exact ⟨hhead, hlast, hcomma⟩

/-- An element of the arguments of a closure, with a label, an inner type and an attribute whose
parameter is written between blanks. -/
theorem parse_normalForm_labeled :
    ∃ t u : TypeExpr, parse "(@a( p ) x: K<V>.Index) -> ()" = some t ∧ u.Within t ∧
      u.generics = [named "V"] ∧ u.kind = .named ∧ u.label = some "x" ∧
      IsIdentifier "x".toList ∧ u.attributes = [⟨"a", ["p"]⟩] ∧ IsIdentifier "a".toList := by
  let index :=
    (((generic "K" [named "V"]).withInner (named "Index")).withLabel "x").withAttribute ⟨"a", ["p"]⟩
  have hparse : parse "(@a( p ) x: K<V>.Index) -> ()" =
      some (closure (tuple [index]) unit false) := by
    decide +kernel
  have harguments : (tuple [index]).Within (closure (tuple [index]) unit false) :=
    .child (by simp [children, Shape.children, closure, ofShape]) (.root _)
  have hindex : index.Within (closure (tuple [index]) unit false) :=
    .child (by simp [children, Shape.children, tuple, ofShape]) harguments
  obtain ⟨hgenerics, -, -, hlabel, -, -, hattributes⟩ := parse_normalForm hparse hindex
  have hattribute : (⟨"a", ["p"]⟩ : Attribute) ∈ index.attributes := List.mem_singleton_self _
  exact ⟨_, index, hparse, hindex, rfl, hgenerics (List.cons_ne_nil _ _), rfl, hlabel "x" rfl, rfl,
    (hattributes _ hattribute).1⟩

end SwiftSurface.TypeExpr
