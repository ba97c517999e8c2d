import SwiftSurface.Proofs.TypeExpr.Equivalence
import SwiftSurface.Proofs.TypeExpr.InnerClosures
import SwiftSurface.Proofs.TypeExpr.References
import SwiftSurface.TypeExpr.Builtin

/-!
# Equal types answer alike

Both comparisons of types compare normal forms, so a question that is answered for the normal form
as for the type itself is answered alike for types that are the same. This is so for the questions
about one node, for the search for closures (`holdsInnerClosure_standard`) and for the search for
references (`refersTo_erase`). The normal form of a closure has another argument than the closure,
but the two stand for the same list of arguments (`refersTo_tuple_asArguments`).
-/

namespace SwiftSurface.TypeExpr

section Standard

variable (style : NameStyle) (t : TypeExpr)

/-! ## Questions about one node -/

/-- The shape of the normal form: a closure takes the list of its arguments, and a composition has
its constituents in the order in which they are compared. -/
theorem shape_standard : (t.standard style).shape =
    match t.shape with
    | .named type => .named (type.standard style)
    | .tuple elements => .tuple (elements.map (standard style))
    | .closure arguments returns throws =>
      .closure (tuple (arguments.asArguments.map (standard style))) (returns.standard style) throws
    | .composition types => .composition ((style.order types).map (NamedType.standard style)) := by
  obtain ⟨shape, generics, attributes, isInout, label⟩ := t
  rw [standard_mk]
  cases shape with
  | named type => exact Shape.standard_named style type
  | tuple elements => exact Shape.standard_tuple style elements
  | closure arguments returns throws => exact Shape.standard_closure style arguments returns throws
  | composition types => exact Shape.standard_composition style types

theorem generics_standard : (t.standard style).generics = t.generics.map (standard style) := by
  cases t
  rw [standard_mk]

theorem isInout_standard : (t.standard style).isInout = t.isInout := by
  cases t
  rw [standard_mk]

theorem kind_standard : (t.standard style).kind = t.kind := by
  rw [kind, kind, shape_standard]
  cases t.shape <;> rfl

theorem elements?_standard :
    (t.standard style).elements? = t.elements?.map (·.map (standard style)) := by
  rw [elements?, elements?, shape_standard]
  cases t.shape <;> rfl

theorem named?_standard : (t.standard style).named? = t.named?.map (NamedType.standard style) := by
  rw [named?, named?, shape_standard]
  cases t.shape <;> rfl

theorem isUnit_standard : (t.standard style).isUnit = t.isUnit := by
  rw [isUnit, isUnit, elements?_standard]
  cases t.elements? <;> simp

/-- As the argument of a closure the unit type stands for no arguments. -/
theorem isUnit_eq_asArguments : t.isUnit = (t.asArguments.length == 0) := by
  rw [isUnit, asArguments]
  cases t.elements? with
  | none => rfl
  | some elements => cases elements <;> rfl

/-- The normal form keeps the names that count in full. -/
theorem isNamedIn_standard (names : List String) :
    (t.standard .full).isNamedIn names = t.isNamedIn names := by
  rw [isNamedIn, isNamedIn, named?_standard, Option.any_map]
  simp [NamedType.standard, NameStyle.spell]

theorem isArray_standard : (t.standard .full).isArray = t.isArray := by
  rw [isArray, isArray, named?_standard, Option.any_map]
  simp [NamedType.standard, NameStyle.spell]

/-! ## Searches -/

theorem searched_standard : (t.standard style).searched = t.searched.map (standard style) := by
  rw [searched, searched, shape_standard, generics_standard]
  cases t.shape <;> rfl

theorem holdsClosure_standard : (t.standard style).holdsClosure = t.holdsClosure := by
  induction t using induction_on_children with
  | node t ih =>
      rw [Bool.eq_iff_iff, holdsClosure_node, holdsClosure_node, kind_standard]
      simp only [Searches, searched_standard, List.mem_map, exists_exists_and_eq_and]
      refine or_congr_right (exists_congr fun u => and_congr_right fun hu => ?_)
      rw [ih u (Searches.mem_children hu)]

theorem holdsInnerClosure_standard :
    (t.standard style).holdsInnerClosure = t.holdsInnerClosure := by
  rw [holdsInnerClosure, holdsInnerClosure, kind_standard, holdsClosure_standard]

end Standard

section References

variable {inScope : String → Bool} {t : TypeExpr}

/-- An argument of a closure refers to what the arguments do that it stands for. -/
theorem refersTo_tuple_asArguments :
    (tuple t.asArguments).refersTo inScope = t.refersTo inScope := by
  by_cases hkind : t.kind = .tuple
  · obtain ⟨shape, generics, attributes, isInout, label⟩ := t
    cases shape <;> simp_all [kind, Shape.kind, asArguments, elements?, tuple, ofShape, refersTo]
  · simp [asArguments_of_kind_ne hkind, tuple, ofShape, refersTo, anyRefersTo]

theorem anyRefersTo_map {f : TypeExpr → TypeExpr} {types : List TypeExpr}
    (h : ∀ t ∈ types, (f t).refersTo inScope = t.refersTo inScope) :
    anyRefersTo inScope (types.map f) = anyRefersTo inScope types := by
  induction types with
  | nil => rfl
  | cons t types ih =>
      rw [List.map_cons, anyRefersTo, anyRefersTo, h t (by simp), ih fun u hu => h u (by simp [hu])]

theorem refersTo_erase (t : TypeExpr) : t.erase.refersTo inScope = t.refersTo inScope := by
  induction t using induction_on_children with
  | node t ih =>
      obtain ⟨shape, generics, attributes, isInout, label⟩ := t
      cases shape with
      | named type =>
          have hgenerics := anyRefersTo_map fun u hu => ih u (List.mem_append_left _ hu)
          obtain ⟨name, _ | inner⟩ := type <;>
            simp [erase, Shape.erase, eraseAll_eq_map, refersTo, hgenerics]
      | tuple elements =>
          have helements (u : TypeExpr) (hu : u ∈ elements) := ih u (List.mem_append_right _ hu)
          simp [erase, Shape.erase, eraseAll_eq_map, refersTo, anyRefersTo_map helements]
      | closure arguments returns throws =>
          rw [erase, Shape.erase_closure, map_erase_asArguments, refersTo, refersTo,
            refersTo_tuple_asArguments, ih arguments (by simp [children, Shape.children]),
            ih returns (by simp [children, Shape.children])]
      | composition types => rfl

end References

/-! ## Equal types -/

section Same

variable {a b : TypeExpr}

/-- An answer that is the one for the normal form is the same for equal types. -/
theorem answer_eq_of_same {α : Type} {answer : TypeExpr → α}
    (hstandard : ∀ t, answer (t.standard .full) = answer t) (h : a.same b) :
    answer a = answer b := by
  rw [← hstandard a, (same_iff a b).1 h, hstandard]

/-- Closures that are the same take the same arguments to the same result. -/
theorem closure_parts_of_same {arguments returns arguments' returns' : TypeExpr}
    {throws throws' : Bool} (h : a.same b) (ha : a.shape = .closure arguments returns throws)
    (hb : b.shape = .closure arguments' returns' throws') :
    throws = throws' ∧ returns.same returns' ∧
      List.Forall₂ (fun x y => x.same y) arguments.asArguments arguments'.asArguments := by
  have hshape := congrArg TypeExpr.shape ((same_iff a b).1 h)
  rw [shape_standard, shape_standard, ha, hb, Shape.closure.injEq] at hshape
  obtain ⟨harguments, hreturns, hthrows⟩ := hshape
  have hlists : arguments.asArguments.map (standard .full) =
      arguments'.asArguments.map (standard .full) := by
    simpa [tuple, ofShape] using harguments
  exact ⟨hthrows, (same_iff _ _).2 hreturns,
    (forall₂_iff_map_eq (fun x _ y => same_iff x y) _).2 hlists⟩

/-- Types that are the same agree on the questions asked of a type, and closures that are the same
on those asked of a closure: whether it throws, how many arguments it takes, whether it takes any
and returns something, and what the arguments are. -/
theorem answers_of_same (h : a.same b) :
    a.kind = b.kind ∧ a.isInout = b.isInout ∧ a.isArray = b.isArray ∧ a.isUnit = b.isUnit ∧
    a.isIntegral = b.isIntegral ∧ a.isFloatingPoint = b.isFloatingPoint ∧
    a.isBoolean = b.isBoolean ∧ a.holdsInnerClosure = b.holdsInnerClosure ∧
    (∀ inScope : String → Bool, a.refersTo inScope = b.refersTo inScope) ∧
    ∀ arguments returns throws arguments' returns' throws',
      a.shape = .closure arguments returns throws → b.shape = .closure arguments' returns' throws' →
        throws = throws' ∧
        arguments.asArguments.length = arguments'.asArguments.length ∧
        (!arguments.isUnit) = (!arguments'.isUnit) ∧ (!returns.isUnit) = (!returns'.isUnit) ∧
        List.Forall₂ (fun x y => x.same y) arguments.asArguments arguments'.asArguments := by
  refine ⟨answer_eq_of_same (kind_standard .full) h, answer_eq_of_same (isInout_standard .full) h,
    answer_eq_of_same isArray_standard h, answer_eq_of_same (isUnit_standard .full) h,
    answer_eq_of_same (isNamedIn_standard · _) h, answer_eq_of_same (isNamedIn_standard · _) h,
    answer_eq_of_same (isNamedIn_standard · _) h,
    answer_eq_of_same (holdsInnerClosure_standard .full) h,
    fun inScope => answer_eq_of_same refersTo_erase h, ?_⟩
  intro arguments returns throws arguments' returns' throws' ha hb
  obtain ⟨hthrows, hreturns, harguments⟩ := closure_parts_of_same h ha hb
  have hlength := harguments.length_eq
  refine ⟨hthrows, hlength, ?_, ?_, harguments⟩
  · rw [isUnit_eq_asArguments, isUnit_eq_asArguments, hlength]
  · rw [answer_eq_of_same (isUnit_standard .full) hreturns]

theorem answers_of_same_parentheses :
    let a := closure (generic "Swift.Optional" [named "T"]) unit true
    let b := closure (tuple [generic "Swift.Optional" [named "T"]]) unit true
    a.same b ∧ a.refersTo (· == "T") = b.refersTo (· == "T") ∧
      List.Forall₂ (fun x y => x.same y) (generic "Swift.Optional" [named "T"]).asArguments
        (tuple [generic "Swift.Optional" [named "T"]]).asArguments := by
  intro a b
  have hsame : a.same b := by decide
  obtain ⟨-, -, -, -, -, -, -, -, hrefers, hclosure⟩ := answers_of_same hsame
  obtain ⟨-, -, -, -, harguments⟩ := hclosure _ _ _ _ _ _ rfl rfl
  exact ⟨hsame, hrefers _, harguments⟩

end Same

end SwiftSurface.TypeExpr
