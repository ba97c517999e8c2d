import SwiftSurface.Proofs.Grammar.RoundTrip

/-!
# Modifiers of closure arguments

An argument that carries a modifier is written in parentheses, so that the modifier is not read as
the closure's own, but a tuple is not: its parentheses are those of its elements. So the modifiers
of a tuple stand in front of the whole closure, and there they are read as the closure's
(`parse_render_closure`). Every other argument keeps its modifiers.
-/

namespace SwiftSurface.TypeExpr

open Grammar

/-- The closure that is read from a written one: the modifiers of a tuple that is the argument are
those of the closure. -/
def closureRead (argument returns : TypeExpr) (throws : Bool) : TypeExpr :=
  if argument.kind = .tuple then
    decorate argument.attributes argument.isInout none (closure argument.bare returns throws)
  else closure argument returns throws

/-- A closure without modifiers whose argument carries these. -/
def IsPlainClosureFrom (attributes : List Attribute) (isInout : Bool) (t : TypeExpr) : Prop :=
  ∃ argument returns throws, t.shape = .closure argument returns throws ∧
    (argument.attributes = attributes ∧ argument.isInout = isInout) ∧
    t.attributes = [] ∧ t.isInout = false

section Argument

variable {argument returns : TypeExpr} {throws : Bool}

/-- A closure is canonical if its parts are and its argument is no tuple with modifiers. -/
theorem canonical_closure (hargument : argument.Everywhere CanonicalNode)
    (hreturns : returns.Everywhere CanonicalNode) (hlabel : argument.label = none)
    (hlabel' : returns.label = none)
    (hmodifiers : argument.kind = .tuple → argument.attributes = [] ∧ argument.isInout = false)
    {attributes : List Attribute}
    (hattributes : ∀ a ∈ attributes,
      a.Normal ∧ a.Enclosed ∧ ∀ parameter ∈ a.parameters, parameter ≠ "")
    (isInout : Bool) :
    Everywhere CanonicalNode ⟨.closure argument returns throws, [], attributes, isInout, none⟩ := by
  refine .node ⟨⟨⟨rfl, hlabel, hlabel'⟩, by simp, fun a ha => (hattributes a ha).1, by simp⟩,
    by simp, by simp, ?_, fun a ha => (hattributes a ha).2⟩ ?_
  · rintro _ _ _ ⟨⟩
    exact hmodifiers
  · simpa [children, Shape.children] using ⟨hargument, hreturns⟩

/-- Without its modifiers a canonical tuple is canonical. -/
theorem canonical_bare (hargument : argument.Everywhere CanonicalNode) :
    argument.bare.Everywhere CanonicalNode := by
  have hnode := hargument.here
  exact .node ⟨⟨hnode.shape, hnode.generics, by simp [bare], by simp [bare]⟩, hnode.name,
    hnode.constituents, hnode.argument, by simp [bare]⟩ hargument.child

/-- The modifiers of a tuple are written where those of the closure stand. -/
theorem write_closureRead (hlabel : argument.label = none) :
    (closureRead argument returns throws).write .full =
      (closure argument returns throws).write .full := by
  obtain ⟨shape, generics, attributes, isInout, label⟩ := argument
  obtain rfl : label = none := hlabel
  cases shape with
  | tuple elements =>
      simp [closureRead, kind, Shape.kind, decorate, bare, closure, ofShape, write, Shape.write,
        Shape.writeInner, needsParentheses]
  | _ => rfl

/-- What is read from a closure with a canonical argument and a canonical result is canonical. -/
theorem canonical_closureRead (hargument : argument.Everywhere CanonicalNode)
    (hreturns : returns.Everywhere CanonicalNode) (hlabel : argument.label = none)
    (hlabel' : returns.label = none) :
    (closureRead argument returns throws).Everywhere CanonicalNode := by
  have hnode := hargument.here
  rw [closureRead]
  split
  case isTrue =>
    have hmoved : Everywhere CanonicalNode
        ⟨.closure argument.bare returns throws, [], argument.attributes, argument.isInout, none⟩ :=
      canonical_closure (canonical_bare hargument) hreturns rfl hlabel' (fun _ => ⟨rfl, rfl⟩)
        (fun a ha => ⟨hnode.attributes a ha, hnode.parameters a ha⟩) _
    simpa [decorate, closure, ofShape] using hmoved
  case isFalse hkind =>
    exact canonical_closure hargument hreturns hlabel hlabel' (fun h => absurd h hkind) (by simp) _

end Argument

/-- A closure whose argument and result are canonical and unlabeled is always read back as a
closure, `closureRead`. It is the same type unless the argument is an inout tuple, and it is a
closure without modifiers whose argument has those of the written one unless that is a tuple with a
modifier. -/
theorem parse_render_closure {argument returns : TypeExpr}
    (hargument : argument.Everywhere CanonicalNode) (hreturns : returns.Everywhere CanonicalNode)
    (hlabel : argument.label = none) (hlabel' : returns.label = none) (throws : Bool) :
    parse (closure argument returns throws).render = some (closureRead argument returns throws) ∧
    ((closureRead argument returns throws).same (closure argument returns throws) ↔
      (argument.kind = .tuple → argument.isInout = false)) ∧
    ((closureRead argument returns throws).IsPlainClosureFrom argument.attributes argument.isInout ↔
      (argument.kind = .tuple → argument.attributes = [] ∧ argument.isInout = false)) := by
  refine ⟨parse_of_spelling (canonical_closureRead hargument hreturns hlabel hlabel') ?_, ?_, ?_⟩
  · rw [write_closureRead hlabel, render, String.toList_ofList]
  · obtain ⟨shape, generics, attributes, isInout, label⟩ := argument
    cases shape with
    | tuple elements =>
        simp [closureRead, kind, Shape.kind, decorate, bare, closure, ofShape, same, erase,
          Shape.erase]
    | _ => simp [closureRead, kind, Shape.kind, same]
  · rw [closureRead]
    split
    case isTrue hkind =>
      simp [IsPlainClosureFrom, decorate, closure, ofShape, bare, hkind]
    case isFalse hkind =>
      simp [IsPlainClosureFrom, closure, ofShape, hkind]

theorem parse_render_closure_inout_tuple :
    let argument := (tuple [named "A", named "B"]).withInout true
    let t := closure argument (named "C") false
    t.render = "inout (A, B) -> C" ∧
      ∃ u, parse "inout (A, B) -> C" = some u ∧ u.isInout = true ∧ u.same t = false ∧
        ¬ u.IsPlainClosureFrom [] true := by
  intro argument t
  have hA : Everywhere CanonicalNode (named "A") :=
    canonical_name (isTypeName_of_isIdentifier (isIdentifier_of_all rfl) (by decide))
  have hB : Everywhere CanonicalNode (named "B") :=
    canonical_name (isTypeName_of_isIdentifier (isIdentifier_of_all rfl) (by decide))
  have hC : Everywhere CanonicalNode (named "C") :=
    canonical_name (isTypeName_of_isIdentifier (isIdentifier_of_all rfl) (by decide))
  have hargument : argument.Everywhere CanonicalNode :=
    .node ⟨⟨⟨rfl, by simp⟩, by simp [argument, tuple, ofShape, withInout],
      by simp [argument, tuple, ofShape, withInout], by simp [argument, tuple, ofShape, withInout]⟩,
      nofun, nofun, nofun, by simp [argument, tuple, ofShape, withInout]⟩
      (by simpa [children, Shape.children, argument, tuple, ofShape, withInout] using ⟨hA, hB⟩)
  obtain ⟨hread, hsame, hplain⟩ := parse_render_closure hargument hC rfl rfl false
  have htext : t.render = "inout (A, B) -> C" := by decide +kernel
  exact ⟨htext, _, htext ▸ hread, rfl,
    Bool.eq_false_iff.2 fun h => absurd (hsame.1 h rfl) (by decide),
    fun h => absurd (hplain.1 h rfl).2 (by decide)⟩

end SwiftSurface.TypeExpr
