import SwiftSurface.Proofs.Grammar.RoundTrip
import SwiftSurface.Proofs.TypeExpr.Recognition

/-!
# Reading a short text

The short text of an expression is the text of a regular one, `TypeExpr.withoutModules`, so it is
read as that one or as a type of another frame. `parse_renderShort_same_iff` tells for which
canonical expressions the type that is read is the original up to module qualifiers.
-/

namespace SwiftSurface.TypeExpr

open Grammar

/-- Where the short text of a canonical expression is accepted, the type that is read is the
original up to module qualifiers, in either direction, if and only if the text can be read as it
stands, each name has one component without its module and no two constituents of a composition are
called alike then. A text that can be read as it stands is accepted, and `reread` says what is
read. -/
theorem parse_renderShort_same_iff {t : TypeExpr} (h : t.Everywhere CanonicalNode) :
    (∀ u, parse t.renderShort = some u →
      ((u.sameUpToModule t ∧ t.sameUpToModule u) ↔
        t.withoutModules.respells ∧ t.Everywhere RecognizableNode)) ∧
    (t.withoutModules.respells → parse t.renderShort = some t.withoutModules.reread) := by
  have hnormal : t.Everywhere NormalNode := h.imp fun _ hnode => hnode.toNormalNode
  have hregular : t.Everywhere RegularNode := hnormal.imp fun _ hnode => hnode.regular
  have hshort : t.withoutModules.Everywhere RegularNode :=
    hregular.withoutModules fun _ hnode => hnode.withoutModules
  have henclosed : t.withoutModules.Everywhere EnclosedNode :=
    h.withoutModules fun u hnode a ha => by
      cases u
      exact (hnode.parameters a ha).1
  have hboth (u : TypeExpr) :
      (u.sameUpToModule t ∧ t.sameUpToModule u) ↔ u.sameUpToModule t := by
    simp only [sameUpToModule_iff]
    exact ⟨And.left, fun hsame => ⟨hsame, hsame.symm⟩⟩
  rw [renderShort, write_short hregular, ← render]
  rcases parse_render_of_regular hshort henclosed with ⟨hback, hread⟩ | ⟨hnot, hother⟩
  · refine ⟨fun u hu => ?_, fun _ => hread⟩
    obtain rfl := Option.some.inj (hread.symm.trans hu)
    rw [hboth, reread_sameUpToModule_iff hnormal]
    exact (and_iff_right hback).symm
  · -- a type of another frame is no type up to modules
    refine ⟨fun u hu => ?_, fun hback => absurd hback (by simp [hnot])⟩
    rw [hboth]
    refine iff_of_false (fun hsame => hother u hu ?_) (by simp [hnot])
    rw [frame_eq_of_sameUpToModule hsame, withoutModules, frame_renamed]

/-- `Array<Data>` is `Swift.Array<Foundation.Data>` without modules. -/
theorem parse_renderShort_same_iff_array :
    let t := generic "Swift.Array" [named "Foundation.Data"]
    t.Everywhere CanonicalNode ∧
      parse t.renderShort = some (generic "Array" [named "Data"]) ∧
      (generic "Array" [named "Data"]).sameUpToModule t := by
  intro t
  have hnode (name : String) (generics : List TypeExpr)
      (hname : IsTypeName name ∧ name ≠ "inout") (hgenerics : ∀ u ∈ generics, u.label = none) :
      CanonicalNode ⟨.named ⟨name, none⟩, generics, [], false, none⟩ :=
    ⟨⟨⟨hname.1, by simp⟩, hgenerics, by simp, by simp⟩, by simpa using hname.2, by simp, by simp,
      by simp⟩
  have hpath (first second : String)
      (h : IsIdentifier first.toList ∧ IsIdentifier second.toList) :
      IsPath (first.toList ++ [second.toList].flatMap ('.' :: ·)) :=
    ⟨first.toList, [second.toList], h.1, by simpa using h.2, rfl⟩
  have harray : IsTypeName "Swift.Array" :=
    ⟨hpath "Swift" "Array" ⟨isIdentifier_of_all rfl, isIdentifier_of_all rfl⟩, by decide, by decide⟩
  have hdata : IsTypeName "Foundation.Data" :=
    ⟨hpath "Foundation" "Data" ⟨isIdentifier_of_all rfl, isIdentifier_of_all rfl⟩, by decide,
      by decide⟩
  have hall {p : TypeExpr → Prop} (h : p t) (h' : p (named "Foundation.Data")) : t.Everywhere p :=
    .node h (List.forall_mem_singleton.2 (.node h'
      (by simp [children, Shape.children, named, ofShape, NamedType.ofName])))
  have hcanonical : t.Everywhere CanonicalNode :=
    hall (hnode _ _ ⟨harray, by decide⟩ (by simp [named, ofShape]))
      (hnode _ _ ⟨hdata, by decide⟩ (by simp))
  have hrecognizable : t.Everywhere RecognizableNode :=
    hall (by decide : '.' ∉ (NamedType.unqualifiedName "Swift.Array").toList)
      (by decide : '.' ∉ (NamedType.unqualifiedName "Foundation.Data").toList)
  have hback : t.withoutModules.respells := by decide
  obtain ⟨hsame, haccepted⟩ := parse_renderShort_same_iff hcanonical
  have hread := haccepted hback
  exact ⟨hcanonical, hread, ((hsame _ hread).2 ⟨hback, hrecognizable⟩).1⟩

/-- A name with a further component is not found again: `Outer` is taken for a module. -/
example : (parse (named "Module.Outer.Inner").renderShort).map
    (·.sameUpToModule (named "Module.Outer.Inner")) = some false := by
  decide +kernel

/-- Of constituents that are called alike without their modules one is read. -/
example : parse (composition [.ofName "A.X", .ofName "B.X"]).renderShort =
    some (composition [.ofName "X"]) := by
  decide +kernel

end SwiftSurface.TypeExpr
