import SwiftSurface.Proofs.Grammar.Accepted
import SwiftSurface.Proofs.Grammar.Readback

/-!
# From an expression to its canonical text and back

`parse_render_of_canonical`: a canonical expression is the reading of its own canonical text, field
for field. `parse_render_same_iff`: of the accepted expressions whose attribute parameters do not
hold the closing mark, those are read back as the same type that `respells` tells, and what is read
back is `respelled`. Both follow from what is read from the text of a regular expression
(`parse_render_of_regular`).
-/

namespace SwiftSurface.TypeExpr

open Grammar

/-- The text of a regular expression is read as `reread`, or it is refused or read as a type of
another frame. -/
theorem parse_render_of_regular {t : TypeExpr} (hregular : t.Everywhere RegularNode)
    (henclosed : t.Everywhere EnclosedNode) :
    (t.respells = true ∧ parse t.render = some t.reread) ∨
    (t.respells = false ∧ ∀ u, parse t.render = some u → u.frame ≠ t.frame) := by
  have hends : Ends [] := by simp [Ends]
  have hread := padded_write ((readable hregular henclosed).readsBack true fun _ => rfl)
    (opens_write hregular) hends
  rw [List.append_nil] at hread
  rw [parse, render, String.toList_ofList, type]
  rcases hread with ⟨hback, hread⟩ | ⟨hnot, hread | ⟨u, r, hread, hstuck | ⟨rfl, hother⟩⟩⟩
  · exact .inl ⟨hback, by rw [hread]⟩
  · exact .inr ⟨hnot, by simp [hread]⟩
  · obtain ⟨c, s, rfl, -⟩ := hstuck
    exact .inr ⟨hnot, by simp [hread]⟩
  · refine .inr ⟨hnot, fun v hv => ?_⟩
    obtain rfl : u = v := by simpa [hread] using hv
    exact hother.2

/-- The canonical text of a normal expression is read as `respelled`, or it is refused or read as
another type. -/
theorem parse_render {t : TypeExpr} (hnormal : t.Everywhere NormalNode)
    (henclosed : t.Everywhere EnclosedNode) :
    (t.respells = true ∧ parse t.render = some t.respelled) ∨
    (t.respells = false ∧ ∀ u, parse t.render = some u → u.erase ≠ t.erase) := by
  have hregular := hnormal.imp fun _ hnode => hnode.regular
  rw [← reread_of_normal hnormal]
  exact (parse_render_of_regular hregular henclosed).imp_right fun ⟨hnot, hother⟩ =>
    ⟨hnot, fun u hread herase => hother u hread (frame_eq_of_erase_eq herase)⟩

/-- A text that spells a canonical expression is read as this expression. -/
theorem parse_of_spelling {t : TypeExpr} (h : t.Everywhere CanonicalNode) {source : String}
    (hsource : source.toList = t.write .full) : parse source = some t := by
  obtain rfl : source = t.render :=
    String.toList_inj.1 (by rw [hsource, render, String.toList_ofList])
  obtain ⟨hrespells, hrespelled⟩ := respelled_of_canonical h
  rcases parse_render (h.imp fun _ hnode => hnode.toNormalNode)
    (h.imp fun _ hnode a ha => (hnode.parameters a ha).1) with ⟨-, hread⟩ | ⟨hnot, -⟩
  · rw [hread, hrespelled]
  · simp [hrespells] at hnot

/-- A canonical expression is read back from its canonical text as it is. -/
theorem parse_render_of_canonical {t : TypeExpr} (h : t.Everywhere CanonicalNode) :
    parse t.render = some t := by
  obtain ⟨hrespells, hrespelled⟩ := respelled_of_canonical h
  have hnormal := h.imp fun _ hnode => hnode.toNormalNode
  have henclosed := h.imp fun _ hnode a ha => (hnode.parameters a ha).1
  rcases parse_render hnormal henclosed with ⟨-, hread⟩ | ⟨hnot, -⟩
  · rw [hread, hrespelled]
  · simp [hrespells] at hnot

theorem parse_render_of_canonical_callback :
    ∃ t, t.render = "@escaping (x: Swift.Int) throws -> ()" ∧ parse t.render = some t := by
  have hname : IsTypeName "Swift.Int" :=
    ⟨isPath_swift "Int".toList (isIdentifier_of_all rfl), by decide, by decide⟩
  have hlabel : IsIdentifier "x".toList := isIdentifier_of_all rfl
  have hint : Everywhere CanonicalNode ⟨.named ⟨"Swift.Int", none⟩, [], [], false, some "x"⟩ :=
    .node ⟨⟨⟨hname, by simp⟩, by simp, by simp, by simpa using hlabel⟩, by simp, by simp,
      by simp, by simp⟩ (by simp [children, Shape.children])
  have hunit : Everywhere CanonicalNode ⟨.tuple [], [], [], false, none⟩ :=
    .node ⟨⟨⟨rfl, by simp⟩, by simp, by simp, by simp⟩, by simp, by simp, by simp, by simp⟩
      (by simp [children, Shape.children])
  have harguments : Everywhere CanonicalNode
      ⟨.tuple [⟨.named ⟨"Swift.Int", none⟩, [], [], false, some "x"⟩], [], [], false, none⟩ :=
    .node ⟨⟨⟨rfl, by simp⟩, by simp, by simp, by simp⟩, by simp, by simp, by simp, by simp⟩
      (by simpa [children, Shape.children] using hint)
  have hescaping : Attribute.Normal ⟨"escaping", []⟩ :=
    ⟨isIdentifier_of_all rfl, by simp⟩
  have hclosure : Everywhere CanonicalNode
      ⟨.closure
        ⟨.tuple [⟨.named ⟨"Swift.Int", none⟩, [], [], false, some "x"⟩], [], [], false, none⟩
        ⟨.tuple [], [], [], false, none⟩ true, [], [⟨"escaping", []⟩], false, none⟩ :=
    .node ⟨⟨⟨rfl, rfl, rfl⟩, by simp, by simpa using hescaping, by simp⟩, by simp, by simp, by simp,
      by simp [Attribute.Enclosed]⟩
      (by simpa [children, Shape.children] using ⟨harguments, hunit⟩)
  exact ⟨_, by decide +kernel, parse_render_of_canonical hclosure⟩

/-- The canonical text of an accepted expression is accepted and read as the same type just if the
expression comes back; then `respelled` is what is read. -/
theorem parse_render_same_iff {source : String} {t : TypeExpr} (h : parse source = some t)
    (henclosed : t.Everywhere EnclosedNode) :
    ((∃ u, parse t.render = some u ∧ u.same t = true) ↔ t.respells = true) ∧
      (t.respells = true → parse t.render = some t.respelled) := by
  rcases parse_render (normal_of_parse h) henclosed with ⟨hback, hread⟩ | ⟨hnot, hother⟩
  · exact ⟨iff_of_true ⟨_, hread, by simp [same, erase_respelled]⟩ hback, fun _ => hread⟩
  · refine ⟨iff_of_false ?_ (by simp [hnot]), fun hback => absurd hback (by simp [hnot])⟩
    rintro ⟨u, hread, hsame⟩
    exact hother u hread (by simpa [same] using hsame)

theorem parse_render_same_iff_inout_tuple :
    ∃ t, parse "(inout (A, B)) -> C" = some t ∧ t.render = "inout (A, B) -> C" ∧
      ¬ ∃ u, parse t.render = some u ∧ u.same t = true := by
  refine ⟨closure ((tuple [named "A", named "B"]).withInout true) (named "C") false,
    by decide +kernel, by decide +kernel, fun hsame => ?_⟩
  have hname (name : String) : Everywhere EnclosedNode (named name) :=
    .node (by simp [EnclosedNode, named, ofShape])
      (by simp [children, Shape.children, named, ofShape, NamedType.ofName])
  have htuple : Everywhere EnclosedNode ((tuple [named "A", named "B"]).withInout true) :=
    .node (by simp [EnclosedNode, tuple, ofShape, withInout])
      (by simpa [children, Shape.children, tuple, ofShape, withInout] using ⟨hname "A", hname "B"⟩)
  have henclosed : Everywhere EnclosedNode
      (closure ((tuple [named "A", named "B"]).withInout true) (named "C") false) :=
    .node (by simp [EnclosedNode, closure, ofShape])
      (by simpa [children, Shape.children, closure, ofShape] using ⟨htuple, hname "C"⟩)
  have hread : parse "(inout (A, B)) -> C" =
      some (closure ((tuple [named "A", named "B"]).withInout true) (named "C") false) := by
    decide +kernel
  exact absurd ((parse_render_same_iff hread henclosed).1.1 hsame) (by decide +kernel)

end SwiftSurface.TypeExpr
