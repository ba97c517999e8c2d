import SwiftSurface.Proofs.Grammar.Accepted
import SwiftSurface.Proofs.Grammar.Closers

/-!
# Attributes and their texts

The text of an attribute has its parameters in parentheses, whichever marks they were read between.
Reading that text finds the name again, but of the parameters only those are the same that hold no
closing parenthesis and do not begin with an empty one (`attributeMark_render_iff`). A `)` ends the
parameters early; an empty parameter that is the only one is not seen, and in front of others it
leaves them all unread.
-/

namespace SwiftSurface.Grammar

open SwiftSurface.Parser Text

/-- An attribute comes back as it is just if its parameters do not begin with an empty one. -/
theorem respelled_eq_self_iff (a : Attribute) :
    a.respells ∧ a.respelled = a ↔ a.parameters.head? ≠ some "" := by
  obtain ⟨name, parameters⟩ := a
  match parameters with
  | [] => simp [Attribute.respells, Attribute.respelled]
  | [p] => simp [Attribute.respells, Attribute.respelled, eq_comm]
  | p :: q :: parameters => simp [Attribute.respells, Attribute.respelled]

theorem mem_joinChars {separator piece : List Char} {pieces : List (List Char)} {c : Char}
    (hpiece : piece ∈ pieces) (hc : c ∈ piece) : c ∈ joinChars separator pieces := by
  cases pieces with
  | nil => simp at hpiece
  | cons first more =>
      rw [joinChars_cons]
      rcases List.mem_cons.1 hpiece with rfl | hpiece
      · exact List.mem_append_left _ hc
      · exact List.mem_append_right _ (List.mem_flatMap.2 ⟨piece, hpiece, by simp [hc]⟩)

/-- An attribute that has a closing parenthesis in a parameter is not read to its end: the
parameters end at that parenthesis, or they are not read at all. -/
theorem attributeMark_write_of_closing {a : Attribute} (hnormal : a.Normal) (h : ¬ a.Enclosed) :
    ∃ b rest, attributeMark a.write = some (b, rest) ∧ b.name = a.name ∧ rest ≠ [] := by
  obtain ⟨name, parameters⟩ := a
  obtain ⟨p, hp, hclosing⟩ : ∃ p ∈ parameters, ')' ∈ p.toList := by
    simpa [Attribute.Enclosed] using h
  obtain ⟨before, inside, htext, hbefore⟩ : ∃ before inside,
      joinChars [',', ' '] (parameters.map String.toList) = before ++ ')' :: inside ∧
        ')' ∉ before :=
    List.eq_append_cons_of_mem (mem_joinChars (List.mem_map_of_mem hp) hclosing)
  have hwrite : Attribute.write ⟨name, parameters⟩ =
      '@' :: name.toList ++ '(' :: (before ++ ')' :: (inside ++ [')'])) := by
    cases parameters with
    | nil => simp at hp
    | cons first more =>
        rw [List.map_cons] at htext
        simp [Attribute.write, htext]
  have hsquare : attributeParameters '[' ']' ('(' :: (before ++ ')' :: (inside ++ [')']))) = none :=
    attributeParameters_of_head (by simp)
  rw [hwrite, attributeMark_cons hnormal.1 (by simp; decide)]
  refine ⟨_, _, rfl, String.ofList_toList, ?_⟩
  rw [optionally, orElse, attributeParameters_closed (by decide) hbefore, hsquare]
  by_cases hread : (separatedBy ',' (attributeParameter ')') before).2 = [] <;> simp [hread]

/-- The text of an attribute that was read begins with an attribute of the same name. It is read to
its end just if the attribute `respells` and no parameter holds a closing parenthesis, and then
`respelled` is read. That is the attribute itself unless the parameters begin with an empty one. -/
theorem attributeMark_render_iff {s rest : List Char} {a : Attribute}
    (h : attributeMark s = some (a, rest)) :
    (∃ b left, attributeMark a.render.toList = some (b, left) ∧ b.name = a.name ∧
      (left = [] ↔ a.respells ∧ a.Enclosed) ∧ (left = [] → b = a.respelled)) ∧
    (attributeMark a.render.toList = some (a, []) ↔
      a.parameters.head? ≠ some "" ∧ a.Enclosed) := by
  have hnormal := yields_attributeMark _ _ _ h
  rw [Attribute.render, String.toList_ofList, ← respelled_eq_self_iff]
  by_cases henclosed : a.Enclosed
  case neg =>
    obtain ⟨b, left, hread, hname, hleft⟩ := attributeMark_write_of_closing hnormal henclosed
    exact ⟨⟨b, left, hread, hname, by simp [hleft, henclosed], fun h => absurd h hleft⟩,
      by simp [hread, hleft, henclosed]⟩
  case pos =>
    cases hrespells : a.respells with
    | true =>
        have hread : attributeMark (a.write ++ []) = some (a.respelled, []) :=
          attributeMark_write hnormal henclosed hrespells (by simp)
        rw [List.append_nil] at hread
        exact ⟨⟨_, _, hread, rfl, by simp [henclosed], fun _ => rfl⟩, by simp [hread, henclosed]⟩
    | false =>
        obtain ⟨left, hread, -⟩ := attributeMark_write_of_not hnormal hrespells []
        rw [List.append_nil] at hread
        exact ⟨⟨_, _, hread, rfl, by simp, by simp⟩, by simp [hread]⟩

theorem attributeMark_render_iff_brackets :
    (∃ a, attributeMark "@convention[thin, x]".toList = some (a, []) ∧
      a.render = "@convention(thin, x)" ∧ attributeMark a.render.toList = some (a, [])) ∧
    ∃ a, attributeMark "@a[)]".toList = some (a, []) ∧ a.render = "@a())" ∧
      attributeMark a.render.toList ≠ some (a, []) := by
  have hthin : attributeMark "@convention[thin, x]".toList =
      some (⟨"convention", ["thin", "x"]⟩, []) := by
    decide +kernel
  have hclosing : attributeMark "@a[)]".toList = some (⟨"a", [")"]⟩, []) := by decide +kernel
  refine ⟨⟨_, hthin, by decide +kernel, (attributeMark_render_iff hthin).2.2 ⟨by simp, ?_⟩⟩,
    _, hclosing, by decide +kernel, fun h => ?_⟩
  · simp [Attribute.Enclosed]
  · simpa [Attribute.Enclosed] using ((attributeMark_render_iff hclosing).2.1 h).2

end SwiftSurface.Grammar
