import SwiftSurface.Proofs.Grammar.RoundTrip
import SwiftSurface.Proofs.TypeExpr.Chains
import SwiftSurface.Proofs.TypeExpr.Names

/-!
# Selecting inner types

`TypeExpr.withInner` joins two names by a dot, takes over generic arguments, nests the second type
in the first one or passes it on to the inner type at the end of a chain, depending on where the
generic arguments stand. One law holds of the texts: the text of the result is that of the first
type, a dot and that of the second one (`write_withInner`), and the result is what is read from it,
since a canonical chain selected on a canonical chain is canonical (`canonical_withInner`).
Selections along a path may be grouped in any way (`withInner_assoc`).
-/

namespace SwiftSurface.TypeExpr

open Grammar

/-! ## Grouping -/

/-- The second selection on a name alone may be made on the selected type instead: either the names
are joined, or what is selected is nested as it is. -/
theorem withInner_bare (name : String) (attributes : List Attribute) (isInout : Bool)
    (label : Option String) (b c : TypeExpr) :
    (withInner ⟨.named ⟨name, none⟩, [], attributes, isInout, label⟩ b).withInner c =
      withInner ⟨.named ⟨name, none⟩, [], attributes, isInout, label⟩ (b.withInner c) := by
  obtain ⟨shape, generics, _, _, _⟩ := b
  cases shape with
  | named type =>
      obtain ⟨name', _ | inner⟩ := type
      · -- the inner type `c` of the joined name is that of `b`, joined or nested in it
        cases generics with
        | nil =>
            obtain ⟨shape, _, _, _, _⟩ := c
            cases shape <;> simp [withInner, String.append_assoc]
        | cons => simp [withInner]
      · simp [withInner]
  | _ => simp [withInner]

/-- Selecting an inner type is associative. -/
theorem withInner_assoc : (a b c : TypeExpr) →
    (a.withInner b).withInner c = a.withInner (b.withInner c)
  | ⟨.named ⟨name, some current⟩, generics, attributes, isInout, label⟩, b, c => by
      simp only [withInner, withInner_assoc current b c]
  | ⟨.named ⟨name, none⟩, [], attributes, isInout, label⟩, b, c =>
      withInner_bare name attributes isInout label b c
  | ⟨.named ⟨name, none⟩, t :: generics, attributes, isInout, label⟩, b, c => rfl
  | ⟨.tuple _, _, _, _, _⟩, _, _ => rfl
  | ⟨.closure _ _ _, _, _, _, _⟩, _, _ => rfl
  | ⟨.composition _, _, _, _, _⟩, _, _ => rfl
termination_by structural a => a

/-! ## Written forms -/

/-- The written form of a selection is that of the chain, a dot and that of the selected type. -/
theorem write_withInner {a b : TypeExpr} (ha : a.IsNominal) (hb : b.IsBareNamed) :
    (a.withInner b).write .full = a.write .full ++ '.' :: b.write .full := by
  induction ha with
  | @last name generics attributes isInout label =>
      cases generics with
      | nil =>
          obtain ⟨shape, generics, attributes', isInout', label'⟩ := b
          obtain ⟨hkind, rfl, rfl, rfl⟩ := hb
          cases shape <;> simp [kind, Shape.kind] at hkind
          case named type =>
              obtain ⟨name', inner⟩ := type
              simp [withInner, write_named]
      | cons t generics => simp [withInner, write_named]
  | dot _ ih => simp [withInner, write_named, ih]

/-! ## Canonical selections -/

/-- An inner type changes neither the kind of a type nor its decorations. -/
theorem IsBareNamed.withInner {t : TypeExpr} (h : t.IsBareNamed) (u : TypeExpr) :
    (t.withInner u).IsBareNamed := by
  obtain ⟨shape, generics, attributes, isInout, label⟩ := t
  obtain ⟨hkind, rfl, rfl, rfl⟩ := h
  cases shape <;> simp [kind, Shape.kind] at hkind
  case named type =>
      obtain ⟨name, _ | inner⟩ := type
      · cases generics with
        | nil =>
            obtain ⟨shape, generics, attributes, isInout, label⟩ := u
            cases shape <;> exact ⟨rfl, rfl, rfl, rfl⟩
        | cons => exact ⟨rfl, rfl, rfl, rfl⟩
      · exact ⟨rfl, rfl, rfl, rfl⟩

/-- A canonical type with a canonical chain selected on it is canonical. -/
theorem canonical_withInner {a b : TypeExpr} (ha : a.IsNominal) (hb : b.IsBareNamed)
    (hcanonical : a.Everywhere CanonicalNode) (hcanonical' : b.Everywhere CanonicalNode) :
    (a.withInner b).Everywhere CanonicalNode := by
  induction ha with
  | @last name generics attributes isInout label =>
      obtain ⟨hnode, hgenerics, -⟩ := everywhere_named_iff.1 hcanonical
      obtain ⟨hname, -, hlabels, hlabel, hattributes⟩ := canonicalNode_named_iff.1 hnode
      cases generics with
      | nil =>
          -- the joined name has the generic arguments and the inner type of `b`
          obtain ⟨shape, generics, attributes', isInout', label'⟩ := b
          cases shape <;> simp [IsBareNamed, kind, Shape.kind] at hb
          case named type =>
              obtain ⟨name', inner⟩ := type
              obtain ⟨hnode', hparts⟩ := everywhere_named_iff.1 hcanonical'
              obtain ⟨hname', hinner', hlabels', -⟩ := canonicalNode_named_iff.1 hnode'
              have hjoined := isTypeName_join hname.1.1 hname'.1.1
              exact everywhere_named_iff.2 ⟨canonicalNode_named_iff.2
                ⟨hjoined, hinner', hlabels', hlabel, hattributes⟩, hparts⟩
      | cons t generics =>
          have hinner : ∀ u ∈ some b, t :: generics ≠ [] ∧ u.IsBareNamed := by simpa using hb
          exact everywhere_named_iff.2 ⟨canonicalNode_named_iff.2
            ⟨hname, hinner, hlabels, hlabel, hattributes⟩, hgenerics, by simpa using hcanonical'⟩
  | @dot name inner generics attributes isInout label _ ih =>
      obtain ⟨hnode, hgenerics, hparts⟩ := everywhere_named_iff.1 hcanonical
      obtain ⟨hname, hinner, hlabels, hlabel, hattributes⟩ := canonicalNode_named_iff.1 hnode
      have hbare : (inner.withInner b).IsBareNamed := (hinner inner rfl).2.withInner b
      have hnode : CanonicalNode
          ⟨.named ⟨name, some (inner.withInner b)⟩, generics, attributes, isInout, label⟩ :=
        canonicalNode_named_iff.2 ⟨hname, by simpa using ⟨(hinner inner rfl).1, hbare⟩, hlabels,
          hlabel, hattributes⟩
      exact everywhere_named_iff.2 ⟨hnode, hgenerics, by simpa using ih (hparts inner rfl)⟩

/-- Selections are associative; the text of a selection is the two texts around a dot, for any
undecorated named type that is selected; and a selection of canonical types is canonical, so it is
what is read from its text. -/
theorem withInner_concatenates (a b : TypeExpr) :
    (∀ c, (a.withInner b).withInner c = a.withInner (b.withInner c)) ∧
    (a.IsNominal → b.IsBareNamed →
      (a.withInner b).render = a.render ++ "." ++ b.render ∧
      (a.Everywhere CanonicalNode → b.Everywhere CanonicalNode →
        (a.withInner b).Everywhere CanonicalNode ∧
          parse (a.withInner b).render = some (a.withInner b))) := by
  refine ⟨withInner_assoc a b, fun ha hb => ⟨?_, fun hcanonical hcanonical' => ?_⟩⟩
  · apply String.toList_inj.1
    simp [render, write_withInner ha hb]
  · have hresult := canonical_withInner ha hb hcanonical hcanonical'
    exact ⟨hresult, parse_of_spelling hresult (by rw [render, String.toList_ofList])⟩

theorem withInner_concatenates_leaf :
    let a : TypeExpr := ((generic "M.Outer" [named "T"]).withInner (named "Middle")).withInout true
    let b : TypeExpr := (generic "Inner" [named "U"]).withInner (named "Leaf")
    (a.withInner b).render = "inout M.Outer<T>.Middle.Inner<U>.Leaf" ∧
      parse "inout M.Outer<T>.Middle.Inner<U>.Leaf" = some (a.withInner b) := by
  intro a b
  have hselection {name argument inner : String} (isInout : Bool)
      (h : IsTypeName name ∧ name ≠ "inout") (hargument : IsTypeName argument ∧ argument ≠ "inout")
      (hinner : IsTypeName inner ∧ inner ≠ "inout") :
      Everywhere CanonicalNode
        ⟨.named ⟨name, some ⟨.named ⟨inner, none⟩, [], [], false, none⟩⟩,
          [⟨.named ⟨argument, none⟩, [], [], false, none⟩], [], isInout, none⟩ :=
    everywhere_named_iff.2 ⟨canonicalNode_named_iff.2
      ⟨h, by simp [IsBareNamed, kind, Shape.kind], by simp, by simp, by simp⟩,
      by simpa using canonical_name hargument, by simpa using canonical_name hinner⟩
  have hpath : IsTypeName "M.Outer" ∧ "M.Outer" ≠ "inout" :=
    isTypeName_join (isIdentifier_of_all rfl : IsIdentifier "M".toList).isPath
      (isIdentifier_of_all rfl : IsIdentifier "Outer".toList).isPath
  have ha : a.Everywhere CanonicalNode :=
    hselection true hpath (isTypeName_of_isIdentifier (isIdentifier_of_all rfl) (by decide))
      (isTypeName_of_isIdentifier (isIdentifier_of_all rfl) (by decide))
  have hb : b.Everywhere CanonicalNode :=
    hselection false (isTypeName_of_isIdentifier (isIdentifier_of_all rfl) (by decide))
      (isTypeName_of_isIdentifier (isIdentifier_of_all rfl) (by decide))
      (isTypeName_of_isIdentifier (isIdentifier_of_all rfl) (by decide))
  obtain ⟨-, hchain⟩ := withInner_concatenates a b
  obtain ⟨htext, hread⟩ := hchain (.dot .last) ⟨rfl, rfl, rfl, rfl⟩
  have htext : (a.withInner b).render = "inout M.Outer<T>.Middle.Inner<U>.Leaf" :=
    htext.trans (by decide +kernel)
  exact ⟨htext, htext ▸ (hread ha hb).2⟩

end SwiftSurface.TypeExpr
