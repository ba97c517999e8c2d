import SwiftSurface.Proofs.TypeExpr.Normal

/-!
# The pieces of a written expression

A written expression is its decorations followed by `writeCore`, the shape with its generic
arguments and inner type. Lists of types, constituents and parameters are a first piece followed by
the others, each with the separator in front.
-/

namespace SwiftSurface

open Grammar Text

/-- The generic arguments between their marks, if there are any. -/
def writeGenerics (generics : List TypeExpr) : List Char :=
  if generics.isEmpty then [] else '<' :: TypeExpr.writeAll .full generics ++ ['>']

@[simp] theorem writeGenerics_nil : writeGenerics [] = [] := rfl

theorem writeGenerics_cons (t : TypeExpr) (generics : List TypeExpr) (rest : List Char) :
    writeGenerics (t :: generics) ++ rest =
      '<' :: (TypeExpr.writeAll .full (t :: generics) ++ '>' :: rest) := by
  simp [writeGenerics]

@[simp] theorem TypeExpr.writeDecorations_none : writeDecorations [] false none = [] := rfl

/-- The written form less the decorations. -/
def TypeExpr.writeCore (t : TypeExpr) : List Char :=
  t.shape.write .full ++ writeGenerics t.generics ++ t.shape.writeInner .full

theorem TypeExpr.write_eq (t : TypeExpr) :
    t.write .full = writeDecorations t.attributes t.isInout t.label ++ t.writeCore := by
  obtain ⟨shape, generics, attributes, isInout, label⟩ := t
  simp [write, writeCore, writeGenerics]

/-- The arrow of a closure with the blanks around it. -/
def arrowText (throws : Bool) : List Char :=
  (if throws then " throws -> " else " -> ").toList

/-- The types behind the first one of a list. -/
def writeMore (types : List TypeExpr) : List Char :=
  types.flatMap fun t => [',', ' '] ++ t.write .full

theorem TypeExpr.writeAll_cons (t : TypeExpr) (types : List TypeExpr) :
    writeAll .full (t :: types) = t.write .full ++ writeMore types := by
  induction types generalizing t with
  | nil => simp [writeAll, writeMore]
  | cons u types ih =>
      rw [writeAll, ih u]
      simp [writeMore]

/-- The constituents behind the first one of a composition. -/
def writeMoreConstituents (types : List NamedType) : List Char :=
  types.flatMap fun type => [' ', '&', ' '] ++ type.name.toList

theorem TypeExpr.writeConstituents_cons {type : NamedType} {types : List NamedType}
    (h : ∀ c ∈ type :: types, c.inner = none) :
    writeConstituents .full (type :: types) = type.name.toList ++ writeMoreConstituents types := by
  induction types generalizing type with
  | nil =>
      obtain ⟨name, inner⟩ := type
      obtain rfl : inner = none := h ⟨name, inner⟩ (by simp)
      simp [writeConstituents, writeMoreConstituents, NameStyle.spell]
  | cons next types ih =>
      obtain ⟨name, inner⟩ := type
      obtain rfl : inner = none := h ⟨name, inner⟩ (by simp)
      rw [writeConstituents, ih fun c hc => h c (by simp [hc])]
      simp [writeMoreConstituents, NameStyle.spell]

/-! ## The shapes -/

section Core

variable {generics : List TypeExpr} {attributes : List Attribute} {isInout : Bool}
  {label : Option String}

theorem TypeExpr.writeCore_named (name : String) :
    writeCore ⟨.named ⟨name, none⟩, generics, attributes, isInout, label⟩ =
      name.toList ++ writeGenerics generics := by
  simp [writeCore, Shape.write, Shape.writeInner, NameStyle.spell]

theorem TypeExpr.writeCore_inner (name : String) {inner : TypeExpr} (h : inner.IsBareNamed) :
    writeCore ⟨.named ⟨name, some inner⟩, generics, attributes, isInout, label⟩ =
      name.toList ++ (writeGenerics generics ++ '.' :: inner.writeCore) := by
  obtain ⟨-, hattributes, hinout, hlabel⟩ := h
  have hwrite : inner.write .full = inner.writeCore := by
    simp [write_eq, hattributes, hinout, hlabel, writeDecorations]
  simp [writeCore, Shape.write, Shape.writeInner, NameStyle.spell, hwrite]

/-- A written named type: its name, the generic arguments, and the inner type behind a dot. -/
theorem TypeExpr.write_named (name : String) (inner : Option TypeExpr) :
    write .full ⟨.named ⟨name, inner⟩, generics, attributes, isInout, label⟩ =
      writeDecorations attributes isInout label ++ (name.toList ++ (writeGenerics generics ++
        inner.elim [] fun u => '.' :: u.write .full)) := by
  cases inner <;> simp [write_eq, writeCore, Shape.write, Shape.writeInner, NameStyle.spell]

theorem TypeExpr.writeCore_tuple (elements : List TypeExpr) (rest : List Char) :
    writeCore ⟨.tuple elements, [], attributes, isInout, label⟩ ++ rest =
      '(' :: (writeAll .full elements ++ ')' :: rest) := by
  simp [writeCore, Shape.write, Shape.writeInner]

theorem TypeExpr.writeCore_composition {first : NamedType} {more : List NamedType}
    (h : ∀ type ∈ first :: more, type.inner = none) :
    writeCore ⟨.composition (first :: more), [], attributes, isInout, label⟩ =
      first.name.toList ++ writeMoreConstituents more := by
  simp [writeCore, Shape.write, Shape.writeInner, writeConstituents_cons h]

end Core

/-! ## The first character -/

/-- A character that a written expression can start with: not a blank, and no separator or closing
mark. -/
def IsOpening (c : Char) : Prop :=
  c = '@' ∨ c = '(' ∨ isIdentifierChar c

theorem IsOpening.not_isBlank {c : Char} (h : IsOpening c) : isBlank c = false := by
  rcases h with rfl | rfl | h
  · decide
  · decide
  · simp_all [isIdentifierChar]

theorem IsOpening.ne {c d : Char} (h : IsOpening c) (hd : d = ',' ∨ d = ')' ∨ d = '>') :
    c ≠ d := by
  rintro rfl
  rcases hd with rfl | rfl | rfl <;> rcases h with h | h | h <;> revert h <;> decide

/-- The text starts with such a character. -/
def Opens (s : List Char) : Prop :=
  ∃ c rest, s = c :: rest ∧ IsOpening c

theorem Opens.append {s : List Char} (h : Opens s) (rest : List Char) : Opens (s ++ rest) := by
  obtain ⟨c, s, rfl, hc⟩ := h
  exact ⟨c, s ++ rest, rfl, hc⟩

theorem Opens.head {s : List Char} (h : Opens s) : ∀ c ∈ s.head?, isBlank c = false := by
  obtain ⟨c, s, rfl, hc⟩ := h
  simpa using hc.not_isBlank

theorem opens_of_isIdentifier {cs : List Char} (h : IsIdentifier cs) : Opens cs := by
  obtain ⟨hne, hall⟩ := h
  cases cs with
  | nil => exact absurd rfl hne
  | cons c cs => exact ⟨c, cs, rfl, .inr (.inr (hall c (by simp)))⟩

theorem opens_of_isPath {cs : List Char} (h : IsPath cs) : Opens cs := by
  obtain ⟨first, more, hfirst, -, rfl⟩ := h
  exact (opens_of_isIdentifier hfirst).append _

namespace TypeExpr

theorem writeDecorations_cons (a : Attribute) (attributes : List Attribute) (isInout : Bool)
    (label : Option String) :
    writeDecorations (a :: attributes) isInout label =
      a.write ++ ' ' :: writeDecorations attributes isInout label := by
  simp only [writeDecorations, List.flatMap_cons, List.append_assoc, List.cons_append,
    List.nil_append]

/-- Decorations start like a type. -/
theorem opens_writeDecorations {attributes : List Attribute} {isInout : Bool}
    {label : Option String} {s : List Char} (hlabel : ∀ l ∈ label, IsIdentifier l.toList)
    (hs : Opens s) : Opens (writeDecorations attributes isInout label ++ s) := by
  cases attributes with
  | cons a attributes => simp [writeDecorations_cons, Attribute.write, Opens, IsOpening]
  | nil =>
      cases isInout with
      | true =>
          exact ⟨'i', _, by simp [writeDecorations]; rfl, .inr (.inr (by decide))⟩
      | false =>
          cases label with
          | none => simpa [writeDecorations] using hs
          | some l =>
              have := (opens_of_isIdentifier (hlabel l rfl)).append (':' :: ' ' :: s)
              simpa [writeDecorations] using this

theorem opens_write {t : TypeExpr} (h : Everywhere RegularNode t) : Opens (t.write .full) := by
  induction h with
  | @node t here children ih =>
      rw [write_eq]
      refine opens_writeDecorations here.label ?_
      have hshape := here.shape
      obtain ⟨shape, generics, attributes, isInout, label⟩ := t
      rw [writeCore, List.append_assoc]
      refine Opens.append ?_ _
      cases shape with
      | named type =>
          obtain ⟨name, inner⟩ := type
          exact opens_of_isPath hshape.1
      | tuple elements => exact ⟨'(', _, rfl, .inr (.inl rfl)⟩
      | closure arguments returns throws =>
          rw [Shape.write, List.append_assoc]
          refine Opens.append ?_ _
          split
          · exact ⟨'(', _, rfl, .inr (.inl rfl)⟩
          · exact ih arguments (by simp [TypeExpr.children, Shape.children])
      | composition constituents =>
          obtain ⟨-, hne, hconstituents⟩ := hshape
          cases constituents with
          | nil => exact absurd rfl hne
          | cons type types =>
              rw [Shape.write, writeConstituents_cons fun c hc => (hconstituents c hc).2]
              exact (opens_of_isPath (hconstituents type (by simp)).1).append _

end TypeExpr

end SwiftSurface
