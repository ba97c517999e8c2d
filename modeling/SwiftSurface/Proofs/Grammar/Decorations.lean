import SwiftSurface.Proofs.Grammar.Knot
import SwiftSurface.Proofs.Grammar.Tokens

/-!
# Reading the decorations of a written expression

In front of a type stand its attributes, `inout` and its label, each with a blank behind it. They
are read back if what follows cannot be taken for one more of them. An attribute that does not come
back leaves its parameters, and nothing can be read from there.
-/

namespace SwiftSurface.Grammar

open SwiftSurface.Parser Text

/-! ## Texts where no type begins -/

theorem padded_char_of_head {c : Char} {s : List Char}
    (h : ∀ d ∈ s.head?, isBlank d = false ∧ d ≠ c) : padded (char c) s = none := by
  rw [padded, skipBlanks_of_head fun d hd => (h d hd).1, Option.map_eq_none_iff]
  cases s with
  | nil => rfl
  | cons d s => exact char_cons_of_ne (h d rfl).2 s

theorem padded_char_cons {c : Char} {s : List Char} (hc : isBlank c = false)
    (hs : ∀ d ∈ s.head?, isBlank d = false) : padded (char c) (c :: s) = some ((), s) := by
  rw [padded, skipBlanks_of_head (by simpa using hc), char_cons_self]
  simp only [Option.map_some, skipBlanks_of_head hs]

theorem collection_of_head {inner : Parser TypeExpr} {s : List Char}
    (h : ∀ c ∈ s.head?, c ≠ '[') : collection inner s = none := by
  cases s with
  | nil => rfl
  | cons c s => simp [collection, between, followedBy, after, char_cons_of_ne (h c rfl)]

theorem nominal_of_head {inner : Parser TypeExpr} {s : List Char}
    (h : ∀ c ∈ s.head?, isIdentifierChar c = false) : nominal inner s = none := by
  rw [nominal, segment, dottedName_of_head h]
  rfl

theorem group_of_head {inner : Parser TypeExpr} {s : List Char}
    (h : ∀ c ∈ s.head?, isBlank c = false ∧ c ≠ '(') : group inner s = none := by
  simp [group, followedBy, after, padded_char_of_head h]

/-- Only a group starts with a parenthesis. -/
theorem atomRule_of_paren (inner : Parser TypeExpr) (s : List Char) :
    orElse (group inner) (orElse (collection inner) (nominal inner)) ('(' :: s) =
      group inner ('(' :: s) := by
  have hcollection : collection inner ('(' :: s) = none := collection_of_head (by simp)
  have hnominal : nominal inner ('(' :: s) = none := nominal_of_head (by simp; decide)
  cases hgroup : group inner ('(' :: s) <;> simp [orElse, hgroup, hcollection, hnominal]

/-- Only a collection starts with a bracket. -/
theorem atomRule_of_bracket (inner : Parser TypeExpr) (s : List Char) :
    orElse (group inner) (orElse (collection inner) (nominal inner)) ('[' :: s) =
      collection inner ('[' :: s) := by
  have hgroup : group inner ('[' :: s) = none := group_of_head (by simp; decide)
  have hnominal : nominal inner ('[' :: s) = none := nominal_of_head (by simp; decide)
  cases hcollection : collection inner ('[' :: s) <;> simp [orElse, hgroup, hcollection, hnominal]

/-- Only a nominal path starts with a character of a name. -/
theorem atomRule_of_name (inner : Parser TypeExpr) {s : List Char}
    (h : ∃ c ∈ s.head?, isIdentifierChar c) :
    orElse (group inner) (orElse (collection inner) (nominal inner)) s = nominal inner s := by
  obtain ⟨c, hc, hident⟩ := h
  have hgroup : group inner s = none := by
    refine group_of_head fun d hd => ?_
    obtain rfl := Option.some.inj (hc.symm.trans hd)
    exact ⟨not_isBlank_of_isIdentifierChar hident, ne_of_isIdentifierChar hident (by decide)⟩
  have hcollection : collection inner s = none := by
    refine collection_of_head fun d hd => ?_
    obtain rfl := Option.some.inj (hc.symm.trans hd)
    exact ne_of_isIdentifierChar hident (by decide)
  simp [orElse, hgroup, hcollection]

theorem core_of_atom {s : List Char} (h : atom core s = none) : core s = none := by
  rw [core_eq, coreRule, composition, h]
  rfl

/-- A type without decorations starts with a parenthesis, a bracket or a name. -/
theorem core_of_head {s : List Char} (h : ∀ c ∈ s.head?, isBlank c = false ∧
    isIdentifierChar c = false ∧ c ≠ '(' ∧ c ≠ '[') : core s = none := by
  apply core_of_atom
  simp [atom, orElse, group_of_head fun c hc => ⟨(h c hc).1, (h c hc).2.2.1⟩,
    collection_of_head fun c hc => (h c hc).2.2.2, nominal_of_head fun c hc => (h c hc).2.1]

/-- No decorated type starts with a comma or a closing mark. -/
theorem withDecorations_of_ending (mayHaveLabel : Bool) {c : Char}
    (hc : c = ',' ∨ c = ')' ∨ c = '>') (s : List Char) :
    withDecorations mayHaveLabel core (c :: s) = none := by
  have hclass : isBlank c = false ∧ isIdentifierChar c = false ∧ c ≠ '(' ∧ c ≠ '[' ∧ c ≠ '@' ∧
      c ≠ 'i' := by
    rcases hc with rfl | rfl | rfl <;> decide
  obtain ⟨hblank, hident, hopen, hopen', hat, hi⟩ := hclass
  have hattributes : many (padded attributeMark) (c :: s) = ([], c :: s) := by
    refine many_of_none ?_
    rw [padded, skipBlanks_of_head (by simpa using hblank),
      attributeMark_of_head (by simpa using hat), Option.map_none]
  have hcore : core (c :: s) = none := core_of_head (by simp [*])
  have hinout : inoutMark (c :: s) = none := inoutMark_of_head (by simpa using hi)
  have hlabel : labelMark (c :: s) = none := labelMark_of_head (by simpa using hident)
  cases mayHaveLabel <;>
    simp [withDecorations, hattributes, optionally, hinout, hlabel, hcore]

theorem core_of_empty_element (s : List Char) : core ('(' :: ',' :: s) = none := by
  apply core_of_atom
  have hopen : padded (char '(') ('(' :: ',' :: s) = some ((), ',' :: s) :=
    padded_char_cons (by decide) (by simp; decide)
  have hitem : padded (withDecorations true core) (',' :: s) = none := by
    rw [padded, skipBlanks_of_head (by simp; decide), withDecorations_of_ending _ (.inl rfl),
      Option.map_none]
  have hgroup : group core ('(' :: ',' :: s) = none := by
    simp [group, followedBy, after, hopen, separatedBy_of_none hitem, char_cons_of_ne]
  rw [atom, atomRule_of_paren, hgroup, Option.map_none]

/-! ## Decorations -/

/-- What stands in front of a shape behind its attributes. -/
theorem writeDecorations_append (attributes : List Attribute) (isInout : Bool)
    (label : Option String) (s : List Char) :
    TypeExpr.writeDecorations attributes isInout label ++ s =
      writeAttributes attributes ++ (TypeExpr.writeDecorations [] isInout label ++ s) := by
  simp only [TypeExpr.writeDecorations, writeAttributes, List.flatMap_nil, List.nil_append,
    List.append_assoc]

variable {inner : Parser TypeExpr} {attributes : List Attribute} {isInout mayHaveLabel : Bool}
  {label : Option String} {s : List Char}

/-- The label in front of a type is read, if there is one. -/
theorem optionally_labelMark_write
    (hlabel : ∀ l ∈ label, IsIdentifier l.toList ∧ mayHaveLabel = true)
    (hs : ∀ c ∈ s.head?, isBlank c = false)
    (hlabelMark : label = none → mayHaveLabel = true → labelMark s = none) :
    (if mayHaveLabel then
        optionally labelMark (TypeExpr.writeDecorations [] false label ++ s)
      else (none, TypeExpr.writeDecorations [] false label ++ s)) = (label, s) := by
  cases label with
  | none =>
      cases mayHaveLabel with
      | false => rfl
      | true => simp [TypeExpr.writeDecorations, optionally, hlabelMark rfl rfl]
  | some l =>
      obtain ⟨hl, rfl⟩ := hlabel l rfl
      simp [TypeExpr.writeDecorations, optionally, labelMark_write hl hs]

theorem head_writeLabel
    (hlabel : ∀ l ∈ label, IsIdentifier l.toList)
    (hs : label = none → ∀ c ∈ s.head?, isBlank c = false ∧ c ≠ '@') :
    ∀ c ∈ (TypeExpr.writeDecorations [] false label ++ s).head?, isBlank c = false ∧ c ≠ '@' := by
  cases label with
  | none => exact hs rfl
  | some l =>
      obtain ⟨hne, hall⟩ := hlabel l rfl
      intro c hc
      have hident : isIdentifierChar c := by
        refine hall c ?_
        cases hl : l.toList with
        | nil => exact absurd hl hne
        | cons d rest => simp_all [TypeExpr.writeDecorations]
      exact ⟨not_isBlank_of_isIdentifierChar hident, ne_of_isIdentifierChar hident (by decide)⟩

/-- The `inout` mark in front of a type and its label is read, if there is one. -/
theorem optionally_inoutMark_write
    (hlabel : ∀ l ∈ label, IsIdentifier l.toList)
    (hs : ∀ c ∈ s.head?, isBlank c = false)
    (hinout : isInout = false → label = none → inoutMark s = none) :
    optionally inoutMark (TypeExpr.writeDecorations [] isInout label ++ s) =
      (if isInout then some () else none, TypeExpr.writeDecorations [] false label ++ s) := by
  cases isInout with
  | true =>
      have htext : TypeExpr.writeDecorations [] true label ++ s =
          "inout ".toList ++ (TypeExpr.writeDecorations [] false label ++ s) := by
        simp [TypeExpr.writeDecorations]
      have hhead : ∀ c ∈ (TypeExpr.writeDecorations [] false label ++ s).head?,
          isBlank c = false := by
        cases label with
        | none => exact hs
        | some l => exact fun c hc => (head_writeLabel hlabel (by simp) c hc).1
      rw [htext, optionally, inoutMark_write hhead]
      rfl
  | false =>
      have hnone : inoutMark (TypeExpr.writeDecorations [] false label ++ s) = none := by
        cases label with
        | none => exact hinout rfl rfl
        | some l =>
            have hmark : inoutMark (l.toList ++ ':' :: ' ' :: s) = none :=
              inoutMark_append (hlabel l rfl) (by simp; decide) fun _ => by simp; decide
            simpa [TypeExpr.writeDecorations] using hmark
      rw [optionally, hnone]
      rfl

/-- Decorations that come back are read up to where the type begins. -/
theorem withDecorations_write (hnormal : ∀ a ∈ attributes, a.Normal)
    (henclosed : ∀ a ∈ attributes, a.Enclosed) (h : ∀ a ∈ attributes, a.respells)
    (hlabel : ∀ l ∈ label, IsIdentifier l.toList ∧ mayHaveLabel = true)
    (hs : ∀ c ∈ s.head?, isBlank c = false)
    (hattribute : isInout = false → label = none → ∀ c ∈ s.head?, c ≠ '@')
    (hinout : isInout = false → label = none → inoutMark s = none)
    (hlabelMark : label = none → mayHaveLabel = true → labelMark s = none) :
    withDecorations mayHaveLabel inner
        (TypeExpr.writeDecorations attributes isInout label ++ s) =
      (inner s).map fun (t, rest) =>
        (decorate (attributes.map (·.respelled)) isInout label t, rest) := by
  have hidentifier : ∀ l ∈ label, IsIdentifier l.toList := fun l hl => (hlabel l hl).1
  have hhead : ∀ c ∈ (TypeExpr.writeDecorations [] isInout label ++ s).head?,
      isBlank c = false ∧ c ≠ '@' := by
    cases isInout with
    | true => simp [TypeExpr.writeDecorations]; decide
    | false =>
        exact head_writeLabel hidentifier fun hl c hc => ⟨hs c hc, hattribute rfl hl c hc⟩
  rw [writeDecorations_append, withDecorations, many_attributeMark_write hnormal henclosed h hhead]
  dsimp only
  rw [optionally_inoutMark_write hidentifier hs hinout]
  dsimp only
  rw [optionally_labelMark_write hlabel hs hlabelMark]
  cases isInout <;> rfl

/-- Behind an attribute that does not come back nothing is read. -/
theorem withDecorations_write_of_not (hnormal : ∀ a ∈ attributes, a.Normal)
    (henclosed : ∀ a ∈ attributes, a.Enclosed) (h : ¬ ∀ a ∈ attributes, a.respells) :
    withDecorations mayHaveLabel core
      (TypeExpr.writeDecorations attributes isInout label ++ s) = none := by
  rw [writeDecorations_append]
  obtain ⟨read, rest, hattributes⟩ := many_attributeMark_write_of_not
    (TypeExpr.writeDecorations [] isInout label ++ s) hnormal henclosed h
  have hinout : inoutMark ('(' :: ',' :: rest) = none := inoutMark_of_head (by simp)
  have hlabel : labelMark ('(' :: ',' :: rest) = none := labelMark_of_head (by simp; decide)
  cases mayHaveLabel <;>
    simp [withDecorations, hattributes, optionally, hinout, hlabel, core_of_empty_element]

end SwiftSurface.Grammar
