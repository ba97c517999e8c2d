import SwiftSurface.Proofs.Grammar.Tokens
import SwiftSurface.Proofs.TypeExpr.Names
import SwiftSurface.Proofs.TypeExpr.Written

/-!
# Angle brackets in written expressions

A written expression is `Balanced`: each `<` in it has its `>`, if the `>` of an arrow and the
parameters of attributes are left out. So generic arguments end at the first `>` that closes them
(`Balanced.append_closing_inj`), whatever stands behind.
-/

namespace SwiftSurface

open Grammar Text

/-- Angle brackets match. The `>` of an arrow is none, nor is what stands in an attribute. -/
inductive Balanced : List Char → Prop where
  | nil : Balanced []
  | char {c : Char} {s : List Char} (hc : c ∉ ['<', '>', '-', '@']) (h : Balanced s) :
      Balanced (c :: s)
  | arrow {s : List Char} (h : Balanced s) : Balanced ('-' :: '>' :: s)
  | mark {a : Attribute} {s : List Char} (hname : IsIdentifier a.name.toList)
      (henclosed : a.Enclosed) (h : Balanced s) : Balanced (a.write ++ ' ' :: s)
  | brackets {inside s : List Char} (hinside : Balanced inside) (h : Balanced s) :
      Balanced ('<' :: (inside ++ '>' :: s))

theorem Balanced.append {s s' : List Char} (h : Balanced s) (h' : Balanced s') :
    Balanced (s ++ s') := by
  induction h with
  | nil => exact h'
  | char hc _ ih => exact .char hc ih
  | arrow _ ih => exact .arrow ih
  | mark hname henclosed _ ih =>
      rw [List.append_assoc]
      exact .mark hname henclosed ih
  | brackets hinside _ _ ih =>
      rw [List.cons_append, List.append_assoc]
      exact .brackets hinside ih

theorem balanced_of_forall {s : List Char} (h : ∀ c ∈ s, c ∉ ['<', '>', '-', '@']) :
    Balanced s := by
  induction s with
  | nil => exact .nil
  | cons c s ih => exact .char (h c (by simp)) (ih fun d hd => h d (by simp [hd]))

/-! ## Where a piece of the text ends -/

/-- Two pieces of one class of characters end at the first character outside it. -/
theorem append_inj_of_class {p : Char → Bool} {s s' x y : List Char} (hs : ∀ c ∈ s, p c)
    (hs' : ∀ c ∈ s', p c) (hx : ∀ c ∈ x.head?, p c = false) (hy : ∀ c ∈ y.head?, p c = false)
    (h : s ++ x = s' ++ y) : s = s' ∧ x = y := by
  have htake {s x : List Char} (hs : ∀ c ∈ s, p c) (hx : ∀ c ∈ x.head?, p c = false) :
      (s ++ x).takeWhile p = s := by
    rw [List.takeWhile_append_of_pos hs]
    cases x with
    | nil => simp
    | cons d x => simp [hx d rfl]
  have hfront : s = s' := by rw [← htake hs hx, h, htake hs' hy]
  exact ⟨hfront, by simpa [hfront] using h⟩

/-- An attribute as it is written: its name, and its parameters if it has any. -/
theorem Attribute.write_eq {a : Attribute} (henclosed : a.Enclosed) :
    ∃ s, a.write = '@' :: (a.name.toList ++ s) ∧
      (s = [] ∨ ∃ p, ')' ∉ p ∧ s = '(' :: (p ++ [')'])) := by
  obtain ⟨name, parameters⟩ := a
  cases parameters with
  | nil => exact ⟨[], by simp [write], .inl rfl⟩
  | cons first more =>
      refine ⟨_, rfl, .inr ⟨_, fun hmem => ?_, rfl⟩⟩
      rw [List.map_cons, joinChars_cons, List.mem_append, List.mem_flatMap] at hmem
      rcases hmem with hmem | ⟨p, hp, hmem⟩
      · exact henclosed first (by simp) hmem
      · obtain ⟨q, hq, rfl⟩ := List.mem_map.1 hp
        exact henclosed q (by simp [hq]) (by simpa using hmem)

/-- An attribute ends behind its name and its parameters. -/
theorem Attribute.write_append_inj {a b : Attribute} (ha : IsIdentifier a.name.toList)
    (hb : IsIdentifier b.name.toList) (ha' : a.Enclosed) (hb' : b.Enclosed) {x y : List Char}
    (h : a.write ++ ' ' :: x = b.write ++ ' ' :: y) : a.write = b.write ∧ x = y := by
  obtain ⟨s, hs, hp⟩ := write_eq ha'
  obtain ⟨s', hs', hp'⟩ := write_eq hb'
  have hhead {r z : List Char} (h : r = [] ∨ ∃ p, ')' ∉ p ∧ r = '(' :: (p ++ [')'])) :
      ∀ c ∈ (r ++ ' ' :: z).head?, isIdentifierChar c = false := by
    rcases h with rfl | ⟨p, -, rfl⟩ <;> simp <;> decide
  rw [hs, hs', List.cons_append, List.cons_append, List.append_assoc, List.append_assoc,
    List.cons.injEq] at h
  obtain ⟨hname, hrest⟩ := append_inj_of_class ha.2 hb.2 (hhead hp) (hhead hp') h.2
  rw [hs, hs', hname]
  rcases hp with rfl | ⟨p, hclose, rfl⟩ <;> rcases hp' with rfl | ⟨p', hclose', rfl⟩
  · simpa using hrest
  · simp at hrest
  · simp at hrest
  · simp only [List.cons_append, List.append_assoc, List.nil_append, List.cons.injEq, true_and]
      at hrest
    have hclass {p : List Char} (h : ')' ∉ p) : ∀ c ∈ p, (c != ')') = true :=
      fun c hc => bne_iff_ne.2 fun heq => h (heq ▸ hc)
    obtain ⟨rfl, hrest⟩ := append_inj_of_class (hclass hclose) (hclass hclose') (by simp) (by simp)
      hrest
    simpa using hrest

/-- The bracket that closes balanced text is found in one place only. -/
theorem Balanced.append_closing_inj {s s' x y : List Char} (h : Balanced s) (h' : Balanced s')
    (heq : s ++ '>' :: x = s' ++ '>' :: y) : s = s' ∧ x = y := by
  -- the first character tells which piece comes next
  induction h generalizing s' x y with
  | nil =>
      cases h' with
      | nil => exact ⟨rfl, (List.cons.inj heq).2⟩
      | _ => grind [Attribute.write]
  | char hc h ih =>
      cases h' with
      | char hc' h' =>
          obtain ⟨rfl, htail⟩ := List.cons.inj heq
          obtain ⟨rfl, rfl⟩ := ih h' htail
          exact ⟨rfl, rfl⟩
      | _ => grind [Attribute.write]
  | arrow h ih =>
      cases h' with
      | arrow h' =>
          obtain ⟨rfl, rfl⟩ := ih h' (by simpa using heq)
          exact ⟨rfl, rfl⟩
      | _ => grind [Attribute.write]
  | mark hname henclosed h ih =>
      cases h' with
      | mark hname' henclosed' h' =>
          rw [List.append_assoc, List.append_assoc] at heq
          obtain ⟨hwrite, htail⟩ := Attribute.write_append_inj hname hname' henclosed henclosed' heq
          obtain ⟨rfl, rfl⟩ := ih h' htail
          exact ⟨by rw [hwrite], rfl⟩
      | _ => grind [Attribute.write]
  | brackets hinside h ihinside ih =>
      cases h' with
      | brackets hinside' h' =>
          obtain ⟨rfl, htail⟩ := ihinside hinside' (by simpa using heq)
          obtain ⟨rfl, rfl⟩ := ih h' htail
          exact ⟨rfl, rfl⟩
      | _ => grind [Attribute.write]

/-! ## Written expressions -/

/-- Names are paths, labels and the names of attributes are identifiers, and no parameter of an
attribute holds the mark that closes the parameters. -/
structure TypeExpr.SpelledNode (t : TypeExpr) : Prop where
  named : ∀ type, t.shape = .named type → IsPath type.name.toList
  composition : ∀ types, t.shape = .composition types → ∀ type ∈ types, IsPath type.name.toList
  attributes : ∀ a ∈ t.attributes, IsIdentifier a.name.toList ∧ a.Enclosed
  label : ∀ label ∈ t.label, IsIdentifier label.toList

theorem balanced_of_isPathChar {cs : List Char} (h : ∀ c ∈ cs, isPathChar c) : Balanced cs := by
  refine balanced_of_forall fun c hc hmem => ?_
  have hmark : ∀ c ∈ ['<', '>', '-', '@'], isPathChar c = false := by
    simp only [List.forall_mem_cons, List.not_mem_nil, false_imp_iff, implies_true, and_true]
    decide
  exact absurd (h c hc) (by simp [hmark c hmem])

/-- A name is spelled with characters of its own. -/
theorem isPathChar_spell (style : NameStyle) {name : String} (h : IsPath name.toList) :
    ∀ c ∈ style.spell name, isPathChar c := by
  intro c hc
  cases style with
  | full => exact h.isPathChar c hc
  | short => exact h.isPathChar c (NamedType.mem_of_mem_unqualifiedName hc)

section Write

variable {style : NameStyle}

theorem balanced_writeDecorations {attributes : List Attribute} (isInout : Bool)
    {label : Option String} (h : ∀ a ∈ attributes, IsIdentifier a.name.toList ∧ a.Enclosed)
    (hlabel : ∀ l ∈ label, IsIdentifier l.toList) :
    Balanced (TypeExpr.writeDecorations attributes isInout label) := by
  induction attributes with
  | nil =>
      have hlabel : Balanced (TypeExpr.writeDecorations [] false label) := by
        cases label with
        | none => exact .nil
        | some l =>
            have hl : ∀ c ∈ l.toList, isPathChar c :=
              fun c hc => by simp [isPathChar, (hlabel l rfl).2 c hc]
            exact (balanced_of_isPathChar hl).append (balanced_of_forall (by simp))
      cases isInout with
      | false => exact hlabel
      | true => exact (balanced_of_forall (s := "inout ".toList) (by simp)).append hlabel
  | cons a attributes ih =>
      rw [TypeExpr.writeDecorations_cons]
      exact .mark (h a (by simp)).1 (h a (by simp)).2 (ih fun b hb => h b (by simp [hb]))

theorem balanced_writeAll {types : List TypeExpr} (h : ∀ t ∈ types, Balanced (t.write style)) :
    Balanced (TypeExpr.writeAll style types) := by
  induction types with
  | nil => exact .nil
  | cons t types ih =>
      have hcomma : Balanced (if types.isEmpty then [] else ", ".toList) := by
        split
        · exact .nil
        · exact balanced_of_forall (by simp)
      exact ((h t (by simp)).append hcomma).append (ih fun u hu => h u (by simp [hu]))

theorem balanced_writeConstituents {types : List NamedType}
    (hname : ∀ type ∈ types, IsPath type.name.toList)
    (hinner : ∀ t ∈ types.filterMap (·.inner), Balanced (t.write style)) :
    Balanced (TypeExpr.writeConstituents style types) := by
  induction types with
  | nil => exact .nil
  | cons type types ih =>
      have hspell := balanced_of_isPathChar (isPathChar_spell style (hname type (by simp)))
      have hand : Balanced (if types.isEmpty then [] else " & ".toList) := by
        split
        · exact .nil
        · exact balanced_of_forall (by simp)
      have hmore := ih (fun c hc => hname c (by simp [hc])) fun t ht => hinner t (by
        rw [List.filterMap_cons]
        split <;> simp [ht])
      obtain ⟨name, _ | inner⟩ := type
      · exact (hspell.append hand).append hmore
      · have hdot : Balanced ('.' :: inner.write style) :=
          .char (by decide) (hinner inner (by simp))
        exact ((hspell.append hdot).append hand).append hmore

theorem balanced_arrowText (throws : Bool) : Balanced (arrowText throws) := by
  have harrow : Balanced [' ', '-', '>', ' '] :=
    .char (by decide) (.arrow (balanced_of_forall (by simp)))
  cases throws with
  | false => exact harrow
  | true => exact (balanced_of_forall (s := " throws".toList) (by simp)).append harrow

/-- The angle brackets of a written expression match. -/
theorem balanced_write {t : TypeExpr} (h : t.Everywhere TypeExpr.SpelledNode) :
    Balanced (t.write style) := by
  induction h with
  | @node t here children ih =>
      obtain ⟨shape, generics, attributes, isInout, label⟩ := t
      have hdecorations := balanced_writeDecorations isInout here.attributes here.label
      have hgenerics : Balanced
          (if generics.isEmpty then [] else '<' :: TypeExpr.writeAll style generics ++ ['>']) := by
        split
        · exact .nil
        · exact .brackets (balanced_writeAll fun u hu => ih u (by simp [TypeExpr.children, hu]))
            .nil
      have hshape : Balanced (shape.write style) ∧ Balanced (shape.writeInner style) := by
        cases shape with
        | named type =>
            have hspell := balanced_of_isPathChar (isPathChar_spell style (here.named type rfl))
            obtain ⟨name, _ | inner⟩ := type
            · exact ⟨hspell, .nil⟩
            · have hinner := ih inner (by simp [TypeExpr.children, Shape.children])
              exact ⟨hspell, .char (by decide) hinner⟩
        | tuple elements =>
            have helements := balanced_writeAll fun u (hu : u ∈ elements) =>
              ih u (List.mem_append_right _ hu)
            exact ⟨.char (by decide) (helements.append (.char (by decide) .nil)), .nil⟩
        | closure arguments returns throws =>
            have harguments := ih arguments (by simp [TypeExpr.children, Shape.children])
            have hreturns := ih returns (by simp [TypeExpr.children, Shape.children])
            refine ⟨(Balanced.append ?_ (balanced_arrowText throws)).append hreturns, .nil⟩
            split
            · exact .char (by decide) (harguments.append (.char (by decide) .nil))
            · exact harguments
        | composition types =>
            exact ⟨balanced_writeConstituents (here.composition types rfl) fun u hu =>
              ih u (List.mem_append_right _ hu), .nil⟩
      exact ((hdecorations.append hshape.1).append hgenerics).append hshape.2

end Write

end SwiftSurface
