import SwiftSurface.Proofs.Grammar.Closure

/-!
# Reading a written type with its decorations

A written type is its decorations with the text of the type behind them. If no decoration can be
read from the first word of that text, then the decorations carry the reading of the text over to
the whole (`outcome_of_core`). The exception is a first word `inout` with a blank behind it: then
a type of another frame is read, if any.
-/

namespace SwiftSurface

open Grammar SwiftSurface.Parser Text

theorem TypeExpr.respells_iff {t : TypeExpr} :
    t.respells = true ↔
      ((∀ a ∈ t.attributes, a.respells) ∧ ∀ a ∈ t.shape.argumentAttributes, a.respells) ∧
      (t.isInout = false → t.label = none → t.shape.leadingName? ≠ some "inout") ∧
      (t.shape.argumentAttributes = [] ∨ t.isInout = false ∧ t.label = none) ∧
      t.coreRespells = true := by
  obtain ⟨shape, generics, attributes, isInout, label⟩ := t
  have hall : (∀ a ∈ attributes ++ shape.argumentAttributes, a.respells) ↔
      (∀ a ∈ attributes, a.respells) ∧ ∀ a ∈ shape.argumentAttributes, a.respells := by
    simp only [List.mem_append]
    grind
  simp only [respells, coreRespells, Bool.and_eq_true, List.all_eq_true, hall, Bool.or_eq_true,
    List.isEmpty_iff, Bool.not_eq_true', bne_iff_ne, and_assoc]
  cases isInout <;> cases label <;> simp

namespace Grammar

/-! ## The first word of a type -/

/-- A path is read as the `inout` mark just if it is that word and a blank follows. -/
theorem inoutMark_path {cs tail : List Char} (h : IsPath cs)
    (htail : ∀ c ∈ tail.head?, isIdentifierChar c = false)
    (hinout : cs = "inout".toList → ∀ c ∈ tail.head?, isBlank c = false) :
    inoutMark (cs ++ tail) = none := by
  obtain ⟨first, more, hfirst, -, rfl⟩ := h
  cases more with
  | nil =>
      simp only [List.flatMap_nil, List.append_nil] at hinout ⊢
      exact inoutMark_append hfirst htail hinout
  | cons name more =>
      rw [List.append_assoc]
      exact inoutMark_append hfirst (by simp; decide) fun _ => by simp; decide

theorem labelMark_path {cs tail : List Char} (h : IsPath cs)
    (htail : ∀ c ∈ tail.head?, isIdentifierChar c = false)
    (hcolon : ∀ c ∈ (skipBlanks tail).head?, c ≠ ':') : labelMark (cs ++ tail) = none := by
  obtain ⟨first, more, hfirst, -, rfl⟩ := h
  rw [List.append_assoc]
  cases more with
  | nil => exact labelMark_append hfirst htail hcolon
  | cons name more =>
      refine labelMark_append hfirst (by simp; decide) ?_
      rw [skipBlanks_of_head (by simp; decide)]
      simp

/-- No decoration but perhaps the `inout` mark is read from the text. -/
structure Undecorated (s : List Char) : Prop where
  head : ∀ c ∈ s.head?, isBlank c = false ∧ c ≠ '@'
  label : labelMark s = none

theorem undecorated_of_paren (s : List Char) : Undecorated ('(' :: s) :=
  ⟨by simp; decide, labelMark_of_head (by simp; decide)⟩

theorem undecorated_path {cs tail : List Char} (h : IsPath cs)
    (htail : ∀ c ∈ tail.head?, isIdentifierChar c = false)
    (hcolon : ∀ c ∈ (skipBlanks tail).head?, c ≠ ':') : Undecorated (cs ++ tail) := by
  refine ⟨fun c hc => ?_, labelMark_path h htail hcolon⟩
  obtain ⟨d, hd, hident⟩ := head_append_of_opens tail (head_of_isPath h)
  obtain rfl := Option.some.inj (hd.symm.trans hc)
  exact ⟨not_isBlank_of_isIdentifierChar hident, ne_of_isIdentifierChar hident (by decide)⟩

/-- A written nominal path, where the mark is not read unless a blank follows the bare word. -/
theorem undecorated_named {name : String} {inner : Option TypeExpr} {generics : List TypeExpr}
    (attributes : List Attribute) (isInout : Bool) (label : Option String) {rest : List Char}
    (h : (Shape.named ⟨name, inner⟩).Regular generics) (hrest : Breaks rest)
    (hcolon : ∀ c ∈ (skipBlanks rest).head?, c ≠ ':') :
    let text := TypeExpr.writeCore ⟨.named ⟨name, inner⟩, generics, attributes, isInout, label⟩ ++
      rest
    Undecorated text ∧ ((name = "inout" → generics = [] → ∀ c ∈ rest.head?, isBlank c = false) →
      inoutMark text = none) := by
  intro text
  have hpath := h.1
  cases generics with
  | nil =>
      obtain rfl : inner = none := h.inner_eq_none
      have htext : text = name.toList ++ rest := by simp [text, TypeExpr.writeCore_named]
      rw [htext]
      refine ⟨undecorated_path hpath hrest.not_ident hcolon, fun hinout => ?_⟩
      exact inoutMark_path hpath hrest.not_ident
        fun hname => hinout (String.toList_inj.1 hname) rfl
  | cons t generics =>
      obtain ⟨tail, htext⟩ : ∃ tail, text = name.toList ++ '<' :: tail := by
        simp only [text, TypeExpr.writeCore, Shape.write, NameStyle.spell, List.append_assoc,
          writeGenerics_cons]
        exact ⟨_, rfl⟩
      rw [htext]
      refine ⟨undecorated_path hpath (by simp; decide) ?_, fun _ => ?_⟩
      · rw [skipBlanks_of_head (by simp; decide)]
        simp
      · exact inoutMark_path hpath (by simp; decide) fun _ => by simp; decide

/-- A written composition, where the mark is not read unless a blank follows the word. -/
theorem undecorated_composition {first : NamedType} {more : List NamedType}
    (attributes : List Attribute) (isInout : Bool) (label : Option String) {rest : List Char}
    (h : (Shape.composition (first :: more)).Regular []) (hrest : Breaks rest)
    (hcolon : ∀ c ∈ (skipBlanks rest).head?, c ≠ ':') :
    let text := TypeExpr.writeCore
      ⟨.composition (first :: more), [], attributes, isInout, label⟩ ++ rest
    text = first.name.toList ++ (writeMoreConstituents more ++ rest) ∧ Undecorated text ∧
      ((first.name = "inout" → more = [] ∧ ∀ c ∈ rest.head?, isBlank c = false) →
        inoutMark text = none) := by
  intro text
  obtain ⟨-, -, hnames⟩ := h
  have hpath := (hnames first (by simp)).1
  have htext : text = first.name.toList ++ (writeMoreConstituents more ++ rest) := by
    simp [text, TypeExpr.writeCore_composition fun c hc => (hnames c hc).2]
  have hbreaks := breaks_writeMoreConstituents more hrest
  have hcolon' : ∀ c ∈ (skipBlanks (writeMoreConstituents more ++ rest)).head?, c ≠ ':' := by
    cases more with
    | nil => simpa [writeMoreConstituents] using hcolon
    | cons type more =>
        simp only [writeMoreConstituents, List.flatMap_cons, List.cons_append]
        rw [skipBlanks_blank, skipBlanks_of_head (by simp; decide)]
        simp
  refine ⟨htext, ?_, fun hinout => ?_⟩
  · rw [htext]
    exact undecorated_path hpath hbreaks.not_ident hcolon'
  · rw [htext]
    refine inoutMark_path hpath hbreaks.not_ident fun hname => ?_
    obtain ⟨rfl, hblank⟩ := hinout (String.toList_inj.1 hname)
    simpa [writeMoreConstituents] using hblank

/-! ## Decorated types -/

theorem outline_decorate (attributes : List Attribute) (isInout : Bool) (label : Option String)
    (t : TypeExpr) :
    (decorate attributes isInout label t).outline = (label.or t.label, t.outline.2) := rfl

/-- A type of another frame than `t` less its decorations has another one behind the decorations
too. -/
theorem other_decorate {t u : TypeExpr} (h : t.OtherCore u) (attributes : List Attribute) :
    t.Other (decorate attributes t.isInout t.label u) := by
  have hne := h.frame_ne
  obtain ⟨hinout, houtline, -⟩ := h
  obtain ⟨shape, generics, attributes', isInout, label⟩ := t
  obtain ⟨shape', generics', attributes'', isInout', label'⟩ := u
  obtain rfl : isInout' = false := hinout
  obtain ⟨hlabel, hkind⟩ := Prod.mk.inj houtline
  obtain rfl : label' = none := hlabel
  refine ⟨?_, fun hframe => hne ?_⟩
  · rw [outline_decorate, Option.or_none]
    exact Prod.ext rfl hkind
  · simp only [decorate, TypeExpr.frame_mk, TypeExpr.mk.injEq, TypeExpr.bare,
      Bool.or_false] at hframe ⊢
    simp [hframe.1, hframe.2.1]

/-- The decorations of a type carry the reading of the rest over to the whole. -/
theorem outcome_decorate {t expected : TypeExpr} {comesBack : Bool} {rest : List Char}
    {result : Option (TypeExpr × List Char)} {attributes : List Attribute}
    (h : CoreOutcome t comesBack expected rest result) (hback : t.respells = comesBack)
    (hexpected : comesBack = true → decorate attributes t.isInout t.label expected = t.reread) :
    Outcome t.respells t.reread t.Other (fun r => Stuck (skipBlanks r)) rest
      (result.map fun (u, rest) => (decorate attributes t.isInout t.label u, rest)) := by
  rw [hback]
  rcases h with ⟨hcore, rfl⟩ | ⟨hcore, rfl | ⟨u, r, rfl, hstuck | ⟨rfl, hother⟩⟩⟩
  · exact .inl ⟨hcore, by simp [hexpected hcore]⟩
  · exact .inr ⟨hcore, .inl rfl⟩
  · exact .inr ⟨hcore, .inr ⟨_, r, rfl, .inl hstuck⟩⟩
  · exact .inr ⟨hcore, .inr ⟨_, r, rfl, .inr ⟨rfl, other_decorate hother attributes⟩⟩⟩

/-- Decorations that come back in front of a text from which no more of them are read. -/
theorem withDecorations_undecorated {mayHaveLabel isInout : Bool} {attributes : List Attribute}
    {label : Option String} {s : List Char} (hnormal : ∀ a ∈ attributes, a.Normal)
    (henclosed : ∀ a ∈ attributes, a.Enclosed) (h : ∀ a ∈ attributes, a.respells)
    (hlabel : ∀ l ∈ label, IsIdentifier l.toList ∧ mayHaveLabel = true) (hs : Undecorated s)
    (hinout : isInout = false → label = none → inoutMark s = none) :
    withDecorations mayHaveLabel core (TypeExpr.writeDecorations attributes isInout label ++ s) =
      (core s).map fun (t, rest) =>
        (decorate (attributes.map (·.respelled)) isInout label t, rest) :=
  withDecorations_write hnormal henclosed h hlabel (fun c hc => (hs.head c hc).1)
    (fun _ _ c hc => (hs.head c hc).2) hinout fun _ _ => hs.label

/-- Behind a mark that is not its own an expression is read as a type of another frame, if at
all. -/
theorem outcome_of_mark {t : TypeExpr} {mayHaveLabel : Bool} {attributes : List Attribute}
    {s rest : List Char} (hnormal : ∀ a ∈ attributes, a.Normal)
    (henclosed : ∀ a ∈ attributes, a.Enclosed) (h : ∀ a ∈ attributes, a.respells)
    (hinout : t.isInout = false) (hlabel : t.label = none) (hs : Undecorated s)
    (hcore : core s = none ∨ ∃ u r, core s = some (u, r) ∧
      (Stuck (skipBlanks r) ∨ r = rest ∧ u.outline = t.outline)) :
    Outcome false t.reread t.Other (fun r => Stuck (skipBlanks r)) rest
      (withDecorations mayHaveLabel core
        (TypeExpr.writeDecorations attributes true none ++ s)) := by
  rw [withDecorations_undecorated hnormal henclosed h (by simp) hs (by simp)]
  rcases hcore with hcore | ⟨u, r, hcore, hr⟩
  · exact .inr ⟨rfl, .inl (by rw [hcore, Option.map_none])⟩
  · refine .inr ⟨rfl, .inr ⟨_, r, by rw [hcore, Option.map_some], hr.imp_right ?_⟩⟩
    rintro ⟨rfl, houtline⟩
    refine ⟨rfl, ?_, fun hframe => ?_⟩
    · rwa [outline_decorate, Option.none_or]
    · have := congrArg TypeExpr.isInout hframe
      obtain ⟨shape, generics, attributes, isInout, label⟩ := t
      simp_all [decorate, TypeExpr.frame_mk]

/-- A first word that is taken for the mark. -/
theorem writeDecorations_leading {t : TypeExpr} (hinout : t.isInout = false)
    (hlabel : t.label = none) (s : List Char) :
    TypeExpr.writeDecorations t.attributes t.isInout t.label ++ ("inout ".toList ++ s) =
      TypeExpr.writeDecorations t.attributes true none ++ s := by
  simp [TypeExpr.writeDecorations, hinout, hlabel]

/-- A type whose core has been read, with its decorations. -/
theorem outcome_of_core {t : TypeExpr} {mayHaveLabel comesBack : Bool} {expected : TypeExpr}
    {s rest : List Char} (hnode : t.RegularNode) (henclosed : t.EnclosedNode)
    (hlabel : t.label.isSome → mayHaveLabel = true) (hs : Undecorated s)
    (hcore : CoreOutcome t comesBack expected rest (core s))
    (hnone : t.shape.argumentAttributes = [])
    (hback : t.coreRespells = comesBack)
    (hexpected : decorate (t.attributes.map (·.respelled)) t.isInout t.label expected =
      t.reread)
    (hinout : t.shape.leadingName? ≠ some "inout" → inoutMark s = none)
    (hleading : t.shape.leadingName? = some "inout" → t.isInout = false → t.label = none →
      (∀ a ∈ t.attributes, a.respells) →
      Outcome false t.reread t.Other (fun r => Stuck (skipBlanks r)) rest
        (withDecorations mayHaveLabel core
          (TypeExpr.writeDecorations t.attributes t.isInout t.label ++ s))) :
    Outcome t.respells t.reread t.Other (fun r => Stuck (skipBlanks r)) rest
      (withDecorations mayHaveLabel core
        (TypeExpr.writeDecorations t.attributes t.isInout t.label ++ s)) := by
  by_cases hattributes : ∀ a ∈ t.attributes, a.respells
  case neg =>
      -- the parameters that do not come back are left, and no type begins there
      have hnot : t.respells = false := by
        rw [← Bool.not_eq_true, TypeExpr.respells_iff]
        exact fun h => hattributes h.1.1
      rw [withDecorations_write_of_not hnode.attributes henclosed hattributes]
      exact .inr ⟨hnot, .inl rfl⟩
  by_cases hlead : t.shape.leadingName? = some "inout" ∧ t.isInout = false ∧ t.label = none
  case pos =>
      -- the first word is taken for the mark
      obtain ⟨hname, hisInout, hnoLabel⟩ := hlead
      have hnot : t.respells = false := by
        rw [← Bool.not_eq_true, TypeExpr.respells_iff]
        exact fun h => h.2.1 hisInout hnoLabel hname
      rw [hnot]
      exact hleading hname hisInout hnoLabel hattributes
  have hrespells : t.respells = comesBack := by
    rw [← hback, Bool.eq_iff_iff, TypeExpr.respells_iff, hnone]
    simp only [List.not_mem_nil, false_implies, implies_true, and_true, true_or, true_and]
    grind
  rw [withDecorations_undecorated hnode.attributes henclosed hattributes ?_ hs ?_]
  · exact outcome_decorate hcore hrespells fun _ => hexpected
  · exact fun l hl => ⟨hnode.label l hl, hlabel (by simp [Option.mem_def.1 hl])⟩
  · exact fun hisInout hnoLabel => hinout fun hname => hlead ⟨hname, hisInout, hnoLabel⟩

theorem decorate_reread {t : TypeExpr} (h : t.shape.argumentAttributes = []) :
    decorate (t.attributes.map (·.respelled)) t.isInout t.label t.reread.bare = t.reread := by
  obtain ⟨shape, generics, attributes, isInout, label⟩ := t
  simp_all [decorate, TypeExpr.bare, TypeExpr.reread_mk]

theorem undecorated_of_head {s : List Char}
    (h : ∀ c ∈ s.head?, isBlank c = false ∧ isIdentifierChar c = false ∧ c ≠ '@') :
    Undecorated s :=
  ⟨fun c hc => ⟨(h c hc).1, (h c hc).2.2⟩, labelMark_of_head fun c hc => (h c hc).2.1⟩

/-- An operand is read back with its decorations. -/
theorem readsBack_of_operand {t : TypeExpr} {mayHaveLabel : Bool} (hnode : t.RegularNode)
    (henclosed : t.EnclosedNode) (hlabel : t.label.isSome → mayHaveLabel = true)
    (hkind : t.kind ≠ .closure) (h : OperandReadsBack t) : ReadsBack mayHaveLabel t := by
  intro rest hrest
  have hcore := core_of_operandReadsBack h hrest
  have hcolon := hrest.skipBlanks_ne (d := ':') (by decide)
  have hblank : ∀ c ∈ rest.head?, isBlank c = false := by
    intro c hc
    rcases hrest c hc with rfl | rfl | rfl <;> decide
  have hnone : t.shape.argumentAttributes = [] := by
    obtain ⟨shape, generics, attributes, isInout, label⟩ := t
    cases shape <;> simp_all [Shape.argumentAttributes, TypeExpr.kind, Shape.kind]
  rw [TypeExpr.write_eq, List.append_assoc]
  have hshape := hnode.shape
  have hdecorate := decorate_reread hnone
  obtain ⟨shape, generics, attributes, isInout, label⟩ := t
  cases shape with
  | named type =>
      obtain ⟨name, inner⟩ := type
      obtain ⟨hs, hinout⟩ := undecorated_named attributes isInout label hshape hrest.breaks hcolon
      exact outcome_of_core hnode henclosed hlabel hs hcore hnone rfl hdecorate
        (fun _ => hinout fun _ _ => hblank) (by simp [Shape.leadingName?])
  | tuple elements =>
      obtain rfl : generics = [] := hshape.1
      rw [TypeExpr.writeCore_tuple] at hcore ⊢
      exact outcome_of_core hnode henclosed hlabel (undecorated_of_paren _) hcore hnone rfl
        hdecorate (fun _ => inoutMark_of_head (by simp)) (by simp [Shape.leadingName?])
  | closure => exact absurd rfl hkind
  | composition constituents =>
      obtain rfl : generics = [] := hshape.1
      cases constituents with
      | nil => exact absurd rfl hshape.2.1
      | cons first more =>
          obtain ⟨htext, hs, hinout⟩ := undecorated_composition attributes isInout label hshape
            hrest.breaks hcolon
          refine outcome_of_core hnode henclosed hlabel hs hcore hnone rfl hdecorate
            (fun hname => hinout fun hfirst => ?_) fun hname hisInout hnoLabel hattributes => ?_
          · cases more with
            | nil => exact ⟨rfl, hblank⟩
            | cons second more => simp [Shape.leadingName?, hfirst] at hname
          · cases more with
            | nil => simp [Shape.leadingName?] at hname
            | cons second more =>
                have hfirst : first.name = "inout" := by simpa [Shape.leadingName?] using hname
                obtain ⟨s, hs⟩ : ∃ s, writeMoreConstituents (second :: more) ++ rest =
                    ' ' :: '&' :: s := by
                  simp [writeMoreConstituents]
                rw [htext, hfirst, hs, show "inout".toList ++ ' ' :: '&' :: s =
                  "inout ".toList ++ '&' :: s from rfl, writeDecorations_leading hisInout hnoLabel]
                exact outcome_of_mark hnode.attributes henclosed hattributes hisInout hnoLabel
                  (undecorated_of_head (by simp; decide))
                  (.inl (core_of_head (by simp; decide)))

end Grammar

end SwiftSurface
