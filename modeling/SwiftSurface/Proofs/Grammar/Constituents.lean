import Mathlib.Data.List.Forall2
import SwiftSurface.Proofs.Grammar.Accepted
import SwiftSurface.Proofs.Grammar.Grouping

/-!
# The operands of compositions

Accepted texts in parentheses with `&` between them are read as a composition just if each of them
spells a name, without generic arguments and without a label; such a name has no inner type. The
composition has the names and nothing else. What else an operand may carry, its attributes and its
`inout` mark, is neither kept nor refused (`parse_operands`).
-/

namespace SwiftSurface

open Grammar SwiftSurface.Parser Text

/-- A name, with attributes and `inout` in front of it or without them. -/
def TypeExpr.IsDecoratedName (name : String) (t : TypeExpr) : Prop :=
  t.shape = .named ⟨name, none⟩ ∧ t.generics = [] ∧ t.label = none

/-- A decorated name is a name alone if nothing stands in front of it. -/
theorem TypeExpr.IsDecoratedName.eq_iff {name : String} {t : TypeExpr} (h : t.IsDecoratedName name) :
    t = ofShape (.named ⟨name, none⟩) ↔ t.attributes = [] ∧ t.isInout = false := by
  obtain ⟨shape, generics, attributes, isInout, label⟩ := t
  obtain ⟨rfl, rfl, rfl⟩ := h
  simp [ofShape]

namespace Grammar

/-! ## Reading operands in parentheses -/

section Operands

variable {s rest : List Char} {t : TypeExpr} {pieces : List (List Char × TypeExpr)}

/-- The texts in parentheses, each behind the mark that joins it to another one. -/
def moreOperands (pieces : List (List Char × TypeExpr)) : List Char :=
  pieces.flatMap fun piece => " & (".toList ++ piece.1 ++ [')']

/-- Two or more texts in parentheses, with `&` between them. -/
theorem toList_operands (first : String × TypeExpr) (more : List (String × TypeExpr)) :
    (" & ".intercalate ((first :: more).map fun piece => "(" ++ piece.1 ++ ")")).toList =
      '(' :: (first.1.toList ++ ')' ::
        moreOperands (more.map fun piece => (piece.1.toList, piece.2))) := by
  induction more generalizing first with
  | nil => simp [moreOperands]
  | cons second more ih =>
      have hmore := ih second
      simp only [List.map_cons] at hmore ⊢
      rw [String.intercalate_cons_cons, String.toList_append, hmore]
      simp [moreOperands]

theorem atom_of_spells (h : Spells true s t) (hrest : ∀ c ∈ rest.head?, c ≠ '?' ∧ c ≠ '!') :
    atom core ('(' :: (s ++ ')' :: rest)) = some (groupOf [t], rest) := by
  have hgroup := group_of_spells h rest
  rw [← atomRule_of_paren] at hgroup
  exact atom_of_rule hgroup hrest

theorem head_moreOperands (pieces : List (List Char × TypeExpr)) :
    ∀ c ∈ (moreOperands pieces).head?, c ≠ '?' ∧ c ≠ '!' := by
  cases pieces <;> simp [moreOperands]

theorem many_moreOperands (h : ∀ piece ∈ pieces, Spells true piece.1 piece.2) :
    many (after (padded (char '&')) (atom core)) (moreOperands pieces) =
      (pieces.map fun piece => groupOf [piece.2], []) := by
  induction pieces with
  | nil => exact many_of_none (by decide)
  | cons piece pieces ih =>
      have hatom := atom_of_spells (h piece (by simp)) (head_moreOperands pieces)
      have htext : moreOperands (piece :: pieces) =
          ' ' :: '&' :: ' ' :: '(' :: (piece.1 ++ ')' :: moreOperands pieces) := by
        simp [moreOperands]
      have hmark : padded (char '&') (moreOperands (piece :: pieces)) =
          some ((), '(' :: (piece.1 ++ ')' :: moreOperands pieces)) := by
        rw [htext, padded_blank, padded_char_self (by decide), skipBlanks_blank_of_head]
        simp; decide
      have hread : after (padded (char '&')) (atom core) (moreOperands (piece :: pieces)) =
          some (groupOf [piece.2], moreOperands pieces) := by
        rw [after, hmark]
        exact hatom
      rw [many_of_some hread ?_, ih fun piece hpiece => h piece (by simp [hpiece])]
      · rfl
      · rw [htext]
        simp only [List.length_cons, List.length_append]
        omega

theorem composition_moreOperands {piece : List Char × TypeExpr}
    (h : ∀ next ∈ piece :: pieces, Spells true next.1 next.2) :
    composition core ('(' :: (piece.1 ++ ')' :: moreOperands pieces)) =
      (compositionOf (groupOf [piece.2]) (pieces.map fun next => groupOf [next.2])).map
        fun t => (t, []) := by
  have hfirst := atom_of_spells (h piece (by simp)) (head_moreOperands pieces)
  have hmore := many_moreOperands fun next (hnext : next ∈ pieces) => h next (by simp [hnext])
  simp [composition_eq, hfirst, hmore]

/-- A text that begins with a parenthesis has no decorations of its own, so it is read as what its
operands make of it. -/
theorem spells_iff_of_composition {result : Option TypeExpr} {mayHaveLabel : Bool}
    (h : composition core ('(' :: s) = result.map fun t => (t, [])) :
    Spells mayHaveLabel ('(' :: s) t ↔ result = some t := by
  have hcore : core ('(' :: s) = result.map fun t => (t, []) := by
    cases result with
    | none => exact core_of_refused h
    | some u => exact core_of_operand h (by simp [skipBlanks])
  have hread : withDecorations mayHaveLabel core ('(' :: s) = result.map fun t => (t, []) := by
    have hwritten := @withDecorations_undecorated mayHaveLabel false [] none ('(' :: s) (by simp)
      (by simp) (by simp) (by simp) (undecorated_of_paren s) fun _ _ => inoutMark_of_head (by simp)
    simp only [TypeExpr.writeDecorations, List.flatMap_nil, List.nil_append, List.map_nil, hcore,
      Bool.false_eq_true, if_false, Option.map_map, Function.comp_def, decorate_nothing] at hwritten
    exact hwritten
  have hskip : skipBlanks ('(' :: s) = '(' :: s := skipBlanks_of_head (by simp; decide)
  show padded (withDecorations mayHaveLabel core) ('(' :: s) = some (t, []) ↔ result = some t
  simp only [padded, hskip, hread]
  cases result <;> simp [skipBlanks]

end Operands

/-! ## What an operand gives -/

section Constituents

variable {t : TypeExpr} {pieces : List (String × TypeExpr)}

/-- In parentheses, a type of an accepted text gives a constituent if it is a name without generic
arguments and without a label. -/
theorem constituentOf_groupOf {type : NamedType} (hnormal : t.Everywhere TypeExpr.NormalNode) :
    constituentOf (groupOf [t]) = some type ↔ t.IsDecoratedName type.name ∧ type.inner = none := by
  cases hlabel : t.label with
  | some label =>
      simp [groupOf, hlabel, constituentOf, TypeExpr.tuple, TypeExpr.ofShape, TypeExpr.named?,
        TypeExpr.IsDecoratedName]
  | none =>
      rw [groupOf_unlabeled hlabel]
      constructor
      · intro h
        have hinner := (isTypeName_of_constituentOf ⟨hnormal, hlabel⟩ h).2
        rw [constituentOf] at h
        split at h
        case isTrue hgenerics =>
            unfold TypeExpr.named? at h
            split at h
            case h_1 found heq =>
                obtain rfl := Option.some.inj h
                obtain ⟨name, inner⟩ := found
                obtain rfl : inner = none := hinner
                exact ⟨⟨heq, List.isEmpty_iff.1 hgenerics, hlabel⟩, rfl⟩
            case h_2 => exact absurd h (by simp)
        case isFalse => exact absurd h (by simp)
      · rintro ⟨⟨hshape, hgenerics, -⟩, hinner⟩
        obtain ⟨name, inner⟩ := type
        obtain rfl : inner = none := hinner
        simp [constituentOf, hgenerics, TypeExpr.named?, hshape]

theorem mapM_constituentOf_groupOf (types : List NamedType)
    (h : ∀ piece ∈ pieces, piece.2.Everywhere TypeExpr.NormalNode) :
    (pieces.map fun piece => groupOf [piece.2]).mapM constituentOf = some types ↔
      ∃ names : List String,
        List.Forall₂ (fun piece name => piece.2.IsDecoratedName name) pieces names ∧
        types = names.map fun name => ⟨name, none⟩ := by
  induction pieces generalizing types with
  | nil =>
      simp only [List.map_nil, List.mapM_nil, List.forall₂_nil_left_iff]
      grind
  | cons piece pieces ih =>
      have hfirst := fun type => @constituentOf_groupOf piece.2 type (h piece (by simp))
      have hmore := fun types => @ih types fun next hnext => h next (by simp [hnext])
      simp only [List.map_cons, List.mapM_cons, Option.bind_eq_bind, Option.bind_eq_some_iff,
        hfirst, hmore]
      constructor
      · rintro ⟨⟨name, inner⟩, ⟨hname, rfl⟩, types, ⟨names, hnames, rfl⟩, hr⟩
        exact ⟨name :: names, .cons hname hnames, (Option.some.inj hr).symm⟩
      · rintro ⟨names, hnames, rfl⟩
        cases hnames with
        | cons hname hnames => exact ⟨⟨_, none⟩, ⟨hname, rfl⟩, _, ⟨_, hnames, rfl⟩, rfl⟩

end Constituents

end Grammar

/-! ## Accepted texts -/

namespace TypeExpr

theorem parse_operands_iff {first second : String × TypeExpr} {more : List (String × TypeExpr)}
    (h : ∀ piece ∈ first :: second :: more, parse piece.1 = some piece.2) (u : TypeExpr) :
    parse (" & ".intercalate
        ((first :: second :: more).map fun piece => "(" ++ piece.1 ++ ")")) = some u ↔
      ∃ names : List String,
        List.Forall₂ (fun piece name => piece.2.IsDecoratedName name) (first :: second :: more)
          names ∧
        u = composition (names.map fun name => ⟨name, none⟩) := by
  have hspells : ∀ next ∈ (first :: second :: more).map fun piece => (piece.1.toList, piece.2),
      Spells true next.1 next.2 :=
    List.forall_mem_map.2 fun piece hpiece => parse_eq_some.1 (h piece hpiece)
  have hconstituents (types : List NamedType) := mapM_constituentOf_groupOf types
    fun piece hpiece => normal_of_parse (h piece hpiece)
  rw [parse_eq_some, toList_operands, spells_iff_of_composition (composition_moreOperands hspells)]
  simp only [List.map_cons] at hconstituents
  simp only [List.map_cons, List.map_map, Function.comp_def, compositionOf, Option.map_eq_some_iff,
    hconstituents]
  constructor
  · rintro ⟨types, ⟨names, hnames, rfl⟩, rfl⟩
    exact ⟨names, hnames, rfl⟩
  · rintro ⟨names, hnames, rfl⟩
    exact ⟨_, ⟨names, hnames, rfl⟩, rfl⟩

theorem exists_decoratedName {pieces : List (String × TypeExpr)} {names : List String}
    (h : List.Forall₂ (fun piece name => piece.2.IsDecoratedName name) pieces names) :
    ∀ piece ∈ pieces, ∃ name, piece.2.IsDecoratedName name := by
  induction h with
  | nil => simp
  | cons hname _ ih => exact List.forall_mem_cons.2 ⟨⟨_, hname⟩, ih⟩

/-- Accepted texts in parentheses with `&` between them are accepted if each of them spells a name
without generic arguments and without a label, and then they are read as the composition of these
names. Attributes and `inout` in front of a name are dropped: each operand is the name that the
composition keeps of it just if none of them has any. -/
theorem parse_operands {pieces : List (String × TypeExpr)} (hlength : 2 ≤ pieces.length)
    (h : ∀ piece ∈ pieces, parse piece.1 = some piece.2) :
    let text := " & ".intercalate (pieces.map fun piece => "(" ++ piece.1 ++ ")")
    (∀ u, parse text = some u ↔
      ∃ names : List String,
        List.Forall₂ (fun piece name => piece.2.IsDecoratedName name) pieces names ∧
        u = composition (names.map fun name => ⟨name, none⟩)) ∧
    (∀ u, parse text = some u →
      ((∀ piece ∈ pieces, piece.2.attributes = [] ∧ piece.2.isInout = false) ↔
        ∀ piece ∈ pieces, ∃ name, piece.2 = ofShape (.named ⟨name, none⟩))) := by
  intro text
  have hread : ∀ u, parse text = some u ↔
      ∃ names : List String,
        List.Forall₂ (fun piece name => piece.2.IsDecoratedName name) pieces names ∧
        u = composition (names.map fun name => ⟨name, none⟩) := by
    show ∀ u, parse (" & ".intercalate _) = some u ↔ _
    match pieces, hlength with
    | first :: second :: more, _ => exact parse_operands_iff h
  refine ⟨hread, fun u hu => ?_⟩
  obtain ⟨names, hnames, -⟩ := (hread u).1 hu
  constructor
  · intro hbare piece hpiece
    obtain ⟨name, hname⟩ := exists_decoratedName hnames piece hpiece
    exact ⟨name, hname.eq_iff.2 (hbare piece hpiece)⟩
  · intro hall piece hpiece
    obtain ⟨name, hname⟩ := hall piece hpiece
    rw [hname]
    exact ⟨rfl, rfl⟩

/-- The `inout` of the first operand and the attribute of the second one are dropped. -/
theorem parse_operands_decorated :
    parse "inout B" = some ((named "B").withInout true) ∧
    parse "@a A" = some ((named "A").withAttribute { name := "a" }) ∧
    parse "(inout B) & (@a A)" = some (composition [⟨"B", none⟩, ⟨"A", none⟩]) ∧
    ¬ ∀ piece ∈ [("inout B", (named "B").withInout true),
        ("@a A", (named "A").withAttribute { name := "a" })],
      ∃ name, piece.2 = ofShape (.named ⟨name, none⟩) := by
  have hinout : parse "inout B" = some ((named "B").withInout true) := by decide +kernel
  have hattribute : parse "@a A" = some ((named "A").withAttribute { name := "a" }) := by
    decide +kernel
  have hpieces : ∀ piece ∈ [("inout B", (named "B").withInout true),
      ("@a A", (named "A").withAttribute { name := "a" })], parse piece.1 = some piece.2 :=
    List.forall_mem_cons.2 ⟨hinout, List.forall_mem_singleton.2 hattribute⟩
  obtain ⟨hread, hkept⟩ := parse_operands (by decide) hpieces
  have hcomposition : parse "(inout B) & (@a A)" =
      some (composition [⟨"B", none⟩, ⟨"A", none⟩]) :=
    (hread _).2 ⟨["B", "A"], .cons ⟨rfl, rfl, rfl⟩ (.cons ⟨rfl, rfl, rfl⟩ .nil), rfl⟩
  refine ⟨hinout, hattribute, hcomposition, ?_⟩
  rw [← hkept _ hcomposition]
  simp [withInout]

end TypeExpr

end SwiftSurface
