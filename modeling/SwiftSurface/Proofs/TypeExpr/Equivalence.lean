import Mathlib.Data.List.Forall2
import Mathlib.Data.List.Sort
import SwiftSurface.Proofs.TypeExpr.Respelling

/-!
# The two comparisons are equivalences

`TypeExpr.same` and `TypeExpr.sameUpToModule` compare normal forms. `TypeExpr.Agree` is the same
comparison made part by part: the names, the inner types, the generic arguments, the elements, the
arguments of closures as lists, and the constituents of compositions in their order. It holds
exactly where the normal forms are equal (`TypeExpr.agree_iff`), so both comparisons are
equivalences and the finer one implies the coarser.

`TypeExpr.Variant` relates expressions that are told apart by neither: they differ in attributes, in
labels and in the parentheses around a closure's only argument, at any nodes.
-/

namespace SwiftSurface

/-! ## Comparing part by part -/

/-- The constituents in the order in which they are compared. Without their modules they are sorted
again, and constituents of one name keep their order. -/
def NameStyle.order : NameStyle → List NamedType → List NamedType
  | .full, types => types
  | .short, types => types.insertionSort fun a b =>
      compare (NamedType.unqualifiedName a.name) (NamedType.unqualifiedName b.name) ≠ .gt

mutual

/-- The expressions agree part by part. Attributes and labels are no such parts. -/
inductive TypeExpr.Agree (style : NameStyle) : TypeExpr → TypeExpr → Prop where
  | node {shape shape' : Shape} {generics generics' : List TypeExpr}
      {attributes attributes' : List Attribute} {isInout : Bool} {label label' : Option String}
      (hshape : Shape.Agree style shape shape')
      (hgenerics : List.Forall₂ (TypeExpr.Agree style) generics generics') :
      TypeExpr.Agree style ⟨shape, generics, attributes, isInout, label⟩
        ⟨shape', generics', attributes', isInout, label'⟩

/-- The shapes agree part by part. -/
inductive Shape.Agree (style : NameStyle) : Shape → Shape → Prop where
  | named {type type' : NamedType} (h : NamedType.Agree style type type') :
      Shape.Agree style (.named type) (.named type')
  | tuple {elements elements' : List TypeExpr}
      (h : List.Forall₂ (TypeExpr.Agree style) elements elements') :
      Shape.Agree style (.tuple elements) (.tuple elements')
  | closure {arguments arguments' returns returns' : TypeExpr} {throws : Bool}
      (harguments : List.Forall₂ (TypeExpr.Agree style) arguments.asArguments
        arguments'.asArguments)
      (hreturns : TypeExpr.Agree style returns returns') :
      Shape.Agree style (.closure arguments returns throws) (.closure arguments' returns' throws)
  | composition {types types' : List NamedType}
      (h : List.Forall₂ (NamedType.Agree style) (style.order types) (style.order types')) :
      Shape.Agree style (.composition types) (.composition types')

/-- The names are spelled alike, and the inner types agree if there are any. -/
inductive NamedType.Agree (style : NameStyle) : NamedType → NamedType → Prop where
  | intro {name name' : String} {inner inner' : Option TypeExpr}
      (hname : style.spell name = style.spell name')
      (hinner : Option.Rel (TypeExpr.Agree style) inner inner') :
      NamedType.Agree style ⟨name, inner⟩ ⟨name', inner'⟩

end

/-! ## The normal forms of the two comparisons -/

/-- The normal form of an expression whose names count as they are spelled. -/
def TypeExpr.standard : NameStyle → TypeExpr → TypeExpr
  | .full, t => t.erase
  | .short, t => t.erase.unqualify

/-- The normal form of a shape. -/
def Shape.standard : NameStyle → Shape → Shape
  | .full, shape => shape.erase
  | .short, shape => shape.erase.unqualify

/-- The normal form of a named type. -/
def NamedType.standard (style : NameStyle) (type : NamedType) : NamedType :=
  ⟨String.ofList (style.spell type.name), type.inner.map (TypeExpr.standard style)⟩

theorem TypeExpr.same_iff (t u : TypeExpr) : t.same u ↔ t.standard .full = u.standard .full := by
  simp [same, standard]

theorem TypeExpr.sameUpToModule_iff (t u : TypeExpr) :
    t.sameUpToModule u ↔ t.standard .short = u.standard .short := by
  simp [sameUpToModule, standard]

theorem TypeExpr.unqualifyAll_eq_map (types : List TypeExpr) :
    TypeExpr.unqualifyAll types = types.map TypeExpr.unqualify := by
  induction types with
  | nil => rfl
  | cons t rest ih => simp [TypeExpr.unqualifyAll, ih]

theorem Shape.eraseConstituents_eq_map (types : List NamedType) :
    eraseConstituents types = types.map (NamedType.standard .full) := by
  induction types with
  | nil => rfl
  | cons type rest ih =>
      obtain ⟨name, _ | inner⟩ := type <;>
        simp [eraseConstituents, ih, NamedType.standard, NameStyle.spell, TypeExpr.standard]

theorem Shape.unqualifyConstituents_eq_map (types : List NamedType) :
    unqualifyConstituents (eraseConstituents types) = types.map (NamedType.standard .short) := by
  induction types with
  | nil => rfl
  | cons type rest ih =>
      obtain ⟨name, _ | inner⟩ := type <;>
        simp [eraseConstituents, unqualifyConstituents, ih, NamedType.standard, NameStyle.spell,
          TypeExpr.standard]

section Standard

variable (style : NameStyle)

theorem TypeExpr.standard_mk (shape : Shape) (generics : List TypeExpr)
    (attributes : List Attribute) (isInout : Bool) (label : Option String) :
    TypeExpr.standard style ⟨shape, generics, attributes, isInout, label⟩ =
      ⟨shape.standard style, generics.map (standard style), [], isInout, none⟩ := by
  cases style <;>
    simp [standard, Shape.standard, erase, unqualify, eraseAll_eq_map, unqualifyAll_eq_map,
      Function.comp_def]

theorem Shape.standard_named (type : NamedType) :
    (Shape.named type).standard style = .named (type.standard style) := by
  obtain ⟨name, inner⟩ := type
  cases style <;> cases inner <;>
    simp [standard, NamedType.standard, TypeExpr.standard, erase, unqualify, NameStyle.spell]

theorem Shape.standard_tuple (elements : List TypeExpr) :
    (Shape.tuple elements).standard style = .tuple (elements.map (TypeExpr.standard style)) := by
  cases style <;>
    simp [standard, TypeExpr.standard, erase, unqualify, TypeExpr.eraseAll_eq_map,
      TypeExpr.unqualifyAll_eq_map, Function.comp_def]

theorem Shape.standard_closure (arguments returns : TypeExpr) (throws : Bool) :
    (Shape.closure arguments returns throws).standard style =
      .closure (.tuple (arguments.asArguments.map (TypeExpr.standard style)))
        (returns.standard style) throws := by
  cases style with
  | full => exact Shape.erase_closure arguments returns throws
  | short =>
      simp [standard, TypeExpr.standard, Shape.erase_closure, unqualify, TypeExpr.unqualify,
        TypeExpr.tuple, TypeExpr.ofShape, TypeExpr.unqualifyAll_eq_map, Function.comp_def]

/-- The two ways to sort stably give the same order. -/
theorem NamedType.sortStably_eq (types : List NamedType) :
    sortStably types = types.insertionSort fun a b => compare a.name b.name ≠ .gt := by
  have hinsert (type : NamedType) (sorted : List NamedType) : type.insertStably sorted =
      sorted.orderedInsert (fun a b => compare a.name b.name ≠ .gt) type := by
    induction sorted with
    | nil => rfl
    | cons head rest ih => simp [insertStably, ih, ite_not]
  induction types with
  | nil => rfl
  | cons type types ih =>
      rw [List.insertionSort_cons, ← ih, ← hinsert]
      rfl

theorem Shape.standard_composition (types : List NamedType) :
    (Shape.composition types).standard style =
      .composition ((style.order types).map (NamedType.standard style)) := by
  cases style with
  | full => simp [standard, erase, eraseConstituents_eq_map, NameStyle.order]
  | short =>
      rw [standard, erase, unqualify, unqualifyConstituents_eq_map, NamedType.sortStably_eq,
        NameStyle.order]
      refine congrArg Shape.composition (List.map_insertionSort _ _ _ _ fun a _ b _ => ?_).symm
      simp [NamedType.standard, NameStyle.spell]

end Standard

/-! ## Agreement is equality of the normal forms -/

theorem forall₂_iff_map_eq {α β : Type} {R : α → α → Prop} {f : α → β} {l : List α}
    (h : ∀ a ∈ l, ∀ b, R a b ↔ f a = f b) (l' : List α) :
    List.Forall₂ R l l' ↔ l.map f = l'.map f := by
  induction l generalizing l' with
  | nil => cases l' <;> simp
  | cons a l ih =>
      cases l' with
      | nil => simp
      | cons b l' => simp [h a (by simp), ih fun c hc => h c (by simp [hc])]

section Agree

variable {style : NameStyle}

theorem TypeExpr.order_subset {types : List NamedType} :
    ∀ type ∈ style.order types, type ∈ types := by
  cases style with
  | full => exact fun type h => h
  | short => exact fun type h => (List.mem_insertionSort _).1 h

/-- What `agree_iff` says of one expression. -/
def TypeExpr.AgreeAsStandard (style : NameStyle) (t : TypeExpr) : Prop :=
  ∀ u, t.Agree style u ↔ t.standard style = u.standard style

theorem NamedType.agree_iff {type : NamedType}
    (h : ∀ t ∈ type.inner, t.AgreeAsStandard style) (type' : NamedType) :
    type.Agree style type' ↔ type.standard style = type'.standard style := by
  obtain ⟨name, inner⟩ := type
  obtain ⟨name', inner'⟩ := type'
  have hinner : Option.Rel (TypeExpr.Agree style) inner inner' ↔
      inner.map (TypeExpr.standard style) = inner'.map (TypeExpr.standard style) := by
    cases inner <;> cases inner' <;> simp_all [TypeExpr.AgreeAsStandard]
  rw [standard, standard, mk.injEq, String.ofList_inj, ← hinner]
  exact ⟨fun ⟨hname, hinner⟩ => ⟨hname, hinner⟩, fun ⟨hname, hinner⟩ => ⟨hname, hinner⟩⟩

theorem Shape.agree_iff {shape : Shape}
    (h : ∀ t ∈ shape.children, t.AgreeAsStandard style ∧
      ∀ u ∈ t.asArguments, u.AgreeAsStandard style) (shape' : Shape) :
    shape.Agree style shape' ↔ shape.standard style = shape'.standard style := by
  cases shape <;> cases shape' <;>
    simp only [standard_named, standard_tuple, standard_closure, standard_composition, reduceCtorEq,
      iff_false, Shape.named.injEq, Shape.tuple.injEq, Shape.closure.injEq, Shape.composition.injEq]
  case named.named type type' =>
      rw [← NamedType.agree_iff fun t ht => (h t (by simpa [children] using ht)).1]
      refine ⟨fun hagree => ?_, .named⟩
      cases hagree with
      | named h => exact h
  case tuple.tuple elements elements' =>
      have helements := forall₂_iff_map_eq (fun t ht => (h t ht).1) elements'
      refine Iff.trans ⟨fun hagree => ?_, .tuple⟩ helements
      cases hagree with
      | tuple h => exact h
  case closure.closure arguments returns throws arguments' returns' throws' =>
      have harguments := forall₂_iff_map_eq
        (fun t ht => (h arguments (by simp [children])).2 t ht) arguments'.asArguments
      have hreturns := (h returns (by simp [children])).1 returns'
      simp only [TypeExpr.tuple, TypeExpr.ofShape, TypeExpr.mk.injEq, Shape.tuple.injEq, and_true]
      rw [← harguments, ← hreturns]
      constructor
      · intro hagree
        cases hagree with
        | closure harguments hreturns => exact ⟨harguments, hreturns, rfl⟩
      · rintro ⟨harguments, hreturns, rfl⟩
        exact .closure harguments hreturns
  case composition.composition types types' =>
      rw [← forall₂_iff_map_eq fun type htype => NamedType.agree_iff fun t ht =>
        (h t (List.mem_filterMap.2 ⟨type, TypeExpr.order_subset type htype, ht⟩)).1]
      refine ⟨fun hagree => ?_, .composition⟩
      cases hagree with
      | composition h => exact h
  all_goals
    intro hagree
    cases hagree

/-- Two expressions agree part by part if and only if their normal forms are the same. -/
theorem TypeExpr.agree_iff (style : NameStyle) (t : TypeExpr) : t.AgreeAsStandard style := by
  -- a closure compares the elements of its argument, which are no children of it
  suffices h : t.AgreeAsStandard style ∧ ∀ u ∈ t.asArguments, u.AgreeAsStandard style from h.1
  induction t using TypeExpr.induction_on_children with
  | node t ih =>
      have hnode : t.AgreeAsStandard style := by
        obtain ⟨shape, generics, attributes, isInout, label⟩ := t
        rintro ⟨shape', generics', attributes', isInout', label'⟩
        rw [standard_mk, standard_mk, mk.injEq,
          ← Shape.agree_iff fun u hu => ih u (List.mem_append_right _ hu),
          ← forall₂_iff_map_eq fun u hu => (ih u (List.mem_append_left _ hu)).1]
        refine ⟨fun ⟨hshape, hgenerics⟩ => ⟨hshape, hgenerics, rfl, rfl, rfl⟩, ?_⟩
        rintro ⟨hshape, hgenerics, -, rfl, -⟩
        exact .node hshape hgenerics
      refine ⟨hnode, fun u hu => ?_⟩
      by_cases hkind : t.kind = .tuple
      · obtain ⟨shape, generics, attributes, isInout, label⟩ := t
        cases shape with
        | tuple elements => exact (ih u (List.mem_append_right _ hu)).1
        | _ => simp [kind, Shape.kind] at hkind
      · rw [asArguments_of_kind_ne hkind] at hu
        exact List.eq_of_mem_singleton hu ▸ hnode

end Agree

/-! ## What neither comparison sees -/

/-- The expressions differ only in attributes, in labels and in the parentheses around a closure's
only argument, at any nodes. -/
inductive TypeExpr.Variant : TypeExpr → TypeExpr → Prop where
  | refl (t : TypeExpr) : Variant t t
  | symm {t u : TypeExpr} (h : Variant t u) : Variant u t
  | trans {t u v : TypeExpr} (h : Variant t u) (h' : Variant u v) : Variant t v
  | decorations (t : TypeExpr) (attributes : List Attribute) (label : Option String) :
      Variant t { t with attributes, label }
  | parentheses (node : TypeExpr) {argument : TypeExpr} (returns : TypeExpr) (throws : Bool)
      (h : argument.kind ≠ .tuple) :
      Variant { node with shape := .closure argument returns throws }
        { node with shape := .closure (tuple [argument]) returns throws }
  | generic (node : TypeExpr) (before after : List TypeExpr) {t u : TypeExpr} (h : Variant t u) :
      Variant { node with generics := before ++ t :: after }
        { node with generics := before ++ u :: after }
  | inner (node : TypeExpr) (name : String) {t u : TypeExpr} (h : Variant t u) :
      Variant { node with shape := .named ⟨name, some t⟩ }
        { node with shape := .named ⟨name, some u⟩ }
  | element (node : TypeExpr) (before after : List TypeExpr) {t u : TypeExpr} (h : Variant t u) :
      Variant { node with shape := .tuple (before ++ t :: after) }
        { node with shape := .tuple (before ++ u :: after) }
  | argument (node : TypeExpr) (returns : TypeExpr) (throws : Bool) {t u : TypeExpr}
      (h : Variant t u) :
      Variant { node with shape := .closure t returns throws }
        { node with shape := .closure u returns throws }
  | result (node : TypeExpr) (arguments : TypeExpr) (throws : Bool) {t u : TypeExpr}
      (h : Variant t u) :
      Variant { node with shape := .closure arguments t throws }
        { node with shape := .closure arguments u throws }
  | constituent (node : TypeExpr) (before after : List NamedType) (name : String) {t u : TypeExpr}
      (h : Variant t u) :
      Variant { node with shape := .composition (before ++ ⟨name, some t⟩ :: after) }
        { node with shape := .composition (before ++ ⟨name, some u⟩ :: after) }

namespace TypeExpr

theorem Variant.erase_eq {t u : TypeExpr} (h : Variant t u) : t.erase = u.erase := by
  induction h with
  | refl t => rfl
  | symm _ ih => exact ih.symm
  | trans _ _ ih ih' => exact ih.trans ih'
  | decorations t attributes label => cases t; rfl
  | parentheses node returns throws hkind =>
      simp only [erase]
      rw [Shape.erase_closure, Shape.erase_closure, asArguments_of_kind_ne hkind]
      rfl
  | generic node before after _ ih => simp [erase, eraseAll_eq_map, ih]
  | inner node name _ ih => simp [erase, Shape.erase, ih]
  | element node before after _ ih => simp [erase, Shape.erase, eraseAll_eq_map, ih]
  | argument node returns throws _ ih =>
      simp only [erase]
      rw [Shape.erase_closure, Shape.erase_closure, map_erase_asArguments, ih,
        map_erase_asArguments]
  | result node arguments throws _ ih => simp only [erase, Shape.erase_closure, ih]
  | constituent node before after name _ ih =>
      simp [erase, Shape.erase, Shape.eraseConstituents_eq_map, NamedType.standard, standard, ih]

/-- Both comparisons are equivalences, the finer one implies the coarser, neither tells variants of
an expression apart, and both hold exactly where the expressions agree part by part. -/
theorem comparisons_equivalence :
    Equivalence (fun t u : TypeExpr => (t.same u : Prop)) ∧
      Equivalence (fun t u : TypeExpr => (t.sameUpToModule u : Prop)) ∧
      (∀ t u : TypeExpr, t.same u → t.sameUpToModule u) ∧
      (∀ t t' u u' : TypeExpr, t.Variant t' → u.Variant u' →
        t.same u = t'.same u' ∧ t.sameUpToModule u = t'.sameUpToModule u') ∧
      (∀ t u : TypeExpr, t.same u ↔ t.Agree .full u) ∧
      ∀ t u : TypeExpr, t.sameUpToModule u ↔ t.Agree .short u := by
  simp only [same_iff, sameUpToModule_iff]
  refine ⟨⟨fun _ => rfl, Eq.symm, Eq.trans⟩, ⟨fun _ => rfl, Eq.symm, Eq.trans⟩,
    fun t u h => congrArg unqualify h, fun t t' u u' ht hu => ?_,
    fun t u => (agree_iff .full t u).symm, fun t u => (agree_iff .short t u).symm⟩
  rw [same, same, sameUpToModule, sameUpToModule, ht.erase_eq, hu.erase_eq]
  exact ⟨rfl, rfl⟩

/-- `T -> U` and `(T) -> U` are one type. -/
theorem same_parentheses : (named "T").kind ≠ .tuple ∧
    (closure (named "T") (named "U") false).same
      (closure (tuple [named "T"]) (named "U") false) := by
  have hkind : (named "T").kind ≠ .tuple := by decide
  have hvariant : (closure (named "T") (named "U") false).Variant
      (closure (tuple [named "T"]) (named "U") false) :=
    .parentheses (closure unit unit false) (named "U") false hkind
  obtain ⟨hsame, -, -, hvariants, -⟩ := comparisons_equivalence
  refine ⟨hkind, ?_⟩
  rw [(hvariants _ _ _ _ hvariant (.refl _)).1]
  exact hsame.refl _

end TypeExpr

end SwiftSurface
