import SwiftSurface.TypeExpr.Grammar
import SwiftSurface.TypeExpr.Identity

/-!
# Normal, regular and canonical type expressions

Not every `TypeExpr` is the reading of a text: a name may hold blanks, a tuple may have a single
element, labels may stand anywhere. `NormalNode` says of one node what every node of an accepted
expression satisfies. `RegularNode` asks less, just what the written form needs to be read, and
`CanonicalNode` adds what makes the written form unambiguous.
`Everywhere p` lifts a property of nodes to whole expressions; its induction is the induction on
the nodes of an expression.
-/

namespace SwiftSurface

open Grammar Text

/-! ## Names -/

/-- A non-empty run of characters that are neither blanks nor delimiters. -/
def IsIdentifier (cs : List Char) : Prop :=
  cs ≠ [] ∧ ∀ c ∈ cs, isIdentifierChar c

theorem isIdentifier_of_all {cs : List Char} (h : (!cs.isEmpty && cs.all isIdentifierChar) = true) :
    IsIdentifier cs := by
  simpa [IsIdentifier] using h

/-- One or more identifiers joined by dots. -/
def IsPath (cs : List Char) : Prop :=
  ∃ (first : List Char) (more : List (List Char)), IsIdentifier first ∧
    (∀ name ∈ more, IsIdentifier name) ∧ cs = first ++ more.flatMap ('.' :: ·)

theorem IsIdentifier.isPath {cs : List Char} (h : IsIdentifier cs) : IsPath cs :=
  ⟨cs, [], h, by simp, by simp⟩

/-- The name of a type: a path that is not one of the two that get a module. -/
def IsTypeName (name : String) : Prop :=
  IsPath name.toList ∧ name ≠ "Any" ∧ name ≠ "AnyObject"

theorem isTypeName_of_isIdentifier {name : String} (h : IsIdentifier name.toList)
    (hne : name ∉ ["Any", "AnyObject", "inout"]) : IsTypeName name ∧ name ≠ "inout" := by
  simp only [List.mem_cons, List.not_mem_nil, or_false, not_or] at hne
  exact ⟨⟨h.isPath, hne.1, hne.2.1⟩, hne.2.2⟩

/-! ## All nodes of an expression -/

/-- The expressions that are parts of a shape. -/
def Shape.children : Shape → List TypeExpr
  | .named type => type.inner.toList
  | .tuple elements => elements
  | .closure arguments returns _ => [arguments, returns]
  | .composition constituents => constituents.filterMap (·.inner)

/-- The expressions right below this one. -/
def TypeExpr.children (t : TypeExpr) : List TypeExpr :=
  t.generics ++ t.shape.children

/-- Every node of the expression satisfies `p`. -/
inductive TypeExpr.Everywhere (p : TypeExpr → Prop) : TypeExpr → Prop where
  | node {t : TypeExpr} (here : p t) (children : ∀ u ∈ t.children, Everywhere p u) :
      Everywhere p t

namespace TypeExpr.Everywhere

variable {p q : TypeExpr → Prop} {t : TypeExpr}

theorem here (h : Everywhere p t) : p t := by
  cases h
  assumption

theorem child (h : Everywhere p t) : ∀ u ∈ t.children, Everywhere p u := by
  cases h
  assumption

theorem imp (h : Everywhere p t) (hpq : ∀ t, p t → q t) : Everywhere q t := by
  induction h with
  | node here children ih => exact .node (hpq _ here) ih

end TypeExpr.Everywhere

mutual

theorem TypeExpr.everywhere_true : (t : TypeExpr) → t.Everywhere fun _ => True
  | ⟨shape, generics, _, _, _⟩ =>
    .node trivial fun u hu =>
      (List.mem_append.1 hu).elim (TypeExpr.everywhere_true_all generics u)
        (Shape.everywhere_true shape u)
termination_by structural t => t

theorem Shape.everywhere_true :
    (shape : Shape) → ∀ t ∈ shape.children, t.Everywhere fun _ => True
  | .named ⟨_, none⟩, _, ht => nomatch ht
  | .named ⟨_, some inner⟩, _, ht => List.eq_of_mem_singleton ht ▸ inner.everywhere_true
  | .tuple elements, t, ht => TypeExpr.everywhere_true_all elements t ht
  | .closure arguments returns _, _, ht =>
    (List.mem_cons.1 ht).elim (fun h => h ▸ arguments.everywhere_true)
      fun h => List.eq_of_mem_singleton h ▸ returns.everywhere_true
  | .composition constituents, t, ht => Shape.everywhere_true_constituents constituents t ht
termination_by structural shape => shape

theorem TypeExpr.everywhere_true_all :
    (types : List TypeExpr) → ∀ t ∈ types, t.Everywhere fun _ => True
  | u :: rest, t, ht => (List.mem_cons.1 ht).elim (fun h => h ▸ u.everywhere_true)
    (TypeExpr.everywhere_true_all rest t)
termination_by structural types => types

theorem Shape.everywhere_true_constituents :
    (types : List NamedType) → ∀ t ∈ types.filterMap (·.inner), t.Everywhere fun _ => True
  | ⟨_, none⟩ :: rest, t, ht => Shape.everywhere_true_constituents rest t ht
  | ⟨_, some inner⟩ :: rest, t, ht =>
    (List.mem_cons.1 ht).elim (fun h => h ▸ inner.everywhere_true)
      (Shape.everywhere_true_constituents rest t)
termination_by structural types => types

end

/-- The induction on the nodes of an expression: what holds of an expression when it holds of those
right below it holds of every expression. -/
@[elab_as_elim] theorem TypeExpr.induction_on_children {motive : TypeExpr → Prop} (t : TypeExpr)
    (node : ∀ t, (∀ u ∈ t.children, motive u) → motive t) : motive t := by
  induction t.everywhere_true with
  | node _ _ ih => exact node _ ih

/-! ## Parts of an expression -/

namespace TypeExpr

/-- The first expression is the second one or a part of it, at any depth. -/
inductive Within : TypeExpr → TypeExpr → Prop where
  | root (t : TypeExpr) : Within t t
  | child {part u t : TypeExpr} (hpart : part ∈ u.children) (hu : Within u t) : Within part t

variable {t u : TypeExpr}

/-- What holds everywhere in an expression holds everywhere in its parts. -/
theorem Everywhere.within {p : TypeExpr → Prop} (h : t.Everywhere p) (hu : u.Within t) :
    u.Everywhere p := by
  induction hu with
  | root => exact h
  | child hpart _ ih => exact (ih h).child _ hpart

/-- What is in an expression is the expression or in a part right below it. -/
theorem within_iff : u.Within t ↔ u = t ∨ ∃ part ∈ t.children, u.Within part := by
  constructor
  · intro hu
    induction hu with
    | root => exact .inl rfl
    | child hpart _ ih =>
        rcases ih with rfl | ⟨top, htop, hwithin⟩
        · exact .inr ⟨_, hpart, .root _⟩
        · exact .inr ⟨top, htop, .child hpart hwithin⟩
  · rintro (rfl | ⟨part, hpart, hu⟩)
    · exact .root u
    · induction hu with
      | root => exact .child hpart (.root t)
      | child hchild _ ih => exact .child hchild (ih hpart)

end TypeExpr

/-! ## Normal nodes -/

/-- The name is an identifier, and no parameter has blanks at its ends or holds a comma. -/
def Attribute.Normal (a : Attribute) : Prop :=
  IsIdentifier a.name.toList ∧ ∀ parameter ∈ a.parameters,
    trim parameter.toList = parameter.toList ∧ ',' ∉ parameter.toList

/-- No parameter holds the mark that closes the parameters in the written form. -/
def Attribute.Enclosed (a : Attribute) : Prop :=
  ∀ parameter ∈ a.parameters, ')' ∉ parameter.toList

/-- A named type without decorations. -/
def TypeExpr.IsBareNamed (t : TypeExpr) : Prop :=
  t.kind = .named ∧ t.attributes = [] ∧ t.isInout = false ∧ t.label = none

/-- What a shape is like in a node with these generic arguments: only a named type has any, and
only after them comes an inner type; a single element has a label; argument and result of a closure
have none; the constituents of a composition are plain names and ascend strictly. -/
def Shape.Normal (generics : List TypeExpr) : Shape → Prop
  | .named type =>
    IsTypeName type.name ∧ ∀ inner ∈ type.inner, generics ≠ [] ∧ inner.IsBareNamed
  | .tuple elements => generics = [] ∧ ∀ t, elements = [t] → t.label.isSome
  | .closure arguments returns _ =>
    generics = [] ∧ arguments.label = none ∧ returns.label = none
  | .composition constituents =>
    generics = [] ∧ constituents ≠ [] ∧
      (∀ type ∈ constituents, IsTypeName type.name ∧ type.inner = none) ∧
      constituents.Pairwise fun a b => compare a.name b.name = .lt

/-- What every node of an accepted expression satisfies. -/
structure TypeExpr.NormalNode (t : TypeExpr) : Prop where
  shape : t.shape.Normal t.generics
  generics : ∀ u ∈ t.generics, u.label = none
  attributes : ∀ a ∈ t.attributes, a.Normal
  label : ∀ label ∈ t.label, IsIdentifier label.toList

/-! ## Regular nodes -/

/-- What a shape is like whose written form can be read: as in a normal node, but any path is a
name, and constituents stand in any order. -/
def Shape.Regular (generics : List TypeExpr) : Shape → Prop
  | .named type =>
    IsPath type.name.toList ∧ ∀ inner ∈ type.inner, generics ≠ [] ∧ inner.IsBareNamed
  | .tuple elements => generics = [] ∧ ∀ t, elements = [t] → t.label.isSome
  | .closure arguments returns _ =>
    generics = [] ∧ arguments.label = none ∧ returns.label = none
  | .composition constituents =>
    generics = [] ∧ constituents ≠ [] ∧
      ∀ type ∈ constituents, IsPath type.name.toList ∧ type.inner = none

theorem Shape.Regular.inner_eq_none {type : NamedType} (h : (Shape.named type).Regular []) :
    type.inner = none :=
  Option.eq_none_iff_forall_not_mem.2 fun u hu => (h.2 u hu).1 rfl

/-- A normal node whose names and constituents need not be tidy. -/
structure TypeExpr.RegularNode (t : TypeExpr) : Prop where
  shape : t.shape.Regular t.generics
  generics : ∀ u ∈ t.generics, u.label = none
  attributes : ∀ a ∈ t.attributes, a.Normal
  label : ∀ label ∈ t.label, IsIdentifier label.toList

theorem Shape.Normal.regular {shape : Shape} {generics : List TypeExpr}
    (h : shape.Normal generics) : shape.Regular generics := by
  cases shape with
  | named type => exact ⟨h.1.1, h.2⟩
  | composition constituents =>
      obtain ⟨hgenerics, hne, hnames, -⟩ := h
      exact ⟨hgenerics, hne, fun type htype => ⟨(hnames type htype).1.1, (hnames type htype).2⟩⟩
  | _ => exact h

theorem TypeExpr.NormalNode.regular {t : TypeExpr} (h : t.NormalNode) : t.RegularNode :=
  ⟨h.shape.regular, h.generics, h.attributes, h.label⟩

/-! ## Canonical nodes -/

/-- No attribute at this node has a parameter that holds the closing mark. -/
def TypeExpr.EnclosedNode (t : TypeExpr) : Prop :=
  ∀ a ∈ t.attributes, a.Enclosed

/-- A normal node whose written form is read back as it is: no type is named like the `inout` mark,
a composition has two constituents at least, a tuple that is the argument of a closure has no
modifiers, and no attribute parameter is empty or holds the closing parenthesis. -/
structure TypeExpr.CanonicalNode (t : TypeExpr) : Prop extends t.NormalNode where
  name : ∀ type, t.shape = .named type → type.name ≠ "inout"
  constituents : ∀ types, t.shape = .composition types →
    2 ≤ types.length ∧ ∀ type ∈ types, type.name ≠ "inout"
  argument : ∀ arguments returns throws, t.shape = .closure arguments returns throws →
    arguments.kind = .tuple → arguments.attributes = [] ∧ arguments.isInout = false
  parameters : ∀ a ∈ t.attributes, a.Enclosed ∧ ∀ parameter ∈ a.parameters, parameter ≠ ""

/-! ## Named types -/

namespace TypeExpr

section Named

variable {name : String} {inner : Option TypeExpr} {generics : List TypeExpr}
  {attributes : List Attribute} {isInout : Bool} {label : Option String}

theorem everywhere_named_iff {p : TypeExpr → Prop} :
    Everywhere p ⟨.named ⟨name, inner⟩, generics, attributes, isInout, label⟩ ↔
      p ⟨.named ⟨name, inner⟩, generics, attributes, isInout, label⟩ ∧
        (∀ u ∈ generics, u.Everywhere p) ∧ ∀ u ∈ inner, u.Everywhere p := by
  have hchildren : (∀ u ∈ children ⟨.named ⟨name, inner⟩, generics, attributes, isInout, label⟩,
      u.Everywhere p) ↔ (∀ u ∈ generics, u.Everywhere p) ∧ ∀ u ∈ inner, u.Everywhere p := by
    simp [children, Shape.children, or_imp, forall_and]
  rw [← hchildren]
  exact ⟨fun h => ⟨h.here, h.child⟩, fun h => .node h.1 h.2⟩

theorem canonicalNode_named_iff :
    CanonicalNode ⟨.named ⟨name, inner⟩, generics, attributes, isInout, label⟩ ↔
      (IsTypeName name ∧ name ≠ "inout") ∧ (∀ u ∈ inner, generics ≠ [] ∧ u.IsBareNamed) ∧
        (∀ u ∈ generics, u.label = none) ∧ (∀ l ∈ label, IsIdentifier l.toList) ∧
        ∀ a ∈ attributes, a.Normal ∧ a.Enclosed ∧ ∀ parameter ∈ a.parameters, parameter ≠ "" := by
  constructor
  · intro h
    exact ⟨⟨h.shape.1, h.name _ rfl⟩, h.shape.2, h.generics, h.label,
      fun a ha => ⟨h.attributes a ha, h.parameters a ha⟩⟩
  · rintro ⟨⟨hname, hinout⟩, hinner, hgenerics, hlabel, hattributes⟩
    exact ⟨⟨⟨hname, hinner⟩, hgenerics, fun a ha => (hattributes a ha).1, hlabel⟩,
      by simpa using hinout, by simp, by simp, fun a ha => (hattributes a ha).2⟩

end Named

/-- A name alone is canonical. -/
theorem canonical_name {name : String} (h : IsTypeName name ∧ name ≠ "inout") :
    Everywhere CanonicalNode ⟨.named ⟨name, none⟩, [], [], false, none⟩ :=
  everywhere_named_iff.2 ⟨canonicalNode_named_iff.2 ⟨h, by simp⟩, by simp, by simp⟩

end TypeExpr

end SwiftSurface
