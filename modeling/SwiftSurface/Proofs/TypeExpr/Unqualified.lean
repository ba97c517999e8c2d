import SwiftSurface.Proofs.TypeExpr.Names
import SwiftSurface.Proofs.TypeExpr.Renamed
import SwiftSurface.Proofs.TypeExpr.Written

/-!
# Expressions without their modules

The short text of a regular expression is the full text of `TypeExpr.withoutModules`, the expression
with every name stripped of its module and all constituents in their places (`write_short`). That is
a regular expression again.
-/

namespace SwiftSurface

/-- A plain name stripped of its module. -/
def NamedType.withoutModule (type : NamedType) : NamedType :=
  ⟨unqualifiedName type.name, none⟩

/-- The expression with every name stripped of its module. Constituents are plain names. -/
def TypeExpr.withoutModules : TypeExpr → TypeExpr :=
  TypeExpr.renamed NamedType.unqualifiedName (List.map NamedType.withoutModule)

/-- The shape with its names stripped of their modules. -/
def Shape.withoutModules : Shape → Shape :=
  Shape.renamed NamedType.unqualifiedName (List.map NamedType.withoutModule)

theorem TypeExpr.Everywhere.withoutModules {p q : TypeExpr → Prop} {t : TypeExpr}
    (h : t.Everywhere p) (hpq : ∀ u, p u → q u.withoutModules) : t.withoutModules.Everywhere q :=
  h.renamed (fun _ => List.forall_mem_map.2 fun _ _ => rfl) hpq

/-! ## The short text -/

theorem TypeExpr.writeAll_short {types : List TypeExpr}
    (h : ∀ t ∈ types, t.write .short = t.withoutModules.write .full) :
    writeAll .short types = writeAll .full (types.map withoutModules) := by
  induction types with
  | nil => rfl
  | cons t rest ih =>
      rw [writeAll, List.map_cons, writeAll, h t (by simp), ih fun u hu => h u (by simp [hu]),
        List.isEmpty_map]

theorem TypeExpr.writeConstituents_short {types : List NamedType}
    (h : ∀ type ∈ types, type.inner = none) :
    writeConstituents .short types =
      writeConstituents .full (types.map NamedType.withoutModule) := by
  induction types with
  | nil => rfl
  | cons type rest ih =>
      obtain ⟨name, inner⟩ := type
      obtain rfl : inner = none := h ⟨name, inner⟩ (by simp)
      simp [writeConstituents, NamedType.withoutModule, NameStyle.spell,
        ih fun c hc => h c (by simp [hc])]

/-- The short text is the full text of the expression without modules. -/
theorem TypeExpr.write_short {t : TypeExpr} (h : t.Everywhere RegularNode) :
    t.write .short = t.withoutModules.write .full := by
  induction h with
  | @node t here _ ih =>
      obtain ⟨shape, generics, attributes, isInout, label⟩ := t
      have hgenerics := writeAll_short fun u hu => ih u (List.mem_append_left _ hu)
      have hchild : ∀ u ∈ shape.children, u.write .short = u.withoutModules.write .full :=
        fun u hu => ih u (List.mem_append_right _ hu)
      have hshape : shape.write .short = shape.withoutModules.write .full ∧
          shape.writeInner .short = shape.withoutModules.writeInner .full := by
        cases shape with
        | named type =>
            obtain ⟨name, _ | inner⟩ := type
            · exact ⟨rfl, rfl⟩
            · exact ⟨rfl, congrArg ('.' :: ·) (hchild inner (by simp [Shape.children]))⟩
        | tuple elements =>
            refine ⟨?_, rfl⟩
            rw [Shape.withoutModules, Shape.renamed_tuple]
            exact congrArg ('(' :: · ++ [')']) (writeAll_short hchild)
        | closure arguments returns throws =>
            refine ⟨?_, rfl⟩
            rw [Shape.withoutModules, Shape.renamed, Shape.write, Shape.write,
              needsParentheses_renamed, hchild arguments (by simp [Shape.children]),
              hchild returns (by simp [Shape.children])]
            rfl
        | composition constituents =>
            exact ⟨writeConstituents_short fun type htype => (here.shape.2.2 type htype).2, rfl⟩
      rw [write, withoutModules, renamed_mk, write, hshape.1, hshape.2, hgenerics]
      simp [withoutModules, Shape.withoutModules]

/-! ## A regular expression -/

/-- The names of a regular expression are paths without their modules too. -/
theorem TypeExpr.RegularNode.withoutModules {t : TypeExpr} (h : t.RegularNode) :
    t.withoutModules.RegularNode := by
  have hlabel (u : TypeExpr) : u.withoutModules.label = u.label := label_renamed _ _ u
  have hgenerics : ∀ u ∈ t.generics.map TypeExpr.withoutModules, u.label = none :=
    List.forall_mem_map.2 fun u hu => (hlabel u).trans (h.generics u hu)
  have hshape := h.shape
  obtain ⟨shape, generics, attributes, isInout, label⟩ := t
  suffices hregular : shape.withoutModules.Regular (generics.map TypeExpr.withoutModules) by
    rw [TypeExpr.withoutModules, renamed_mk]
    exact ⟨hregular, hgenerics, h.attributes, h.label⟩
  cases shape with
  | named type =>
      obtain ⟨hname, hinner⟩ := hshape
      rw [Shape.withoutModules, Shape.renamed_named]
      refine ⟨NamedType.isPath_unqualifiedName hname, fun u hu => ?_⟩
      obtain ⟨v, hv, rfl⟩ := Option.map_eq_some_iff.1 hu
      obtain ⟨hne, hkind, hdecorations⟩ := hinner v hv
      refine ⟨by simpa using hne, (kind_renamed _ _ v).trans hkind, ?_⟩
      cases v
      exact hdecorations
  | tuple elements =>
      obtain ⟨rfl, hsingle⟩ := hshape
      rw [Shape.withoutModules, Shape.renamed_tuple]
      refine ⟨rfl, fun t ht => ?_⟩
      obtain ⟨u, rfl, rfl⟩ := List.map_eq_singleton_iff.1 ht
      exact (congrArg Option.isSome (hlabel u)).trans (hsingle u rfl)
  | closure arguments returns throws =>
      obtain ⟨rfl, harguments, hreturns⟩ := hshape
      exact ⟨rfl, (hlabel arguments).trans harguments, (hlabel returns).trans hreturns⟩
  | composition constituents =>
      obtain ⟨rfl, hne, hnames⟩ := hshape
      exact ⟨rfl, by simpa using hne, List.forall_mem_map.2 fun type htype =>
        ⟨NamedType.isPath_unqualifiedName (hnames type htype).1, rfl⟩⟩

end SwiftSurface
