import SwiftSurface.Proofs.TypeExpr.Composition
import SwiftSurface.Proofs.TypeExpr.Renamed
import SwiftSurface.Proofs.TypeExpr.Respelling

/-!
# The expression that is read from a written form

Reading tidies an expression: the bare names that live in `Swift` get their module, and the
constituents of a composition are sorted, each given once (`TypeExpr.tidied`). What is read from the
written form of an expression, where it comes back, is `TypeExpr.reread`: tidied, with the
attributes where `TypeExpr.respelled` puts them. Normal expressions are tidy already.
-/

namespace SwiftSurface

/-! ## Tidying -/

/-- The constituents as they are read: plain names, sorted, each given once. -/
def NamedType.tidied (types : List NamedType) : List NamedType :=
  sortByName (types.map fun type => ofName type.name)

/-- The expression with the names that live in `Swift` in their module and the constituents of
compositions sorted, each given once. -/
def TypeExpr.tidied : TypeExpr → TypeExpr :=
  TypeExpr.renamed NamedType.canonicalName NamedType.tidied

/-- The shape with its names tidied. -/
def Shape.tidied : Shape → Shape :=
  Shape.renamed NamedType.canonicalName NamedType.tidied

theorem NamedType.inner_of_mem_tidied {types : List NamedType} {type : NamedType}
    (h : type ∈ tidied types) : type.inner = none := by
  obtain ⟨-, hmem, -⟩ := sortByName_spec (types.map fun type => ofName type.name)
  obtain ⟨type, -, rfl⟩ := List.mem_map.1 (hmem type h)
  rfl

theorem Shape.argumentAttributes_tidied (shape : Shape) :
    shape.tidied.argumentAttributes = shape.argumentAttributes := by
  cases shape with
  | named type => rw [tidied, renamed_named]; rfl
  | closure arguments returns throws =>
      obtain ⟨shape, generics, attributes, isInout, label⟩ := arguments
      cases shape with
      | named type =>
          obtain ⟨name, _ | inner⟩ := type <;> rfl
      | _ => rfl
  | _ => rfl

/-! ## Reading again -/

/-- The expression that is read from the written form, where it comes back. -/
def TypeExpr.reread (t : TypeExpr) : TypeExpr :=
  t.tidied.respelled

/-- The shape that is read. -/
def Shape.reread (shape : Shape) : Shape :=
  shape.tidied.respelled

theorem TypeExpr.respelledAll_map_tidied (types : List TypeExpr) :
    respelledAll (types.map tidied) = types.map reread := by
  rw [respelledAll_eq_map, List.map_map]
  rfl

theorem TypeExpr.reread_mk (shape : Shape) (generics : List TypeExpr)
    (attributes : List Attribute) (isInout : Bool) (label : Option String) :
    reread ⟨shape, generics, attributes, isInout, label⟩ =
      ⟨shape.reread, generics.map reread,
        (attributes ++ shape.argumentAttributes).map (·.respelled), isInout, label⟩ := by
  rw [reread, tidied, renamed_mk, ← tidied, ← Shape.tidied, respelled, respelledAll_map_tidied,
    Shape.argumentAttributes_tidied]
  rfl

theorem TypeExpr.kind_reread (t : TypeExpr) : t.reread.kind = t.kind := by
  rw [reread, kind_respelled, tidied, kind_renamed]

namespace Shape

theorem reread_named (name : String) (inner : Option TypeExpr) :
    (named ⟨name, inner⟩).reread =
      .named ⟨NamedType.canonicalName name, inner.map TypeExpr.reread⟩ := by
  cases inner <;> rfl

theorem reread_tuple (elements : List TypeExpr) :
    (tuple elements).reread = .tuple (elements.map TypeExpr.reread) := by
  rw [reread, tidied, renamed_tuple, ← TypeExpr.tidied, respelled,
    TypeExpr.respelledAll_map_tidied]

theorem reread_closure {arguments : TypeExpr} (h : arguments.kind ≠ .tuple) (returns : TypeExpr)
    (throws : Bool) :
    (closure arguments returns throws).reread =
      .closure arguments.reread returns.reread throws := by
  rw [reread, tidied, renamed, respelled_closure (by rwa [TypeExpr.kind_renamed])]
  rfl

theorem reread_composition (constituents : List NamedType) :
    (composition constituents).reread = .composition (NamedType.tidied constituents) := rfl

end Shape

/-! ## Normal expressions are tidy -/

theorem NamedType.ofName_eq {type : NamedType} (h : IsTypeName type.name ∧ type.inner = none) :
    .ofName type.name = type := by
  obtain ⟨name, inner⟩ := type
  obtain ⟨⟨-, hany, hanyObject⟩, rfl⟩ := h
  simp [ofName, canonicalName, hany, hanyObject]

theorem Shape.tidied_of_normal {shape : Shape} {generics : List TypeExpr}
    (h : shape.Normal generics) (hchildren : ∀ t ∈ shape.children, t.tidied = t) :
    shape.tidied = shape := by
  cases shape with
  | named type =>
      obtain ⟨name, inner⟩ := type
      have hname := congrArg NamedType.name (@NamedType.ofName_eq ⟨name, none⟩ ⟨h.1, rfl⟩)
      cases inner with
      | none => exact congrArg (fun name => named ⟨name, none⟩) hname
      | some inner =>
          have hinner := hchildren inner (by simp [children])
          rw [tidied, renamed_named, Option.map_some, ← TypeExpr.tidied, hinner]
          exact congrArg (fun name => named ⟨name, some inner⟩) hname
  | tuple elements =>
      rw [tidied, renamed_tuple, ← TypeExpr.tidied]
      exact congrArg tuple ((List.map_congr_left hchildren).trans (List.map_id' elements))
  | closure arguments returns throws =>
      have harguments := hchildren arguments (by simp [children])
      have hreturns := hchildren returns (by simp [children])
      rw [tidied, renamed, ← TypeExpr.tidied, harguments, hreturns]
  | composition constituents =>
      obtain ⟨-, -, hnames, hascending⟩ := h
      have hinner : ∀ type ∈ constituents, type.inner = none := fun c hc => (hnames c hc).2
      have hall : (constituents.map fun type => .ofName type.name) = constituents := by
        simpa using List.map_congr_left fun c hc => NamedType.ofName_eq (hnames c hc)
      rw [tidied, renamed, NamedType.tidied, hall, NamedType.sortByName_of_ascending
        ((NamedType.ascending_iff_of_inner hinner).2 hascending)]

/-- A normal expression is read as `respelled`. -/
theorem TypeExpr.reread_of_normal {t : TypeExpr} (h : t.Everywhere NormalNode) :
    t.reread = t.respelled := by
  have htidied : t.tidied = t := by
    induction h with
    | @node t here _ ih =>
        obtain ⟨shape, generics, attributes, isInout, label⟩ := t
        have hshape := Shape.tidied_of_normal here.shape fun u hu =>
          ih u (List.mem_append_right _ hu)
        have hgenerics := List.map_congr_left fun u hu => ih u (List.mem_append_left _ hu)
        rw [List.map_id'] at hgenerics
        rw [tidied, renamed_mk, ← tidied, ← Shape.tidied, hshape, hgenerics]
  rw [reread, htidied]

end SwiftSurface
