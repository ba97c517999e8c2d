import SwiftSurface.Document.TypeExpr
import SwiftSurface.Proofs.Document.Laws
import SwiftSurface.Proofs.TypeExpr.Normal

/-!
# Type expressions are read back from their documents

Reading a shape reads the types in it with a given reader, so it gives the shape back if that reader
gives each of the types back (`Shape.ofDocument_toDocument`). The documents of these types are less
deep than that of the shape (`Shape.depth_lt_of_mem_children`), so the bound on the depth never runs
out (`TypeExpr.ofDocumentWithin_toDocument`).
-/

namespace SwiftSurface

open Document

instance : LawfulSerial Attribute where
  decode_encode a := by
    unfold instSerialAttribute
    simp
  encode_ne_null _ := nofun

/-! ## Lists of types -/

namespace TypeExpr

theorem toDocuments_eq_map (types : List TypeExpr) :
    TypeExpr.toDocuments types = types.map TypeExpr.toDocument := by
  induction types with
  | nil => rfl
  | cons t types ih => rw [TypeExpr.toDocuments, ih, List.map_cons]

theorem toDocument_ne_null (t : TypeExpr) : t.toDocument ≠ .null := by
  obtain ⟨shape, generics, attributes, isInout, label⟩ := t
  rw [toDocument]
  simp

end TypeExpr

/-- Writes a named type as a document. -/
def NamedType.toDocument (type : NamedType) : Document :=
  .record [("name", encode type.name), ("inner_type", type.inner.elim .null TypeExpr.toDocument)]

namespace Shape

theorem toDocument_named (type : NamedType) :
    (Shape.named type).toDocument = tagged "Named" type.toDocument := by
  obtain ⟨name, _ | inner⟩ := type <;> rw [Shape.toDocument] <;> rfl

theorem constituentDocuments_eq_map (constituents : List NamedType) :
    constituentDocuments constituents = constituents.map NamedType.toDocument := by
  induction constituents with
  | nil => rfl
  | cons type constituents ih =>
      obtain ⟨name, _ | inner⟩ := type <;> rw [constituentDocuments, ih] <;> rfl

end Shape

/-! ## Reading -/

section Reading

variable {inner : Document → Option TypeExpr}

theorem NamedType.ofDocument_toDocument {type : NamedType}
    (h : ∀ t ∈ type.inner, inner t.toDocument = some t) :
    NamedType.ofDocument inner type.toDocument = some type := by
  obtain ⟨name, _ | t⟩ := type
  · simp [NamedType.toDocument, NamedType.ofDocument, Document.optional, optionOf]
  · simp [NamedType.toDocument, NamedType.ofDocument, Document.optional,
      optionOf_of_ne_null _ t.toDocument_ne_null, h t rfl]

/-- **A shape is read back if the types in it are.** -/
theorem Shape.ofDocument_toDocument {shape : Shape}
    (h : ∀ t ∈ shape.children, inner t.toDocument = some t) :
    Shape.ofDocument inner shape.toDocument = some shape := by
  cases shape with
  | named type =>
      have hinner : ∀ t ∈ type.inner, inner t.toDocument = some t := by
        simpa [Shape.children] using h
      simp [Shape.toDocument_named, Shape.ofDocument, NamedType.ofDocument_toDocument hinner]
  | tuple elements =>
      have hlist : listOf inner (.list (elements.map TypeExpr.toDocument)) = some elements :=
        listOf_map h
      simp [Shape.toDocument, TypeExpr.toDocuments_eq_map, Shape.ofDocument, hlist]
  | closure arguments returns throws =>
      have harguments := h arguments (by simp [Shape.children])
      have hreturns := h returns (by simp [Shape.children])
      simp [Shape.toDocument, Shape.ofDocument, harguments, hreturns]
  | composition constituents =>
      have hlist : listOf (NamedType.ofDocument inner)
          (.list (constituents.map NamedType.toDocument)) = some constituents := by
        refine listOf_map fun type htype => NamedType.ofDocument_toDocument fun t ht => h t ?_
        exact List.mem_filterMap.2 ⟨type, htype, ht⟩
      simp [Shape.toDocument, Shape.constituentDocuments_eq_map, Shape.ofDocument, hlist]

end Reading

/-! ## Depth -/

theorem NamedType.depth_lt_of_mem_inner {type : NamedType} {t : TypeExpr} (h : t ∈ type.inner) :
    t.toDocument.depth < type.toDocument.depth := by
  obtain ⟨name, _ | inner⟩ := type
  · simp at h
  · obtain rfl : inner = t := Option.some.inj h
    simp only [NamedType.toDocument, Option.elim_some, depth, depthOfFields]
    omega

/-- The types in a shape are written less deep than the shape. -/
theorem Shape.depth_lt_of_mem_children {shape : Shape} {t : TypeExpr} (h : t ∈ shape.children) :
    t.toDocument.depth < shape.toDocument.depth := by
  cases shape with
  | named type =>
      have hinner : t ∈ type.inner := by simpa [Shape.children] using h
      have hdepth := NamedType.depth_lt_of_mem_inner hinner
      simp only [Shape.toDocument_named, tagged, depth, depthOfFields]
      omega
  | tuple elements =>
      rw [Shape.children] at h
      have hdepth := depth_le_depthOfItems (List.mem_map_of_mem (f := TypeExpr.toDocument) h)
      simp only [Shape.toDocument, TypeExpr.toDocuments_eq_map, tagged, depth, depthOfFields]
      omega
  | closure arguments returns throws =>
      simp only [Shape.toDocument, tagged, depth, depthOfFields]
      rcases List.mem_cons.1 h with rfl | h
      · omega
      · obtain rfl := List.mem_singleton.1 h
        omega
  | composition constituents =>
      obtain ⟨type, htype, hinner⟩ := List.mem_filterMap.1 h
      have hdepth := NamedType.depth_lt_of_mem_inner hinner
      have hitem := depth_le_depthOfItems (List.mem_map_of_mem (f := NamedType.toDocument) htype)
      simp only [Shape.toDocument, Shape.constituentDocuments_eq_map, tagged, depth, depthOfFields]
      omega

namespace TypeExpr

/-- **A type expression is read back within the depth of its document.** -/
theorem ofDocumentWithin_toDocument (t : TypeExpr) :
    ∀ {bound : Nat}, t.toDocument.depth ≤ bound →
      ofDocumentWithin bound t.toDocument = some t := by
  induction t using TypeExpr.induction_on_children with
  | node t ih =>
      intro bound hbound
      obtain ⟨shape, generics, attributes, isInout, label⟩ := t
      simp only [toDocument, toDocuments_eq_map, depth, depthOfFields] at hbound
      obtain ⟨bound, rfl⟩ : ∃ n, bound = n + 1 := ⟨bound - 1, by omega⟩
      have hshape : Shape.ofDocument (ofDocumentWithin bound) shape.toDocument = some shape := by
        refine Shape.ofDocument_toDocument fun u hu => ih u (List.mem_append_right _ hu) ?_
        have := Shape.depth_lt_of_mem_children hu
        omega
      have hgenerics : listOf (ofDocumentWithin bound) (.list (generics.map toDocument)) =
          some generics := by
        refine listOf_map fun u hu => ih u (List.mem_append_left _ hu) ?_
        have := depth_le_depthOfItems (List.mem_map_of_mem (f := toDocument) hu)
        omega
      simp [toDocument, toDocuments_eq_map, ofDocumentWithin, hshape, hgenerics]

end TypeExpr

instance : LawfulSerial TypeExpr where
  decode_encode t := t.ofDocumentWithin_toDocument (Nat.le_refl _)
  encode_ne_null := TypeExpr.toDocument_ne_null

end SwiftSurface
