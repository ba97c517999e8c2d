import SwiftSurface.Document.Declaration
import SwiftSurface.Proofs.Document.TypeExpr

/-!
# Declarations are read back from their documents

The thunk of a static signature holds a static signature that is written less deep, so the bound on
the depth does not run out (`StaticSignature.ofDocumentWithin_toDocument`). The other declarations
follow field by field and variant by variant.
-/

namespace SwiftSurface

open Document

/-! ## Kinds and names -/

instance : LawfulSerial NominalKind where
  decode_encode kind := by cases kind <;> rfl
  encode_ne_null kind := by cases kind <;> nofun

instance : LawfulSerial AccessorKind where
  decode_encode kind := by cases kind <;> rfl
  encode_ne_null _ := nofun

instance : LawfulSerial WitnessKind where
  decode_encode kind := by cases kind <;> rfl
  encode_ne_null _ := nofun

instance : LawfulSerial InitializerKind where
  decode_encode _ := rfl
  encode_ne_null _ := nofun

instance : LawfulSerial NominalName where
  decode_encode n := by
    unfold instSerialNominalName
    simp
  encode_ne_null _ := nofun

/-! ## Signatures -/

instance : LawfulSerial PropertySignature where
  decode_encode s := by
    unfold instSerialPropertySignature
    simp
  encode_ne_null _ := nofun

namespace StaticSignature

theorem toDocument_ne_null (s : StaticSignature) : s.toDocument ≠ .null := by
  obtain ⟨parameters, returns, throws, isThunk, _ | ⟨mangledName, offset, signature⟩⟩ := s
  all_goals simp [toDocument]

/-- **A static signature is read back within the depth of its document.** -/
theorem ofDocumentWithin_toDocument : (s : StaticSignature) → ∀ {bound : Nat},
    s.toDocument.depth ≤ bound → ofDocumentWithin bound s.toDocument = some s
  | ⟨parameters, returns, throws, isThunk, none⟩, bound, hbound => by
    simp only [toDocument, depth] at hbound
    obtain ⟨bound, rfl⟩ : ∃ n, bound = n + 1 := ⟨bound - 1, by omega⟩
    simp [toDocument, ofDocumentWithin, Document.optional, optionOf]
  | ⟨parameters, returns, throws, isThunk, some ⟨mangledName, offset, signature⟩⟩, bound,
      hbound => by
    simp only [toDocument, depth, depthOfFields] at hbound
    obtain ⟨bound, rfl⟩ : ∃ n, bound = n + 1 := ⟨bound - 1, by omega⟩
    have hsignature : ofDocumentWithin bound signature.toDocument = some signature :=
      signature.ofDocumentWithin_toDocument (by omega)
    simp [toDocument, ofDocumentWithin, Document.optional, optionOf, Thunk.ofDocument, hsignature]
termination_by structural s => s

end StaticSignature

instance : LawfulSerial StaticSignature where
  decode_encode s := s.ofDocumentWithin_toDocument (Nat.le_refl _)
  encode_ne_null := StaticSignature.toDocument_ne_null

instance : LawfulSerial Signature where
  decode_encode s := by
    unfold instSerialSignature
    cases s <;> simp
  encode_ne_null s := by cases s <;> nofun

/-! ## Declarations -/

instance : LawfulSerial FunctionDecl where
  decode_encode f := by
    unfold instSerialFunctionDecl
    simp
  encode_ne_null _ := nofun

instance : LawfulSerial VariableDecl where
  decode_encode v := by
    unfold instSerialVariableDecl
    simp
  encode_ne_null _ := nofun

instance : LawfulSerial MetadataRecord where
  decode_encode r := by
    unfold instSerialMetadataRecord
    simp
  encode_ne_null _ := nofun

instance : LawfulSerial ConformanceDecl where
  decode_encode c := by
    unfold instSerialConformanceDecl
    simp
  encode_ne_null _ := nofun

instance : LawfulSerial Declaration where
  decode_encode d := by
    unfold instSerialDeclaration
    cases d with
    | record kind r => cases kind <;> simp
    | _ => simp
  encode_ne_null d := by
    cases d with
    | record kind r => cases kind <;> nofun
    | _ => nofun

end SwiftSurface
