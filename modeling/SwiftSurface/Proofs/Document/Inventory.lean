import SwiftSurface.Document.Inventory
import SwiftSurface.Proofs.Document.Declaration
import SwiftSurface.Proofs.Table

/-!
# Inventories are read back from their documents

A table is read back since its keys are read back from their names and its entries are in order
(`Table.ofList_entries`). A table of accessors is a record with a field for each accessor. With
these, everything that an inventory holds is read back (`serial_forms_roundTrip`).
-/

namespace SwiftSurface

open Document

/-! ## Tables -/

/-- Keys that are read back from their names. -/
class LawfulSerialKey (κ : Type) [SerialKey κ] : Prop where
  ofName_toName (key : κ) : SerialKey.ofName (SerialKey.toName key) = some key

instance : LawfulSerialKey String where
  ofName_toName _ := rfl

instance : LawfulSerialKey WitnessKind where
  ofName_toName kind := by cases kind <;> rfl

instance : LawfulSerialKey AccessorKind where
  ofName_toName kind := by cases kind <;> rfl

/-- The fields of a record are read back as the entries that they were written from. -/
theorem Document.entriesOf_map {κ α : Type} [SerialKey κ] [LawfulSerialKey κ] [Serial α]
    {entries : List (κ × α)} (h : ∀ entry ∈ entries, decode (encode entry.2) = some entry.2) :
    entriesOf (entries.map fun entry => (SerialKey.toName entry.1, encode entry.2)) =
      some entries := by
  induction entries with
  | nil => rfl
  | cons entry entries ih =>
      have hrest := ih fun other hother => h other (List.mem_cons_of_mem entry hother)
      rw [entriesOf] at hrest
      rw [entriesOf, List.map_cons, List.mapM_cons, hrest]
      simp [LawfulSerialKey.ofName_toName, h entry List.mem_cons_self]

instance {κ α : Type} [Ord κ] [Std.TransOrd κ] [SerialKey κ] [LawfulSerialKey κ] [Serial α]
    [LawfulSerial α] : LawfulSerial (Table κ α) where
  decode_encode t := by
    have hentries := Document.entriesOf_map fun (entry : κ × α) (_ : entry ∈ t.entries) =>
      decode_encode entry.2
    exact (congrArg (Option.map Table.ofList) hentries).trans (congrArg some t.ofList_entries)
  encode_ne_null _ := nofun

instance : LawfulSerial AccessorTable where
  decode_encode t := by
    have hentries : entriesOf (AccessorKind.all.map fun kind => (kind.tag, encode (t.get kind))) =
        some (AccessorKind.all.map fun kind => (kind, t.get kind)) := by
      rw [← Document.entriesOf_map fun entry _ => optionOf_encode entry.2, List.map_map]
      rfl
    unfold instSerialAccessorTable
    simp only [hentries]
    rfl
  encode_ne_null _ := nofun

/-! ## Collections -/

instance : LawfulSerial OverloadSet where
  decode_encode set := by
    unfold instSerialOverloadSet
    simp
  encode_ne_null _ := nofun

instance : LawfulSerial FunctionTable where
  decode_encode t := by
    unfold instSerialFunctionTable
    simp
  encode_ne_null _ := nofun

instance : LawfulSerial PropertyEntry where
  decode_encode r := by
    unfold instSerialPropertyEntry
    simp
  encode_ne_null _ := nofun

instance : LawfulSerial PropertyTable where
  decode_encode t := by
    unfold instSerialPropertyTable
    simp
  encode_ne_null _ := nofun

instance : LawfulSerial WitnessTable where
  decode_encode t := by
    unfold instSerialWitnessTable
    simp
  encode_ne_null _ := nofun

instance : LawfulSerial VariableTable where
  decode_encode t := by
    unfold instSerialVariableTable
    simp
  encode_ne_null _ := nofun

/-! ## Types, modules and inventories -/

instance : LawfulSerial TypeSurface where
  decode_encode c := by
    unfold instSerialTypeSurface
    simp
  encode_ne_null _ := nofun

instance : LawfulSerial ModuleSurface where
  decode_encode m := by
    unfold instSerialModuleSurface
    simp
  encode_ne_null _ := nofun

instance : LawfulSerial Architecture where
  decode_encode a := by cases a <;> rfl
  encode_ne_null a := by cases a <;> nofun

instance : LawfulSerial Inventory where
  decode_encode i := by
    unfold instSerialInventory
    simp
  encode_ne_null _ := nofun

/-- **The serialized forms lose nothing.** Inventories, type expressions and declarations are read
back from what is written for them, whether they were made or read from a document. -/
theorem serial_forms_roundTrip :
    RoundTrips Inventory ∧ RoundTrips TypeExpr ∧ RoundTrips Declaration :=
  ⟨LawfulSerial.roundTrips _, LawfulSerial.roundTrips _, LawfulSerial.roundTrips _⟩

end SwiftSurface
