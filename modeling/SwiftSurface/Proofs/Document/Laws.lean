import SwiftSurface.Document.Basic

/-!
# Laws of serialized forms

A serialized form is lawful if a value is read back from its document and no document of a value is
`null`, so that absence can be told from every value. Lists and optional values keep the law. The
fields of a record are found by their names (`fields?_record`, `find?_cons`), which makes the law of
a structure follow from the laws of its fields.
-/

namespace SwiftSurface

open Document

/-- Types whose values are read back from what is written for them. -/
class LawfulSerial (α : Type) [Serial α] : Prop where
  decode_encode (a : α) : decode (encode a) = some a
  /-- A value is written differently from absence. -/
  encode_ne_null (a : α) : encode a ≠ .null

export LawfulSerial (decode_encode encode_ne_null)

attribute [simp] LawfulSerial.decode_encode LawfulSerial.encode_ne_null

/-! ## Fields -/

namespace Document

@[simp] theorem find?_cons (name other : String) (value : Document)
    (fields : List (String × Document)) :
    find? ((name, value) :: fields) other =
      if name = other then some value else find? fields other := by
  by_cases h : name = other <;> simp [find?, h]

@[simp] theorem fields?_record (names : List String) (fields : List (String × Document)) :
    fields? names (.record fields) = some (names.map (find? fields)) :=
  rfl

@[simp] theorem members?_record (names : List String) (fields : List (String × Document)) :
    members? names (.record fields) = some (names.map (find? fields)) :=
  rfl

@[simp] theorem variant?_tagged (name : String) (content : Document) :
    variant? (tagged name content) = some (name, some content) :=
  rfl

@[simp] theorem required_some {α : Type} (item : Document → Option α) (document : Document) :
    required item (some document) = item document :=
  rfl

theorem optionOf_of_ne_null {α : Type} (item : Document → Option α) {document : Document}
    (h : document ≠ .null) : optionOf item document = (item document).map some := by
  unfold optionOf
  split
  case h_1 => exact absurd rfl h
  case h_2 => rfl

section Optional

variable {α : Type} [Serial α] [LawfulSerial α]

/-- What may be absent is read back as well. -/
theorem optionOf_encode (a : Option α) : optionOf decode (encode a) = some a := by
  cases a with
  | none => rfl
  | some a =>
      have hwritten : encode (some a) = encode a := rfl
      rw [hwritten, optionOf_of_ne_null _ (encode_ne_null a), decode_encode, Option.map_some]

@[simp] theorem optional_encode (a : Option α) : optional decode (some (encode a)) = some a :=
  optionOf_encode a

end Optional

/-! ## Lists and names -/

/-- A list is read back if each item is. -/
theorem listOf_map {α : Type} {item : Document → Option α} {write : α → Document} {as : List α}
    (h : ∀ a ∈ as, item (write a) = some a) : listOf item (.list (as.map write)) = some as := by
  have hmap : as.mapM (fun a => item (write a)) = some as := by
    induction as with
    | nil => rfl
    | cons a as ih =>
        rw [List.mapM_cons, h a List.mem_cons_self, ih fun b hb => h b (List.mem_cons_of_mem a hb)]
        rfl
  rw [listOf, List.mapM_map]
  exact hmap

/-! ## Depth -/

theorem depth_le_depthOfItems {item : Document} {items : List Document} (h : item ∈ items) :
    item.depth ≤ depthOfItems items := by
  induction items with
  | nil => simp at h
  | cons first items ih =>
      rw [depthOfItems]
      rcases List.mem_cons.1 h with rfl | h
      · omega
      · have := ih h
        omega

end Document

/-! ## Scalars -/

instance : LawfulSerial Bool where
  decode_encode _ := rfl
  encode_ne_null _ := nofun

instance : LawfulSerial String where
  decode_encode _ := rfl
  encode_ne_null _ := nofun

instance : LawfulSerial UInt64 where
  decode_encode word := by
    have hword : word.toNat < UInt64.size := word.toNat_lt
    unfold instSerialUInt64
    simp [hword]
  encode_ne_null _ := nofun

instance {α : Type} [Serial α] [LawfulSerial α] : LawfulSerial (List α) where
  decode_encode _ := listOf_map fun a _ => decode_encode a
  encode_ne_null _ := nofun

/-! ## Reading again -/

/-- Does reading what is written give the value back, whether the value was made or read? -/
def RoundTrips (α : Type) [Serial α] : Prop :=
  (∀ a : α, decode (encode a) = some a) ∧
    ∀ (document : Document) (a : α), decode document = some a → decode (encode a) = some a

theorem LawfulSerial.roundTrips (α : Type) [Serial α] [LawfulSerial α] : RoundTrips α :=
  ⟨decode_encode, fun _ a _ => decode_encode a⟩

end SwiftSurface
