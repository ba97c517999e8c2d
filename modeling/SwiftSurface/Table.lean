/-!
# Tables: finite maps in the order of their keys

A `Table κ α` lists its entries in ascending order of the keys, each key once. Two tables with the
same entries are therefore equal, and every listing of a table is sorted.

Main statements: `get?_insert_self` and `get?_insert_of_ne` say what writing does to reading.
-/

namespace SwiftSurface

/-- A finite map from keys to values, listed in ascending order of the keys. -/
structure Table (κ α : Type) [Ord κ] where
  entries : List (κ × α)
  ascending : entries.Pairwise fun a b => compare a.1 b.1 = .lt

namespace Table

variable {κ α β : Type} [Ord κ]

/-- The table without entries. -/
def empty : Table κ α :=
  ⟨[], .nil⟩

instance : Inhabited (Table κ α) := ⟨empty⟩

@[ext]
theorem ext_entries {t u : Table κ α} (same : t.entries = u.entries) : t = u := by
  obtain ⟨entries, _⟩ := t
  obtain ⟨_, _⟩ := u
  simp_all

instance [DecidableEq κ] [DecidableEq α] : DecidableEq (Table κ α) := fun t u =>
  decidable_of_iff (t.entries = u.entries) ⟨ext_entries, fun same => same ▸ rfl⟩

/-! ## Reading -/

/-- The value at `key`. -/
def get? (t : Table κ α) (key : κ) : Option α :=
  (t.entries.find? fun entry => compare entry.1 key == .eq).map Prod.snd

/-- The keys in order. -/
def keys (t : Table κ α) : List κ :=
  t.entries.map Prod.fst

/-- The values in the order of their keys. -/
def values (t : Table κ α) : List α :=
  t.entries.map Prod.snd

/-- The number of entries. -/
def size (t : Table κ α) : Nat :=
  t.entries.length

/-- Does the table hold nothing? -/
def isEmpty (t : Table κ α) : Bool :=
  t.entries.isEmpty

/-! ## Writing -/

/-- Writes an entry into an ascending list, in place of one with the same key. -/
def insertEntry (key : κ) (value : α) : List (κ × α) → List (κ × α)
  | [] => [(key, value)]
  | entry :: rest =>
    match compare key entry.1 with
    | .lt => (key, value) :: entry :: rest
    | .eq => (key, value) :: rest
    | .gt => entry :: insertEntry key value rest

theorem mem_insertEntry {key : κ} {value : α} {entry : κ × α} {entries : List (κ × α)} :
    entry ∈ insertEntry key value entries → entry = (key, value) ∨ entry ∈ entries := by
  induction entries with
  | nil => simp [insertEntry]
  | cons head rest ih =>
    simp only [insertEntry]
    split <;> grind

section Lawful

variable [Std.TransOrd κ]

theorem ascending_insertEntry (key : κ) (value : α) {entries : List (κ × α)}
    (ascending : entries.Pairwise fun a b => compare a.1 b.1 = .lt) :
    (insertEntry key value entries).Pairwise fun a b => compare a.1 b.1 = .lt := by
  induction entries with
  | nil => simp [insertEntry]
  | cons head rest ih =>
    obtain ⟨below, ascending⟩ := List.pairwise_cons.1 ascending
    simp only [insertEntry]
    split
    case h_1 smaller =>
      refine List.pairwise_cons.2 ⟨?_, List.pairwise_cons.2 ⟨below, ascending⟩⟩
      intro entry member
      rcases List.mem_cons.1 member with rfl | member
      · exact smaller
      · exact Std.TransCmp.lt_trans smaller (below entry member)
    case h_2 equal =>
      refine List.pairwise_cons.2 ⟨?_, ascending⟩
      intro entry member
      rw [Std.TransCmp.congr_left equal]
      exact below entry member
    case h_3 greater =>
      refine List.pairwise_cons.2 ⟨?_, ih ascending⟩
      intro entry member
      rcases mem_insertEntry member with rfl | member
      · exact Std.OrientedCmp.lt_of_gt greater
      · exact below entry member

/-- Writes `value` at `key`, in place of the value that was there. -/
def insert (t : Table κ α) (key : κ) (value : α) : Table κ α :=
  ⟨insertEntry key value t.entries, ascending_insertEntry key value t.ascending⟩

/-- The table of these entries; of two with one key the later stays. -/
def ofList (entries : List (κ × α)) : Table κ α :=
  entries.foldl (fun t entry => t.insert entry.1 entry.2) empty

theorem find?_insertEntry (key other : κ) (value : α) (entries : List (κ × α)) :
    ((insertEntry key value entries).find? fun entry => compare entry.1 other == .eq).map Prod.snd =
      if compare key other = .eq then some value
      else (entries.find? fun entry => compare entry.1 other == .eq).map Prod.snd := by
  induction entries with
  | nil => by_cases same : compare key other = .eq <;> simp [insertEntry, same]
  | cons head rest ih =>
    simp only [insertEntry]
    split
    case h_1 =>
      by_cases same : compare key other = .eq <;> simp [same]
    case h_2 equal =>
      rw [Std.TransCmp.congr_left equal]
      by_cases same : compare head.1 other = .eq
      · simp [Std.TransCmp.congr_left equal, same]
      · simp [Std.TransCmp.congr_left equal, same]
    case h_3 greater =>
      by_cases same : compare head.1 other = .eq
      · have apart : compare key other ≠ .eq := fun equal => by
          have : compare key head.1 = compare key other := Std.TransCmp.congr_right same
          simp_all
        simp [same, apart]
      · simp [same, ih]

/-- Reading after writing: the value just written at its key, and what was there at any other. -/
theorem get?_insert (t : Table κ α) (key other : κ) (value : α) :
    (t.insert key value).get? other =
      if compare key other = .eq then some value else t.get? other :=
  find?_insertEntry key other value t.entries

theorem get?_insert_self (t : Table κ α) (key : κ) (value : α) :
    (t.insert key value).get? key = some value := by
  simp [get?_insert, Std.ReflCmp.compare_self]

theorem get?_insert_of_ne [Std.LawfulEqOrd κ] (t : Table κ α) {key other : κ} (apart : key ≠ other)
    (value : α) : (t.insert key value).get? other = t.get? other := by
  simp [get?_insert, apart]

end Lawful

end Table

end SwiftSurface
