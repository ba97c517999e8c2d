import SwiftSurface.Proofs.Inventory.Places

/-!
# What a table keeps under a key

An inventory finds everything by keys: overload sets, properties and variables by names, witness
table symbols by kinds. This module says what it means that a container agrees with its key and is
not empty, and that filing keeps it so.

A container that was just made agrees with its key but is empty. So each kind of container has two
properties: `Under` a key, which filing needs, and `KeptUnder` it, which filing gives.
`Table.Every.fileAt` carries this over the get-or-make step.
-/

namespace SwiftSurface

/-! ## All entries of a table -/

namespace Table

variable {κ α : Type} [Ord κ] {P : κ → α → Prop} {t : Table κ α}

/-- Do all entries of the table, each a key and what is kept under it, have this property? -/
def Every (P : κ → α → Prop) (t : Table κ α) : Prop :=
  ∀ entry ∈ t.entries, P entry.1 entry.2

theorem empty_every : (empty : Table κ α).Every P := by
  intro entry hentry
  simp [empty] at hentry

theorem Every.of_get? [Std.LawfulEqOrd κ] (h : t.Every P) {key : κ} {value : α}
    (hget : t.get? key = some value) : P key value := by
  obtain ⟨entry, hfind, rfl⟩ := Option.map_eq_some_iff.1 hget
  have hkey : compare entry.1 key = .eq := by simpa using List.find?_some hfind
  obtain rfl := Std.LawfulEqCmp.eq_of_compare hkey
  exact h entry (List.mem_of_find?_eq_some hfind)

/-- What is found under a key, or made, has what holds of all entries and of a container just
made. -/
theorem Every.getD [Std.LawfulEqOrd κ] (h : t.Every P) {key : κ} {made : α} {Q : α → Prop}
    (hkept : ∀ s, P key s → Q s) (hmade : Q made) : Q ((t.get? key).getD made) := by
  cases hget : t.get? key with
  | none => exact hmade
  | some s => exact hkept s (h.of_get? hget)

variable [Std.TransOrd κ]

theorem Every.insert (h : t.Every P) {key : κ} {value : α} (hvalue : P key value) :
    (t.insert key value).Every P := by
  intro entry hentry
  rcases mem_insertEntry hentry with rfl | hold
  · exact hvalue
  · exact h entry hold

/-- The get-or-make step. Filing may rely on what holds of a container just made too, and gives what
all containers of the table have. -/
theorem Every.fileAt [Std.LawfulEqOrd κ] (h : t.Every P) {key : κ} {made : α}
    {file : α → Filed α} {Q : α → Prop} (hkept : ∀ s, P key s → Q s) (hmade : Q made)
    (hfile : ∀ s, Q s → P key (file s).after) : (t.fileAt key made file).after.Every P :=
  h.insert (hfile _ (h.getD hkept hmade))

end Table

/-- A list that is kept under a key is not empty and belongs there. -/
def GroupOf {κ α : Type} (belongs : κ → α → Prop) (key : κ) (members : List α) : Prop :=
  members ≠ [] ∧ ∀ x ∈ members, belongs key x

/-- Appending to the list of a key keeps the groups of a table. -/
theorem Table.Every.push {κ α : Type} [Ord κ] [Std.TransOrd κ] [Std.LawfulEqOrd κ]
    {t : Table κ (List α)} {belongs : κ → α → Prop} (h : t.Every (GroupOf belongs)) {key : κ}
    {x : α} (hx : belongs key x) :
    (t.insert key ((t.get? key).getD [] ++ [x])).Every (GroupOf belongs) := by
  refine h.insert ⟨by simp, ?_⟩
  intro y hy
  rcases List.mem_append.1 hy with hold | hnew
  · cases hget : t.get? key with
    | none => simp [hget] at hold
    | some members => exact (h.of_get? hget).2 y (by simpa [hget] using hold)
  · obtain rfl := List.mem_singleton.1 hnew
    exact hx

/-! ## Overload sets -/

namespace OverloadSet

variable {P : FunctionDecl → Prop} {name : String} {set : OverloadSet} {f : FunctionDecl}

/-- The set and its functions have the name under which it is kept, and the functions have the
property `P` of all functions of the table. -/
structure Under (P : FunctionDecl → Prop) (name : String) (set : OverloadSet) : Prop where
  name_eq : set.name = name
  functions : ∀ f ∈ set.functions, f.name = name ∧ P f

/-- The set agrees with the name under which it is kept and is not empty. -/
structure KeptUnder (P : FunctionDecl → Prop) (name : String) (set : OverloadSet) : Prop
    extends Under P name set where
  nonempty : set.functions ≠ []

theorem empty_under (name : String) : (empty name).Under P name :=
  ⟨rfl, by simp [empty]⟩

theorem Under.add (h : set.Under P f.name) (hf : P f) : (set.add f).after.KeptUnder P f.name := by
  rw [OverloadSet.add]
  split
  case isTrue hheld =>
      obtain ⟨g, hg⟩ := Option.isSome_iff_exists.1 hheld
      exact ⟨h, List.ne_nil_of_mem (List.mem_of_find?_eq_some hg)⟩
  case isFalse =>
      refine ⟨⟨h.name_eq, ?_⟩, by simp⟩
      intro g hg
      rcases List.mem_append.1 hg with hold | hnew
      · exact h.functions g hold
      · obtain rfl := List.mem_singleton.1 hnew
        exact ⟨rfl, hf⟩

/-- Writing over a function keeps the set under its name, if the new function belongs there. -/
theorem Under.replace (h : set.Under P name) (hne : set.functions ≠ []) {mangledName : String}
    {new : FunctionDecl} (hname : new.name = name) (hnew : P new) :
    (set.replace mangledName new).KeptUnder P name := by
  refine ⟨⟨h.name_eq, ?_⟩, ?_⟩
  · intro g hg
    rcases mem_replaceFirst hg with rfl | hold
    · exact ⟨hname, hnew⟩
    · exact h.functions g hold
  · intro hnil
    obtain ⟨first, rest, hset⟩ := List.exists_cons_of_ne_nil hne
    simp only [OverloadSet.replace, hset, replaceFirst] at hnil
    split at hnil <;> simp at hnil

/-- Filing a static function keeps the set under its name, if linking a thunk does not change
whether a function belongs there. -/
theorem Under.addStatic (h : set.Under P f.name) (hf : P f)
    (hlink : ∀ g thunk, P g → P (g.withThunk thunk)) :
    (set.addStatic f).after.KeptUnder P f.name := by
  rw [OverloadSet.addStatic]
  cases hfind : set.functions.find? (·.isCounterpartOf f) with
  | none => exact h.add hf
  | some c =>
      have hne : set.functions ≠ [] := List.ne_nil_of_mem (List.mem_of_find?_eq_some hfind)
      dsimp only
      split
      · exact h.replace hne (by simp) (hlink f _ hf)
      · split
        case h_1 => exact ⟨h, hne⟩
        case h_2 canonical hcanonical =>
            obtain ⟨hname, hP⟩ := h.functions canonical (List.mem_of_find?_eq_some hcanonical)
            split
            · exact ⟨h, hne⟩
            · split
              · exact ⟨h, hne⟩
              · exact h.replace hne (by simpa using hname) (hlink canonical _ hP)

theorem Under.fileIn (group : FunctionGroup) (h : set.Under P f.name) (hf : P f)
    (hlink : ∀ g thunk, P g → P (g.withThunk thunk)) :
    (OverloadSet.fileIn group set f).after.KeptUnder P f.name := by
  cases group with
  | staticFunctions => exact h.addStatic hf hlink
  | _ => exact h.add hf

end OverloadSet

/-! ## Function tables -/

namespace FunctionTable

variable {P : FunctionDecl → Prop} {t : FunctionTable} {f : FunctionDecl}

/-- Does the table keep every overload set under its name, and are its functions such as these? -/
def Keeps (P : FunctionDecl → Prop) (t : FunctionTable) : Prop :=
  t.overloads.Every (OverloadSet.KeptUnder P)

theorem Keeps.of_mem (h : t.Keeps P) {name : String} (hf : f ∈ t.named name) : P f := by
  rw [named_eq_functions] at hf
  cases hget : t.overloads.get? name with
  | none => simp [hget, OverloadSet.empty] at hf
  | some set => exact ((h.of_get? hget).functions f (by simpa [hget] using hf)).2

theorem Keeps.fileIn (group : FunctionGroup) (h : t.Keeps P) (hf : P f)
    (hlink : ∀ g thunk, P g → P (g.withThunk thunk)) : (t.fileIn group f).after.Keeps P := by
  obtain ⟨hafter, -⟩ := Filed.outcome_eq_iff.1 (t.outcome_fileIn group f)
  rw [hafter]
  exact Table.Every.fileAt h (fun _ hkept => hkept.toUnder) (OverloadSet.empty_under f.name)
    fun _ hunder => hunder.fileIn group hf hlink

theorem Keeps.add (h : t.Keeps P) (hf : P f) : (t.add f).after.Keeps P :=
  Table.Every.fileAt h (fun _ hkept => hkept.toUnder) (OverloadSet.empty_under f.name)
    fun _ hunder => hunder.add hf

/-- A function that is not linked goes in only if its mangled name is new. -/
theorem NamesOnce.add (h : t.NamesOnce) (f : FunctionDecl) : (t.add f).after.NamesOnce := by
  by_cases hmem : f.mangledName ∈ (t.named f.name).map (·.mangledName)
  · rw [t.add_keeps f (by simp [add_of_mem hmem])]
    exact h
  · intro name
    by_cases hname : f.name = name
    · subst hname
      rw [(add_of_not_mem hmem).2, List.map_append, List.nodup_append]
      simpa [h f.name] using hmem
    · rw [named_add_of_ne hname]
      exact h name

theorem NamesOnce.fileIn {group : FunctionGroup} (h : t.NamesOnce)
    (hgroup : group ≠ .staticFunctions) (f : FunctionDecl) :
    (t.fileIn group f).after.NamesOnce := by
  cases group with
  | staticFunctions => exact absurd rfl hgroup
  | _ => exact h.add f

end FunctionTable

/-! ## Properties -/

namespace PropertyEntry

variable {P : AccessorSlot → FunctionDecl → Prop} {owner name : String} {r : PropertyEntry}
  {f : FunctionDecl}

/-- The entry and its accessors have the name under which it is kept, the entry names the owner of
the table, and each accessor has the property `P` of the accessors in its slot. -/
structure Under (P : AccessorSlot → FunctionDecl → Prop) (owner name : String)
    (r : PropertyEntry) : Prop where
  owner_eq : r.owner = owner
  name_eq : r.name = name
  accessors : ∀ slot f, r.read slot = some f → f.name = name ∧ P slot f

/-- The entry agrees with the name under which it is kept and is not empty. -/
structure KeptUnder (P : AccessorSlot → FunctionDecl → Prop) (owner name : String)
    (r : PropertyEntry) : Prop extends Under P owner name r where
  nonempty : ∃ slot, (r.read slot).isSome

theorem made_under (owner name : String) : Under P owner name { owner, name } := by
  refine ⟨rfl, rfl, fun slot f hread => ?_⟩
  obtain ⟨kind, isDescriptor⟩ := slot
  cases isDescriptor <;> cases kind <;> simp [read, AccessorTable.get] at hread

theorem Under.add (h : r.Under P owner f.name) (slot : AccessorSlot) (hf : P slot f) :
    (r.add f slot.kind slot.isDescriptor).after.KeptUnder P owner f.name := by
  have houtcome := r.outcome_add f slot
  by_cases hheld : (r.read slot).isSome
  · rw [if_pos hheld, Filed.outcome, Prod.mk.injEq] at houtcome
    rw [houtcome.1]
    exact ⟨h, slot, hheld⟩
  · rw [if_neg hheld, Filed.outcome, Prod.mk.injEq] at houtcome
    obtain ⟨howner, hname⟩ := r.owner_write slot f
    rw [houtcome.1]
    refine ⟨⟨howner.trans h.owner_eq, hname.trans h.name_eq, fun other g hread => ?_⟩,
      slot, by simp [read_write]⟩
    rw [read_write] at hread
    split at hread
    case isTrue hsame =>
        obtain rfl := Option.some.inj hread
        exact ⟨rfl, hsame ▸ hf⟩
    case isFalse => exact h.accessors other g hread

end PropertyEntry

namespace PropertyTable

variable {P : AccessorSlot → FunctionDecl → Prop} {owner : String} {t : PropertyTable}
  {f : FunctionDecl}

/-- Does the table keep every property of the owner under its name, with such accessors? -/
def Keeps (P : AccessorSlot → FunctionDecl → Prop) (owner : String) (t : PropertyTable) : Prop :=
  t.entries.Every (PropertyEntry.KeptUnder P owner)

theorem Keeps.add (h : t.Keeps P f.ownerName) (slot : AccessorSlot) (hf : P slot f) :
    (t.add f slot.kind slot.isDescriptor).after.Keeps P f.ownerName :=
  Table.Every.fileAt h (fun _ hkept => hkept.toUnder) (PropertyEntry.made_under f.ownerName f.name)
    fun _ hunder => hunder.add slot hf

end PropertyTable

/-! ## Variables and witness table symbols -/

/-- Does the table keep every variable under its name? -/
def VariableTable.Keeps (t : VariableTable) : Prop :=
  t.groups.Every (GroupOf fun name v => v.name = name)

theorem VariableTable.Keeps.add {t : VariableTable} (h : t.Keeps) (v : VariableDecl) :
    (t.add v).Keeps :=
  Table.Every.push h rfl

/-- Does the table keep every witness table symbol under its kind, and are its symbols such as
these? -/
def WitnessTable.Keeps (P : FunctionDecl → Prop) (t : WitnessTable) : Prop :=
  t.groups.Every
    (GroupOf fun kind f => (∃ conformsTo, f.signature = .witnessTable kind conformsTo) ∧ P f)

theorem WitnessTable.Keeps.add? {P : FunctionDecl → Prop} {t after : WitnessTable}
    {f : FunctionDecl} (h : t.Keeps P) (hf : P f) (hadd : t.add? f = some after) :
    after.Keeps P := by
  rw [WitnessTable.add?] at hadd
  split at hadd
  case h_1 kind conformsTo hsignature =>
      obtain rfl := Option.some.inj hadd
      exact Table.Every.push h ⟨⟨conformsTo, hsignature⟩, hf⟩
  case h_2 => exact absurd hadd (by simp)

end SwiftSurface
