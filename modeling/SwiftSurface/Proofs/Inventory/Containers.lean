import SwiftSurface.Proofs.Inventory.StaticFunctions

/-!
# Filing in a container

Every level of an inventory files a declaration in a container that it finds by a key and makes if
it is not there. `Table.fileAt` is this one step. The equations `outcome_…` say of each level which
table, key and container it is, so that a property of filing is proved for `Table.fileAt` once and
then carried from the overload sets and property entries up to the modules.

An outcome leaves out the events: it is the state afterwards and whether the declaration was
refused.
-/

namespace SwiftSurface

namespace Filed

variable {σ τ : Type}

/-- The state afterwards and the refusal, without what happened on the way. -/
def outcome (filed : Filed σ) : σ × Option SlotTaken :=
  (filed.after, filed.rejection)

theorem outcome_eq_iff {a b : Filed σ} :
    a.outcome = b.outcome ↔ a.after = b.after ∧ a.rejection = b.rejection := by
  simp [outcome]

@[simp] theorem outcome_following (filed : Filed σ) (event : FilingEvent) :
    (filed.following event).outcome = filed.outcome := rfl

theorem outcome_within {a b : Filed σ} (h : a.outcome = b.outcome) (rebuild : σ → τ) :
    (a.within rebuild).outcome = (b.within rebuild).outcome := by
  obtain ⟨hafter, hrejection⟩ := outcome_eq_iff.1 h
  simp [outcome, hafter, hrejection]

end Filed

/-! ## Find or make, then file -/

namespace Table

variable {κ σ : Type} [Ord κ] [Std.TransOrd κ]

/-- Files in the container at `key`, which is `made` if none is there. -/
def fileAt (t : Table κ σ) (key : κ) (made : σ) (file : σ → Filed σ) : Filed (Table κ σ) :=
  (file ((t.get? key).getD made)).within (t.insert key)

end Table

/-! ## The groups of functions of a type -/

/-- The groups of functions that a type keeps by their names. -/
inductive FunctionGroup where
  | constructors
  | destructors
  | methods
  | methodDescriptors
  | staticFunctions
  | initializers
deriving DecidableEq

/-- The destination of the functions of this group. -/
def FunctionGroup.destination : FunctionGroup → Destination
  | .constructors => .constructors
  | .destructors => .destructors
  | .methods => .methods
  | .methodDescriptors => .methodDescriptors
  | .staticFunctions => .staticFunctions
  | .initializers => .initializers

namespace OverloadSet

/-- Files a static function in the overload set of its name: what `FunctionTable.addStatic` does to
this set. -/
def addStatic (set : OverloadSet) (f : FunctionDecl) : Filed OverloadSet :=
  match set.functions.find? (·.isCounterpartOf f) with
  | none => set.add f
  | some counterpart =>
    if counterpart.isThunk then
      { after := set.replace counterpart.mangledName (f.withThunk counterpart.toThunk?) }
    else
      match set.find? counterpart.mangledName with
      | none => { after := set }
      | some canonical =>
        match canonical.signature.static? with
        | none => { after := set }
        | some s =>
          if s.thunk.map (·.mangledName) = some f.mangledName then
            .refused set { slot := .overload, owner := f.ownerName, member := some f.mangledName }
          else
            { after := set.replace counterpart.mangledName (canonical.withThunk f.toThunk?) }

/-- Files a function in an overload set of this group. Only static functions are linked. -/
def fileIn (group : FunctionGroup) (set : OverloadSet) (f : FunctionDecl) : Filed OverloadSet :=
  match group with
  | .staticFunctions => set.addStatic f
  | _ => set.add f

end OverloadSet

namespace FunctionTable

/-- Files a function in the table of this group. -/
def fileIn (group : FunctionGroup) (t : FunctionTable) (f : FunctionDecl) : Filed FunctionTable :=
  match group with
  | .staticFunctions => t.addStatic f
  | _ => t.add f

theorem outcome_add (t : FunctionTable) (f : FunctionDecl) :
    (t.add f).outcome =
      ((t.overloads.fileAt f.name (.empty f.name) (·.add f)).within FunctionTable.mk).outcome := rfl

theorem named_eq_functions (t : FunctionTable) (name : String) :
    t.named name = ((t.overloads.get? name).getD (.empty name)).functions := by
  rw [named]
  cases t.overloads.get? name <;> rfl

/-- Writing back the overload set of a name changes nothing. -/
theorem mk_insert_of_get? {t : FunctionTable} {name : String} {set : OverloadSet}
    (h : t.overloads.get? name = some set) :
    FunctionTable.mk (t.overloads.insert name set) = t := by
  rw [Table.insert_of_get? h]

/-- Filing a static function reads and writes the overload set of its name only. -/
theorem outcome_addStatic (t : FunctionTable) (f : FunctionDecl) :
    (t.addStatic f).outcome =
      ((t.overloads.fileAt f.name (.empty f.name) (·.addStatic f)).within
        FunctionTable.mk).outcome := by
  rw [Filed.outcome_eq_iff]
  cases hget : t.overloads.get? f.name with
  | none =>
      -- no function of this name, so no counterpart either
      simp [addStatic, counterpart?, named, hget, Table.fileAt, OverloadSet.addStatic,
        OverloadSet.empty, add]
  | some set =>
      have hcounterpart : t.counterpart? f = set.functions.find? (·.isCounterpartOf f) := by
        simp [counterpart?, named, hget]
      simp only [addStatic, hcounterpart, Table.fileAt, hget, Option.getD_some,
        OverloadSet.addStatic]
      cases hfind : set.functions.find? (·.isCounterpartOf f) with
      | none => simp [add, hget]
      | some c =>
          have hheld : (set.find? c.mangledName).isSome :=
            List.find?_isSome.2 ⟨c, List.mem_of_find?_eq_some hfind, by simp⟩
          obtain ⟨canonical, hcanonical⟩ := Option.isSome_iff_exists.1 hheld
          have hsame := mk_insert_of_get? hget
          dsimp only
          by_cases hthunk : c.isThunk
          · simp [hthunk, addCanonical, replace?, hget, hcanonical]
          · simp only [hthunk, Bool.false_eq_true, if_false, addThunk, find?, hget,
              Option.bind_some, hcanonical]
            cases hs : canonical.signature.static? with
            | none => simp [hsame]
            | some s =>
                cases hlink : s.thunk with
                | none => simp [replace?, hget, hcanonical, hlink]
                | some old =>
                    by_cases hold : old.mangledName = f.mangledName
                    · simp [hlink, hold, hsame]
                    · simp [hlink, hold, replace?, hget, hcanonical]

theorem outcome_fileIn (group : FunctionGroup) (t : FunctionTable) (f : FunctionDecl) :
    (t.fileIn group f).outcome =
      ((t.overloads.fileAt f.name (.empty f.name) (OverloadSet.fileIn group · f)).within
        FunctionTable.mk).outcome := by
  cases group with
  | staticFunctions => exact t.outcome_addStatic f
  | _ => exact t.outcome_add f

end FunctionTable

namespace PropertyTable

theorem outcome_add (t : PropertyTable) (f : FunctionDecl) (kind : AccessorKind)
    (isDescriptor : Bool) :
    (t.add f kind isDescriptor).outcome =
      ((t.entries.fileAt f.name { owner := f.ownerName, name := f.name }
        (·.add f kind isDescriptor)).within PropertyTable.mk).outcome := rfl

end PropertyTable

/-! ## Types -/

namespace TypeSurface

/-- The functions of this group. -/
def functions (c : TypeSurface) : FunctionGroup → FunctionTable
  | .constructors => c.constructors
  | .destructors => c.destructors
  | .methods => c.methods
  | .methodDescriptors => c.methodDescriptors
  | .staticFunctions => c.staticFunctions
  | .initializers => c.initializers

/-- The contents with these functions in this group. -/
def withFunctions (c : TypeSurface) (group : FunctionGroup) (functions : FunctionTable) :
    TypeSurface :=
  match group with
  | .constructors => { c with constructors := functions }
  | .destructors => { c with destructors := functions }
  | .methods => { c with methods := functions }
  | .methodDescriptors => { c with methodDescriptors := functions }
  | .staticFunctions => { c with staticFunctions := functions }
  | .initializers => { c with initializers := functions }

/-- A function with one of these destinations is filed in the table of its group. -/
theorem addAt_destination (c : TypeSurface) (f : FunctionDecl) (isDescriptor : Bool)
    (group : FunctionGroup) :
    c.addAt f isDescriptor group.destination =
      ((c.functions group).fileIn group f).within (c.withFunctions group) := by
  cases group <;> rfl

/-- A destination that is no group of functions is one of these. -/
theorem destination_cases (destination : Destination) :
    (∃ group : FunctionGroup, destination = group.destination) ∨
      destination = .classConstructor ∨ (∃ isPrivate, destination = .subscripts isPrivate) ∨
      (∃ group accessor, destination = .property group accessor) ∨
      destination = .witnessTable ∨ destination = .unknown := by
  cases destination with
  | constructors => exact .inl ⟨.constructors, rfl⟩
  | destructors => exact .inl ⟨.destructors, rfl⟩
  | methods => exact .inl ⟨.methods, rfl⟩
  | methodDescriptors => exact .inl ⟨.methodDescriptors, rfl⟩
  | staticFunctions => exact .inl ⟨.staticFunctions, rfl⟩
  | initializers => exact .inl ⟨.initializers, rfl⟩
  | _ => simp

end TypeSurface

/-! ## Modules and the inventory -/

theorem ModuleSurface.outcome_addOwned (m : ModuleSurface) (owner : NominalName)
    (d : Declaration) :
    (m.addOwned owner d).outcome =
      (((m.family owner.kind).fileAt owner.fullName (.empty owner) (·.add d)).within
        (m.withFamily owner.kind)).outcome := by
  rw [addOwned]
  cases hget : (m.family owner.kind).get? owner.fullName <;>
    simp [Table.fileAt, hget, Filed.outcome]

theorem Inventory.outcome_add (i : Inventory) (d : Declaration) :
    (i.add d).outcome =
      ((i.modules.fileAt d.module { name := d.module } (·.add d)).within
        fun modules => { i with modules }).outcome := rfl

/-! ### What a declaration is filed in -/

/-- The contents of the type that owns the declaration. -/
def ModuleSurface.ownerOf? (m : ModuleSurface) (d : Declaration) : Option TypeSurface :=
  d.owner.bind fun owner => (m.family owner.kind).get? owner.fullName

/-- The contents of the type that owns the declaration. -/
def Inventory.ownerOf? (i : Inventory) (d : Declaration) : Option TypeSurface :=
  (i.modules.get? d.module).bind (·.ownerOf? d)

namespace ModuleSurface

variable {m : ModuleSurface} {d : Declaration} {owner : NominalName}

/-- The contents that an owned declaration is filed in, made if they are not there. -/
def ownerOrMade (m : ModuleSurface) (owner : NominalName) : TypeSurface :=
  ((m.family owner.kind).get? owner.fullName).getD (.empty owner)

theorem add_of_owner (howner : d.owner = some owner) :
    (m.add d).outcome = (((m.family owner.kind).fileAt owner.fullName (.empty owner)
      (·.add d)).within (m.withFamily owner.kind)).outcome := by
  simpa only [add, howner] using m.outcome_addOwned owner d

theorem family_withFamily_self (m : ModuleSurface) (kind : NominalKind)
    (types : Table String TypeSurface) : (m.withFamily kind types).family kind = types := by
  cases kind <;> rfl

theorem ownerOf?_add (howner : d.owner = some owner) :
    (m.add d).after.ownerOf? d = some ((m.ownerOrMade owner).add d).after := by
  obtain ⟨hafter, -⟩ := Filed.outcome_eq_iff.1 (add_of_owner (m := m) howner)
  simp only [ownerOf?, howner, Option.bind_some, hafter, Filed.after_within,
    family_withFamily_self]
  exact Table.get?_insert_self _ _ _

end ModuleSurface

namespace Inventory

/-- The module that a declaration is filed in, made if it is not there. -/
def moduleOrMade (i : Inventory) (d : Declaration) : ModuleSurface :=
  (i.modules.get? d.module).getD { name := d.module }

theorem get?_module_add (i : Inventory) (d : Declaration) :
    (i.add d).after.modules.get? d.module = some ((i.moduleOrMade d).add d).after :=
  Table.get?_insert_self _ _ _

end Inventory

/-! ## All types of an inventory -/

/-- Does every type of the module, with the full name it is kept by, have this property? -/
def ModuleSurface.Every (P : String → TypeSurface → Prop) (m : ModuleSurface) : Prop :=
  ∀ kind name c, (m.family kind).get? name = some c → P name c

/-- Does every type of every module, with the full name it is kept by, have this property? -/
def Inventory.Every (P : String → TypeSurface → Prop) (i : Inventory) : Prop :=
  ∀ module m, i.modules.get? module = some m → m.Every P

variable {P Q : String → TypeSurface → Prop} {d : Declaration}

theorem ModuleSurface.made_every (name : String) : ModuleSurface.Every P { name } := by
  intro kind _ c hget
  cases kind <;> simp [family, Table.get?, Table.empty] at hget

theorem Inventory.empty_every (architecture : Architecture) :
    Inventory.Every P { architecture } := by
  intro module m hget
  simp [Table.get?, Table.empty] at hget

/-- What a module reads after writing one of its families. -/
theorem ModuleSurface.family_withFamily (m : ModuleSurface) (kind other : NominalKind)
    (types : Table String TypeSurface) :
    (m.withFamily kind types).family other = types ∨
      (m.withFamily kind types).family other = m.family other := by
  cases kind <;> cases other <;> simp [withFamily, family]

/-- The contents that an owned declaration is filed in have every property that all types of the
module and contents just made have. -/
theorem ModuleSurface.Every.getD {m : ModuleSurface} (h : m.Every P) (owner : NominalName)
    (hmade : P owner.fullName (.empty owner)) :
    P owner.fullName (((m.family owner.kind).get? owner.fullName).getD (.empty owner)) := by
  cases hget : (m.family owner.kind).get? owner.fullName with
  | none => exact hmade
  | some c => exact h _ _ _ hget

theorem ModuleSurface.Every.add {m : ModuleSurface} (h : m.Every P)
    (hmade : ∀ owner, d.owner = some owner → P owner.fullName (.empty owner))
    (hkept : ∀ name c, P name c → Q name c)
    (hadd : ∀ name c, P name c → Q name (c.add d).after) : (m.add d).after.Every Q := by
  intro kind name c hget
  rw [ModuleSurface.add] at hget
  cases howner : d.owner with
  | some owner =>
      obtain ⟨hafter, -⟩ := Filed.outcome_eq_iff.1 (m.outcome_addOwned owner d)
      simp only [howner, hafter, Filed.after_within, Table.fileAt] at hget
      rcases m.family_withFamily owner.kind kind _ with hfamily | hfamily <;> rw [hfamily] at hget
      · rw [Table.get?_insert] at hget
        split at hget
        case isTrue heq =>
            obtain rfl := Std.LawfulEqCmp.eq_of_compare heq
            obtain rfl := Option.some.inj hget
            exact hadd _ _ (h.getD owner (hmade owner howner))
        case isFalse => exact hkept _ _ (h _ _ _ hget)
      · exact hkept _ _ (h _ _ _ hget)
  | none =>
      have hfamily : (m.addFree d).after.family kind = m.family kind := by
        cases d <;> cases kind <;> rfl
      simp only [howner, hfamily] at hget
      exact hkept _ _ (h _ _ _ hget)

/-- A step keeps a property of all types, if contents just made have it and filing in contents that
have it keeps it. -/
theorem Inventory.Every.add {i : Inventory} (h : i.Every P)
    (hmade : ∀ owner, d.owner = some owner → P owner.fullName (.empty owner))
    (hkept : ∀ name c, P name c → Q name c)
    (hadd : ∀ name c, P name c → Q name (c.add d).after) : (i.add d).after.Every Q := by
  intro module m hget
  obtain ⟨hafter, -⟩ := Filed.outcome_eq_iff.1 (i.outcome_add d)
  simp only [hafter, Filed.after_within, Table.fileAt, Table.get?_insert] at hget
  split at hget
  case isTrue heq =>
      obtain rfl := Option.some.inj hget
      refine ModuleSurface.Every.add ?_ hmade hkept hadd
      cases hheld : i.modules.get? d.module with
      | none => exact ModuleSurface.made_every _
      | some m => exact h _ _ hheld
  case isFalse =>
      intro kind name c hc
      exact hkept _ _ (h _ _ hget _ _ _ hc)

end SwiftSurface
