import SwiftSurface.Declaration.Sample
import SwiftSurface.Proofs.Inventory.Runs
import SwiftSurface.Proofs.Table

/-!
# A refused declaration leaves nothing behind

Every level of an inventory makes the container for a declaration before the level below can refuse
it. A refusal leaves no trace all the same (`add_of_refused`): what was just made is empty and
refuses nothing (`Accepts`), and a container that was there already is written back as it was
(`Table.insert_of_get?`).

`KeepsIfRefused` says this of one outcome. `getOrMake_keeps` carries it over a get-or-make step,
so that each level needs only what it says about the level below.
-/

namespace SwiftSurface

/-! ## Outcomes that keep what they refuse to change -/

namespace Filed

variable {σ τ : Type}

/-- If the declaration is refused, what it was to be filed in stays `before`. -/
def KeepsIfRefused (filed : Filed σ) (before : σ) : Prop :=
  filed.rejection.isSome → filed.after = before

/-- The declaration is not refused. -/
def Accepts (filed : Filed σ) : Prop :=
  filed.rejection = none

theorem Accepts.keeps {filed : Filed σ} (h : filed.Accepts) (before : σ) :
    filed.KeepsIfRefused before := by
  intro hrefused
  rw [Accepts] at h
  simp [h] at hrefused

theorem refused_keeps (before : σ) (rejection : SlotTaken) :
    (refused before rejection).KeepsIfRefused before :=
  fun _ => rfl

theorem keeps_of_accepted (after : σ) (events : List FilingEvent) (before : σ) :
    KeepsIfRefused { after, events } before := by
  refine Accepts.keeps ?_ before
  rfl

@[simp] theorem accepts_within (part : Filed σ) (rebuild : σ → τ) :
    (part.within rebuild).Accepts ↔ part.Accepts := Iff.rfl

@[simp] theorem accepts_following (filed : Filed σ) (event : FilingEvent) :
    (filed.following event).Accepts ↔ filed.Accepts := Iff.rfl

theorem KeepsIfRefused.within {part : Filed σ} {before : σ} (h : part.KeepsIfRefused before)
    (rebuild : σ → τ) : (part.within rebuild).KeepsIfRefused (rebuild before) :=
  fun hrefused => congrArg rebuild (h hrefused)

/-- The get-or-make step. If filing keeps what it refuses to change, and a container just made
refuses nothing, then the table with the container written into it keeps what it refuses to
change. -/
theorem getOrMake_keeps {κ : Type} [Ord κ] [Std.TransOrd κ] [Std.LawfulEqOrd κ] {t : Table κ σ}
    {key : κ} {made : σ} (file : σ → Filed σ) (hfile : ∀ s, (file s).KeepsIfRefused s)
    (hmade : (file made).Accepts) :
    ((file ((t.get? key).getD made)).within (t.insert key)).KeepsIfRefused t := by
  cases hget : t.get? key with
  | none => exact Accepts.keeps ((accepts_within _ _).2 hmade) t
  | some held =>
      have hkeep := (hfile held).within (t.insert key)
      rwa [Table.insert_of_get? hget] at hkeep

end Filed

open Filed

/-! ## Overload sets and property entries -/

theorem OverloadSet.add_keeps (set : OverloadSet) (f : FunctionDecl) :
    (set.add f).KeepsIfRefused set := by
  rw [OverloadSet.add]
  split
  · exact refused_keeps _ _
  · exact keeps_of_accepted _ _ _

theorem OverloadSet.empty_accepts (name : String) (f : FunctionDecl) :
    ((OverloadSet.empty name).add f).Accepts := rfl

theorem PropertyEntry.add_keeps (r : PropertyEntry) (f : FunctionDecl) (kind : AccessorKind)
    (isDescriptor : Bool) : (r.add f kind isDescriptor).KeepsIfRefused r := by
  rw [PropertyEntry.add]
  split <;> split
  · exact refused_keeps _ _
  · exact keeps_of_accepted _ _ _
  · exact refused_keeps _ _
  · exact keeps_of_accepted _ _ _

/-- The entry of a property without accessors takes any first accessor. -/
theorem PropertyEntry.made_accepts (owner name : String) (f : FunctionDecl) (kind : AccessorKind)
    (isDescriptor : Bool) :
    (PropertyEntry.add { owner, name } f kind isDescriptor).Accepts := by
  cases isDescriptor <;> cases kind <;> rfl

/-! ## Function tables and property tables -/

theorem FunctionTable.add_keeps (t : FunctionTable) (f : FunctionDecl) :
    (t.add f).KeepsIfRefused t := by
  have hkeep : ((((t.overloads.get? f.name).getD (.empty f.name)).add f).within
      (t.overloads.insert f.name)).KeepsIfRefused t.overloads :=
    getOrMake_keeps (fun (set : OverloadSet) => set.add f) (fun set => set.add_keeps f)
      (OverloadSet.empty_accepts f.name f)
  exact hkeep.within FunctionTable.mk

theorem PropertyTable.add_keeps (t : PropertyTable) (f : FunctionDecl) (kind : AccessorKind)
    (isDescriptor : Bool) : (t.add f kind isDescriptor).KeepsIfRefused t := by
  have hkeep : ((((t.entries.get? f.name).getD { owner := f.ownerName, name := f.name }).add f kind
      isDescriptor).within (t.entries.insert f.name)).KeepsIfRefused t.entries :=
    getOrMake_keeps (fun (r : PropertyEntry) => r.add f kind isDescriptor)
      (fun r => r.add_keeps f kind isDescriptor)
      (PropertyEntry.made_accepts f.ownerName f.name f kind isDescriptor)
  exact hkeep.within PropertyTable.mk

theorem PropertyTable.empty_accepts (f : FunctionDecl) (kind : AccessorKind)
    (isDescriptor : Bool) : (PropertyTable.empty.add f kind isDescriptor).Accepts :=
  PropertyEntry.made_accepts f.ownerName f.name f kind isDescriptor

/-! ## Static functions -/

/-- A counterpart is found among the functions of its own name. -/
theorem FunctionTable.find?_counterpart {t : FunctionTable} {f counterpart : FunctionDecl}
    (h : t.counterpart? f = some counterpart) :
    ∃ set held, t.overloads.get? f.name = some set ∧
      set.find? counterpart.mangledName = some held := by
  have hmem := List.mem_of_find?_eq_some h
  rw [FunctionTable.named] at hmem
  cases hget : t.overloads.get? f.name with
  | none => simp [hget] at hmem
  | some set =>
      simp only [hget, Option.map_some, Option.getD_some] at hmem
      have hsome : (set.find? counterpart.mangledName).isSome :=
        List.find?_isSome.2 ⟨counterpart, hmem, by simp⟩
      obtain ⟨held, hheld⟩ := Option.isSome_iff_exists.1 hsome
      exact ⟨set, held, rfl, hheld⟩

/-- A canonical function always takes the place of the thunk that was found for it. -/
theorem FunctionTable.addCanonical_accepts {t : FunctionTable} {f thunk : FunctionDecl}
    (h : t.counterpart? f = some thunk) : (t.addCanonical thunk f).Accepts := by
  obtain ⟨set, held, hset, hheld⟩ := find?_counterpart h
  rw [addCanonical, accepts_following, replace?, hset]
  simp only [hheld, Option.isSome_some, if_true]
  rfl

theorem FunctionTable.addThunk_keeps (t : FunctionTable) (canonicalName : String)
    (thunk : FunctionDecl) : (t.addThunk canonicalName thunk).KeepsIfRefused t := by
  rw [addThunk]
  split
  · exact keeps_of_accepted _ _ _
  · split
    · exact keeps_of_accepted _ _ _
    · split
      · exact keeps_of_accepted _ _ _
      · -- another thunk is linked: it gives way, unless it is this one
        dsimp only
        split
        · exact refused_keeps _ _
        · exact keeps_of_accepted _ _ _

theorem FunctionTable.addStatic_keeps (t : FunctionTable) (f : FunctionDecl) :
    (t.addStatic f).KeepsIfRefused t := by
  rw [addStatic]
  cases h : t.counterpart? f with
  | none => exact t.add_keeps f
  | some counterpart =>
      dsimp only
      split
      · exact (addCanonical_accepts h).keeps t
      · exact t.addThunk_keeps counterpart.mangledName f

/-! ## Types -/

namespace TypeSurface

theorem addRecord_keeps (c : TypeSurface) (kind : RecordKind) (r : MetadataRecord) :
    (c.addRecord kind r).KeepsIfRefused c := by
  rw [addRecord]
  split
  · exact refused_keeps _ _
  · exact keeps_of_accepted _ _ _

theorem addClassConstructor_keeps (c : TypeSurface) (f : FunctionDecl) :
    (c.addClassConstructor f).KeepsIfRefused c := by
  rw [addClassConstructor]
  split
  · exact refused_keeps _ _
  · exact keeps_of_accepted _ _ _

@[simp] theorem withGroup_group (c : TypeSurface) (group : PropertyGroup) :
    c.withGroup group (c.group group) = c := by
  cases group <;> rfl

theorem addAt_keeps (c : TypeSurface) (f : FunctionDecl) (isDescriptor : Bool)
    (destination : Destination) : (c.addAt f isDescriptor destination).KeepsIfRefused c := by
  cases destination with
  | constructors => exact (c.constructors.add_keeps f).within _
  | classConstructor => exact c.addClassConstructor_keeps f
  | destructors => exact (c.destructors.add_keeps f).within _
  | subscripts isPrivate => cases isPrivate <;> exact keeps_of_accepted _ _ _
  | property group accessor =>
      have hkeep := ((c.group group).add_keeps f accessor isDescriptor).within (c.withGroup group)
      rwa [withGroup_group] at hkeep
  | methods => exact (c.methods.add_keeps f).within _
  | methodDescriptors => exact (c.methodDescriptors.add_keeps f).within _
  | staticFunctions => exact (c.staticFunctions.addStatic_keeps f).within _
  | witnessTable =>
      rw [addAt]
      split <;> exact keeps_of_accepted _ _ _
  | initializers => exact (c.initializers.add_keeps f).within _
  | unknown => exact keeps_of_accepted _ _ _

theorem add_keeps (c : TypeSurface) (d : Declaration) : (c.add d).KeepsIfRefused c := by
  cases d with
  | function f => exact c.addAt_keeps f false _
  | methodDescriptor f => exact c.addAt_keeps f true _
  | record kind r => exact c.addRecord_keeps kind r
  | _ => exact keeps_of_accepted _ _ _

/-- A type that holds nothing yet accepts every declaration. -/
theorem empty_accepts (name : NominalName) (d : Declaration) :
    ((TypeSurface.empty name).add d).Accepts := by
  have hat (f : FunctionDecl) (isDescriptor : Bool) (destination : Destination) :
      ((TypeSurface.empty name).addAt f isDescriptor destination).Accepts := by
    cases destination with
    | property group accessor =>
        have hgroup : (TypeSurface.empty name).group group = .empty := by cases group <;> rfl
        simp only [addAt, accepts_within, hgroup]
        exact PropertyTable.empty_accepts f accessor isDescriptor
    | subscripts isPrivate => cases isPrivate <;> rfl
    | witnessTable =>
        rw [addAt]
        split <;> rfl
    | _ => rfl
  cases d with
  | function f => exact hat f false _
  | methodDescriptor f => exact hat f true _
  | record kind r => cases kind <;> rfl
  | _ => rfl

end TypeSurface

/-! ## Modules and the inventory -/

namespace ModuleSurface

@[simp] theorem withFamily_family (m : ModuleSurface) (kind : NominalKind) :
    m.withFamily kind (m.family kind) = m := by
  cases kind <;> rfl

theorem addOwned_keeps (m : ModuleSurface) (owner : NominalName) (d : Declaration) :
    (m.addOwned owner d).KeepsIfRefused m := by
  rw [addOwned]
  split
  case h_1 c hget =>
      have hkeep := (c.add_keeps d).within fun c =>
        m.withFamily owner.kind ((m.family owner.kind).insert owner.fullName c)
      rwa [Table.insert_of_get? hget, withFamily_family] at hkeep
  case h_2 =>
      -- contents made for this declaration do not refuse it, so nothing made is left behind
      refine Accepts.keeps ?_ m
      rw [accepts_following, accepts_within]
      exact TypeSurface.empty_accepts owner d

theorem addFree_keeps (m : ModuleSurface) (d : Declaration) : (m.addFree d).KeepsIfRefused m := by
  cases d with
  | function f => exact (m.functions.add_keeps f).within _
  | _ => exact keeps_of_accepted _ _ _

theorem add_keeps (m : ModuleSurface) (d : Declaration) : (m.add d).KeepsIfRefused m := by
  rw [add]
  split
  · exact m.addOwned_keeps _ d
  · exact m.addFree_keeps d

/-- A module that holds nothing yet accepts every declaration. -/
theorem made_accepts (name : String) (d : Declaration) :
    (ModuleSurface.add { name } d).Accepts := by
  rw [add]
  split
  case h_1 owner _ =>
      have hget : (ModuleSurface.family { name } owner.kind).get? owner.fullName = none := by
        cases owner.kind <;> rfl
      rw [addOwned]
      simp only [hget, accepts_following, accepts_within]
      exact TypeSurface.empty_accepts owner d
  case h_2 => cases d <;> rfl

end ModuleSurface

namespace Inventory

theorem add_keeps (i : Inventory) (d : Declaration) : (i.add d).KeepsIfRefused i := by
  have hkeep : ((((i.modules.get? d.module).getD { name := d.module }).add d).within
      (i.modules.insert d.module)).KeepsIfRefused i.modules :=
    getOrMake_keeps (fun (m : ModuleSurface) => m.add d) (fun m => m.add_keeps d)
      (ModuleSurface.made_accepts d.module d)
  exact hkeep.within fun modules => { i with modules }

/-- A refused declaration leaves the whole inventory as it was: no module, type, overload set or
property entry made on the way stays behind, and no thunk is linked otherwise than before. -/
theorem add_of_refused (i : Inventory) (d : Declaration) (h : (i.add d).rejection.isSome) :
    (i.add d).after = i :=
  i.add_keeps d h

/-- A linked thunk that comes again is refused, and its canonical function keeps the link. -/
theorem add_of_refused_linked_thunk :
    let f := Declaration.function (Sample.staticFunction "M" "Foo" "baz" "f" false)
    let thunk := Declaration.function (Sample.staticFunction "M" "Foo" "baz" "t" true)
    let i := Inventory.addAll {} [f, thunk]
    (i.add thunk).rejection.isSome ∧ (i.add thunk).after = i := by
  intro f thunk i
  have hrefused : (i.add thunk).rejection.isSome := by decide
  exact ⟨hrefused, add_of_refused i thunk hrefused⟩

/-- Refused declarations can be left out of a run. -/
theorem addAll_accepted (i : Inventory) (ds : List Declaration) :
    i.addAll (i.accepted ds) = i.addAll ds := by
  induction ds generalizing i with
  | nil => rfl
  | cons d ds ih =>
      rw [accepted]
      split
      case isTrue hrefused =>
          rw [addAll_cons, ← ih, i.add_keeps d hrefused]
      case isFalse =>
          rw [addAll_cons, addAll_cons, ih]

end Inventory

end SwiftSurface
