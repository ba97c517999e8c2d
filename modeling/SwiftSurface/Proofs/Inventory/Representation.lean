import SwiftSurface.Proofs.Inventory.Cells
import SwiftSurface.Proofs.Inventory.Keeping
import SwiftSurface.Proofs.Inventory.Repeats

/-!
# The representation of an inventory

What every run keeps (`Inventory.wellFiled_addAll`): keys agree with what is kept under them, no
overload set, property or group is empty, every function is where `Destination.of` sends it, and
only static functions may have one mangled name twice under a name.

The invariant has a level for each level of the inventory, and filing keeps it from the types up. A
type relies on its owner having the full name of the declarations that are filed in it: the entry of
a property takes the owner's name from the first accessor.
-/

namespace SwiftSurface

/-! ## Where functions are filed -/

/-- Do the contents of `owner` hold `f` at this destination, whether it describes a method or
not? -/
def Destination.Takes (destination : Destination) (owner : NominalName) (f : FunctionDecl) : Prop :=
  ∀ isDescriptor, Destination.of owner f isDescriptor = destination

/-- The methods of a type are not descriptors, its method descriptors are; the other groups have
functions that came either way. -/
def FunctionGroup.admits : FunctionGroup → Bool → Bool
  | .methods, isDescriptor => !isDescriptor
  | .methodDescriptors, isDescriptor => isDescriptor
  | _, _ => true

/-- Does `f`, coming either way that the group admits, belong to this group of the type `owner`? -/
def FunctionGroup.Takes (group : FunctionGroup) (owner : NominalName) (f : FunctionDecl) : Prop :=
  ∀ isDescriptor, group.admits isDescriptor →
    Destination.of owner f isDescriptor = group.destination

/-- Is `f`, in the table of the slot, the accessor of the slot in this group of the type `owner`? -/
def PropertyGroup.Takes (group : PropertyGroup) (owner : NominalName) (slot : AccessorSlot)
    (f : FunctionDecl) : Prop :=
  Destination.of owner f slot.isDescriptor = .property group slot.kind

section Destination

variable {owner : NominalName} {f : FunctionDecl} {isDescriptor : Bool}

/-- Linking a thunk does not change where a function belongs. -/
theorem Destination.of_withThunk (owner : NominalName) (f : FunctionDecl) (thunk : Option Thunk)
    (isDescriptor : Bool) :
    Destination.of owner (f.withThunk thunk) isDescriptor =
      Destination.of owner f isDescriptor := by
  cases hf : f.signature <;> simp [FunctionDecl.withThunk, Destination.of, hf]

/-- Only for methods does the destination depend on whether the function describes one. -/
theorem Destination.of_flag (owner : NominalName) (f : FunctionDecl) (isDescriptor other : Bool) :
    Destination.of owner f other = Destination.of owner f isDescriptor ∨
      (Destination.of owner f isDescriptor = .methods ∧ isDescriptor = false) ∨
      (Destination.of owner f isDescriptor = .methodDescriptors ∧ isDescriptor = true) := by
  cases hf : f.signature with
  | uncurried receiver parameters returns throws =>
      by_cases hmethod : f.signature.isMethodOf owner <;>
        cases isDescriptor <;> simp_all [Destination.of]
  | _ => simp [Destination.of, hf]

/-- Just the witness table symbols are routed to the witness table. -/
theorem Destination.signature_of_witnessTable
    (h : Destination.of owner f isDescriptor = .witnessTable) :
    ∃ kind conformsTo, f.signature = .witnessTable kind conformsTo := by
  rw [Destination.of] at h
  cases hf : f.signature with
  | witnessTable kind conformsTo => exact ⟨kind, conformsTo, rfl⟩
  | uncurried receiver parameters returns throws =>
      simp only [hf] at h
      cases isDescriptor <;> split at h <;> simp at h
  | constructor name parameters returns throws | destructor name | property s =>
      simp only [hf] at h
      split at h <;> simp at h
  | _ => simp [hf] at h

/-- The witness table takes what is routed to it. -/
theorem WitnessTable.add?_of_destination
    (h : Destination.of owner f isDescriptor = .witnessTable) (t : WitnessTable) :
    ∃ after, t.add? f = some after := by
  obtain ⟨kind, conformsTo, hsignature⟩ := Destination.signature_of_witnessTable h
  exact ⟨_, by rw [add?, hsignature]⟩

theorem Destination.takes_of_eq {destination : Destination}
    (h : Destination.of owner f isDescriptor = destination) (hmethods : destination ≠ .methods)
    (hdescriptors : destination ≠ .methodDescriptors) : destination.Takes owner f := by
  intro other
  rcases Destination.of_flag owner f isDescriptor other with
    hsame | ⟨hof, -⟩ | ⟨hof, -⟩
  · rw [hsame, h]
  · exact absurd (h.symm.trans hof) hmethods
  · exact absurd (h.symm.trans hof) hdescriptors

theorem FunctionGroup.takes_of_eq {group : FunctionGroup}
    (h : Destination.of owner f isDescriptor = group.destination) : group.Takes owner f := by
  intro other hadmits
  rcases Destination.of_flag owner f isDescriptor other with
    hsame | ⟨hof, hflag⟩ | ⟨hof, hflag⟩
  · rw [hsame, h]
  · cases group <;> simp_all [FunctionGroup.destination, FunctionGroup.admits]
  · cases group <;> simp_all [FunctionGroup.destination, FunctionGroup.admits]

end Destination

/-! ## Types -/

namespace TypeSurface

/-- Everything that the type holds is kept under keys that agree with it and lies where its
destination is, and only static functions may have one mangled name twice under a name. -/
structure WellFiled (c : TypeSurface) : Prop where
  functions : ∀ group, (c.functions group).Keeps (group.Takes c.name)
  namesOnce : ∀ group, group ≠ .staticFunctions → (c.functions group).NamesOnce
  properties : ∀ group, (c.group group).Keeps (group.Takes c.name) c.name.fullName
  storedVariables : c.storedVariables.Keeps
  witnessTable : c.witnessTable.Keeps (Destination.witnessTable.Takes c.name)
  classConstructor : ∀ f ∈ c.classConstructor, Destination.classConstructor.Takes c.name f
  subscripts : ∀ f ∈ c.subscripts, (Destination.subscripts false).Takes c.name f
  privateSubscripts : ∀ f ∈ c.privateSubscripts, (Destination.subscripts true).Takes c.name f
  unknown : ∀ f ∈ c.functionsOfUnknownDestination, Destination.unknown.Takes c.name f

theorem functions_withFunctions (c : TypeSurface) (group other : FunctionGroup)
    (t : FunctionTable) :
    (c.withFunctions group t).functions other = if group = other then t else c.functions other := by
  cases group <;> cases other <;> rfl

theorem group_withGroup_eq (c : TypeSurface) (group other : PropertyGroup) (t : PropertyTable) :
    (c.withGroup group t).group other = if group = other then t else c.group other := by
  cases group <;> cases other <;> rfl

theorem empty_wellFiled (name : NominalName) : (empty name).WellFiled := by
  have hfunctions group : (empty name).functions group = .empty := by cases group <;> rfl
  have hproperties group : (empty name).group group = .empty := by cases group <;> rfl
  constructor
  · intro group
    rw [hfunctions]
    exact Table.empty_every
  · intro group _
    rw [hfunctions]
    exact FunctionTable.empty_namesOnce
  · intro group
    rw [hproperties]
    exact Table.empty_every
  · exact Table.empty_every
  · exact Table.empty_every
  · simp [empty]
  · simp [empty]
  · simp [empty]
  · simp [empty]

namespace WellFiled

variable {c : TypeSurface}

/-- One group of functions is replaced by one that is kept as well. -/
theorem withFunctions (h : c.WellFiled) {group : FunctionGroup} {t : FunctionTable}
    (hkeeps : t.Keeps (group.Takes c.name)) (honce : group ≠ .staticFunctions → t.NamesOnce) :
    (c.withFunctions group t).WellFiled := by
  have hname : (c.withFunctions group t).name = c.name := by cases group <;> rfl
  constructor
  · intro other
    rw [functions_withFunctions, hname]
    split
    case isTrue hsame => exact hsame ▸ hkeeps
    case isFalse => exact h.functions other
  · intro other hother
    rw [functions_withFunctions]
    split
    case isTrue hsame => exact honce (hsame ▸ hother)
    case isFalse => exact h.namesOnce other hother
  · cases group <;> exact h.properties
  · cases group <;> exact h.storedVariables
  · cases group <;> exact h.witnessTable
  · cases group <;> exact h.classConstructor
  · cases group <;> exact h.subscripts
  · cases group <;> exact h.privateSubscripts
  · cases group <;> exact h.unknown

/-- One group of properties is replaced by one that is kept as well. -/
theorem withGroup (h : c.WellFiled) {group : PropertyGroup} {t : PropertyTable}
    (hkeeps : t.Keeps (group.Takes c.name) c.name.fullName) : (c.withGroup group t).WellFiled := by
  have hname : (c.withGroup group t).name = c.name := by cases group <;> rfl
  constructor
  · cases group <;> exact h.functions
  · cases group <;> exact h.namesOnce
  · intro other
    rw [group_withGroup_eq, hname]
    split
    case isTrue hsame => exact hsame ▸ hkeeps
    case isFalse => exact h.properties other
  · cases group <;> exact h.storedVariables
  · cases group <;> exact h.witnessTable
  · cases group <;> exact h.classConstructor
  · cases group <;> exact h.subscripts
  · cases group <;> exact h.privateSubscripts
  · cases group <;> exact h.unknown

/-- A function goes to its destination. -/
theorem addAt (h : c.WellFiled) {f : FunctionDecl} {isDescriptor : Bool} {destination : Destination}
    (hof : Destination.of c.name f isDescriptor = destination)
    (howner : f.ownerName = c.name.fullName) :
    (c.addAt f isDescriptor destination).after.WellFiled := by
  have happend {fs : List FunctionDecl} (hfs : ∀ g ∈ fs, destination.Takes c.name g)
      (hmethods : destination ≠ .methods) (hdescriptors : destination ≠ .methodDescriptors) :
      ∀ g ∈ fs ++ [f], destination.Takes c.name g := by
    intro g hg
    rcases List.mem_append.1 hg with hold | hnew
    · exact hfs g hold
    · obtain rfl := List.mem_singleton.1 hnew
      exact Destination.takes_of_eq hof hmethods hdescriptors
  rcases destination_cases destination with ⟨group, rfl⟩ | rfl | ⟨isPrivate, rfl⟩ |
    ⟨group, accessor, rfl⟩ | rfl | rfl
  · rw [addAt_destination]
    have htakes := FunctionGroup.takes_of_eq hof
    refine h.withFunctions ((h.functions group).fileIn group htakes fun g thunk hg => ?_)
      fun hgroup => (h.namesOnce group hgroup).fileIn hgroup f
    intro other hadmits
    rw [Destination.of_withThunk, hg other hadmits]
  · rw [TypeSurface.addAt, addClassConstructor]
    split
    case h_1 => exact h
    case h_2 =>
        refine { h with classConstructor := ?_ }
        intro g hg
        obtain rfl := Option.some.inj hg
        exact Destination.takes_of_eq hof (by simp) (by simp)
  · cases isPrivate with
    | true => exact { h with privateSubscripts := happend h.privateSubscripts (by simp) (by simp) }
    | false => exact { h with subscripts := happend h.subscripts (by simp) (by simp) }
  · have hkeeps := h.properties group
    rw [← howner] at hkeeps
    refine h.withGroup ?_
    rw [← howner]
    exact hkeeps.add ⟨accessor, isDescriptor⟩ hof
  · obtain ⟨after, hafter⟩ := WitnessTable.add?_of_destination hof c.witnessTable
    have htakes := Destination.takes_of_eq hof (by simp) (by simp)
    rw [TypeSurface.addAt, hafter]
    exact { h with witnessTable := h.witnessTable.add? htakes hafter }
  · exact { h with unknown := happend h.unknown (by simp) (by simp) }

/-- Filing a declaration of the owner keeps its contents well filed. -/
theorem add (h : c.WellFiled) {d : Declaration} {owner : NominalName}
    (howner : d.owner = some owner) (hname : owner.fullName = c.name.fullName) :
    (c.add d).after.WellFiled := by
  cases d with
  | function f | methodDescriptor f =>
      refine h.addAt rfl ?_
      have hf : f.owner = some owner := howner
      simp [FunctionDecl.ownerName, hf, hname]
  | record kind r =>
      rw [TypeSurface.add, addRecord]
      split
      case h_1 => exact h
      case h_2 =>
          cases kind <;>
            exact ⟨h.functions, h.namesOnce, h.properties, h.storedVariables, h.witnessTable,
              h.classConstructor, h.subscripts, h.privateSubscripts, h.unknown⟩
  | «variable» v => exact { h with storedVariables := h.storedVariables.add v }
  | _ =>
      exact ⟨h.functions, h.namesOnce, h.properties, h.storedVariables, h.witnessTable,
        h.classConstructor, h.subscripts, h.privateSubscripts, h.unknown⟩

end WellFiled

/-- The contents agree with the full name and the family in which they are kept, and are well
filed. -/
structure KeptUnder (isProtocol : Bool) (fullName : String) (c : TypeSurface) : Prop where
  fullName_eq : c.name.fullName = fullName
  kind : c.name.kind.isProtocol = isProtocol
  wellFiled : c.WellFiled

theorem KeptUnder.add {owner : NominalName} {c : TypeSurface} {d : Declaration}
    (h : c.KeptUnder owner.kind.isProtocol owner.fullName) (howner : d.owner = some owner) :
    (c.add d).after.KeptUnder owner.kind.isProtocol owner.fullName := by
  have hname := c.name_add d
  exact ⟨hname ▸ h.fullName_eq, hname ▸ h.kind, h.wellFiled.add howner h.fullName_eq.symm⟩

end TypeSurface

/-! ## Modules and the inventory -/

namespace ModuleSurface

/-- The module agrees with the name under which it is kept, its types with their full names and
their family, and its functions and variables with their names. -/
structure WellFiled (name : String) (m : ModuleSurface) : Prop where
  name_eq : m.name = name
  types : ∀ kind, (m.family kind).Every (TypeSurface.KeptUnder kind.isProtocol)
  functions : m.functions.Keeps fun _ => True
  namesOnce : m.functions.NamesOnce
  storedVariables : m.storedVariables.Keeps

theorem made_wellFiled (name : String) : WellFiled name { name } := by
  refine ⟨rfl, fun kind => ?_, Table.empty_every, FunctionTable.empty_namesOnce, Table.empty_every⟩
  cases kind <;> exact Table.empty_every

variable {name : String} {m : ModuleSurface}

theorem family_withFamily_eq (m : ModuleSurface) (kind other : NominalKind)
    (types : Table String TypeSurface) :
    (m.withFamily kind types).family other =
      if kind.isProtocol = other.isProtocol then types else m.family other := by
  cases kind <;> cases other <;> rfl

/-- One family of types is replaced by one that is kept as well. -/
theorem WellFiled.withFamily (h : m.WellFiled name) {kind : NominalKind}
    {types : Table String TypeSurface}
    (hkept : types.Every (TypeSurface.KeptUnder kind.isProtocol)) :
    (m.withFamily kind types).WellFiled name := by
  constructor
  · cases kind <;> exact h.name_eq
  · intro other
    rw [family_withFamily_eq]
    split
    case isTrue hsame => exact hsame ▸ hkept
    case isFalse => exact h.types other
  · cases kind <;> exact h.functions
  · cases kind <;> exact h.namesOnce
  · cases kind <;> exact h.storedVariables

theorem WellFiled.addOwned (h : m.WellFiled name) {owner : NominalName} {d : Declaration}
    (howner : d.owner = some owner) : (m.addOwned owner d).after.WellFiled name := by
  obtain ⟨hafter, -⟩ := Filed.outcome_eq_iff.1 (m.outcome_addOwned owner d)
  rw [hafter]
  refine h.withFamily ((h.types owner.kind).fileAt (fun _ hkept => hkept) ?_ fun _ hkept => ?_)
  · exact ⟨rfl, rfl, TypeSurface.empty_wellFiled owner⟩
  · exact hkept.add howner

theorem WellFiled.addFree (h : m.WellFiled name) (d : Declaration) :
    (m.addFree d).after.WellFiled name := by
  have htypes (kind : NominalKind) : (m.addFree d).after.family kind = m.family kind := by
    cases d <;> cases kind <;> rfl
  cases d with
  | function f =>
      refine ⟨h.name_eq, fun kind => ?_, h.functions.add trivial, h.namesOnce.add f,
        h.storedVariables⟩
      rw [htypes]
      exact h.types kind
  | «variable» v =>
      refine ⟨h.name_eq, fun kind => ?_, h.functions, h.namesOnce, h.storedVariables.add v⟩
      rw [htypes]
      exact h.types kind
  | _ =>
      refine ⟨h.name_eq, fun kind => ?_, h.functions, h.namesOnce, h.storedVariables⟩
      rw [htypes]
      exact h.types kind

theorem WellFiled.add (h : m.WellFiled name) (d : Declaration) :
    (m.add d).after.WellFiled name := by
  rw [ModuleSurface.add]
  split
  case h_1 owner howner => exact h.addOwned howner
  case h_2 => exact h.addFree d

end ModuleSurface

namespace Inventory

/-- Every module of the inventory is well filed. -/
def WellFiled (i : Inventory) : Prop :=
  i.modules.Every ModuleSurface.WellFiled

theorem empty_wellFiled (architecture : Architecture) : WellFiled { architecture } :=
  Table.empty_every

theorem WellFiled.add {i : Inventory} (h : i.WellFiled) (d : Declaration) :
    (i.add d).after.WellFiled :=
  Table.Every.fileAt h (fun _ hkept => hkept) (ModuleSurface.made_wellFiled d.module)
    fun _ hkept => hkept.add d

theorem WellFiled.addAll {i : Inventory} (h : i.WellFiled) (ds : List Declaration) :
    (i.addAll ds).WellFiled := by
  induction ds generalizing i with
  | nil => exact h
  | cons d ds ih => exact ih (h.add d)

/-- **The representation invariant.** Whatever is filed, accepted or refused, keys agree with what
they lead to at every level, nothing that is kept under a name or kind is empty, each function is in
the place that its destination is, and outside the static functions no overload set has a mangled
name twice. -/
theorem wellFiled_addAll (architecture : Architecture) (ds : List Declaration) :
    (Inventory.addAll { architecture } ds).WellFiled :=
  (empty_wellFiled architecture).addAll ds

end Inventory

end SwiftSurface
