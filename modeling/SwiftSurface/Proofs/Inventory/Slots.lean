import SwiftSurface.Proofs.Inventory.Representation

/-!
# Slots are written once

The metadata accessor and the records of a type, and the accessors of its properties, have a slot of
their own. `Inventory.slot?` reads any slot of an inventory by its address, and `Filed.Fills` says
what filing in a slot does: a taken slot refuses, a free one accepts, and no other slot changes. It
is shown for an entry of a property, then for a type, then for the inventory.

So what a slot holds it holds for the rest of every run (`Inventory.slots_writtenOnce`). Only the
refusals need the representation invariant: an entry of a property has the names of the type and of
the property that refusals report.
-/

namespace SwiftSurface

/-! ## Slots and their entries -/

/-- A place of a type that holds one declaration at most. -/
inductive TypeSlot where
  | classConstructor
  | record (kind : RecordKind)
  /-- The slot of an accessor of a property. -/
  | accessor (group : PropertyGroup) (property : String) (slot : AccessorSlot)
deriving DecidableEq

/-- What a slot holds. -/
inductive SlotEntry where
  | function (f : FunctionDecl)
  | record (r : MetadataRecord)
deriving DecidableEq

namespace TypeSlot

/-- The place of the type that the slot is in. -/
def place : TypeSlot → TypeSurface.Place
  | .classConstructor => .classConstructor
  | .record kind => .record kind
  | .accessor group property _ => .property group property

/-- The refusal of a declaration that finds the slot of this owner taken. A slot of a property names
the property. -/
def refusal (owner : String) : TypeSlot → SlotTaken
  | .classConstructor => { slot := .classConstructor, owner, member := none }
  | .record kind => { slot := .record kind, owner, member := none }
  | .accessor _ property slot =>
    { slot := if slot.isDescriptor then .accessorDescriptor slot.kind else .accessor slot.kind
      owner
      member := some property }

end TypeSlot

/-- What a type holds in a slot. -/
def TypeSurface.slot? (c : TypeSurface) : TypeSlot → Option SlotEntry
  | .classConstructor => c.classConstructor.map .function
  | .record kind => (c.record? kind).map .record
  | .accessor group property slot =>
    (((c.group group).get? property).bind (·.read slot)).map .function

/-- The slot that a function of this name with this destination is routed to, if it is routed to
one. -/
def Destination.typeSlot? (name : String) (isDescriptor : Bool) : Destination → Option TypeSlot
  | .classConstructor => some .classConstructor
  | .property group accessor => some (.accessor group name ⟨accessor, isDescriptor⟩)
  | _ => none

/-- The slot of the type `owner` that a declaration is routed to, with its entry there. -/
def Declaration.filling? (owner : NominalName) : Declaration → Option (TypeSlot × SlotEntry)
  | .function f =>
    ((Destination.of owner f false).typeSlot? f.name false).map (·, .function f)
  | .methodDescriptor f =>
    ((Destination.of owner f true).typeSlot? f.name true).map (·, .function f)
  | .record kind r => some (.record kind, .record r)
  | _ => none

/-- The address of a slot in an inventory. -/
structure SlotAddress where
  module : String
  /-- Is the owner kept among the protocols? -/
  isProtocol : Bool
  /-- The full name of the owner. -/
  owner : String
  slot : TypeSlot
deriving DecidableEq

/-- The refusal of a declaration that finds this slot taken. -/
def SlotAddress.refusal (address : SlotAddress) : SlotTaken :=
  address.slot.refusal address.owner

/-- The address of a slot in the contents that a declaration of this owner is filed in. -/
def SlotAddress.of (d : Declaration) (owner : NominalName) (slot : TypeSlot) : SlotAddress :=
  ⟨d.module, owner.kind.isProtocol, owner.fullName, slot⟩

/-- The contents of the type of this full name in a module, among the protocols or the other
types. -/
def Inventory.typeAt? (i : Inventory) (module : String) (isProtocol : Bool) (fullName : String) :
    Option TypeSurface :=
  (i.module? module).bind fun m => m.read (.type isProtocol fullName)

/-- What an inventory holds in a slot. -/
def Inventory.slot? (i : Inventory) (address : SlotAddress) : Option SlotEntry :=
  (i.typeAt? address.module address.isProtocol address.owner).bind (·.slot? address.slot)

/-- The address of the slot that a declaration is routed to, with its entry there. -/
def Declaration.slotAddress? (d : Declaration) : Option (SlotAddress × SlotEntry) :=
  d.owner.bind fun owner =>
    (d.filling? owner).map fun (slot, entry) => (.of d owner slot, entry)

/-! ## Filing in a slot -/

/-- What filing an entry in a slot does: a taken slot refuses it, a free slot accepts it and holds
it afterwards, and the other slots are left alone. -/
structure Filed.Fills {σ ι α : Type} (view : σ → ι → Option α) (filed : Filed σ) (before : σ)
    (slot : ι) (entry : α) (refusal : SlotTaken) : Prop where
  taken : (view before slot).isSome → filed.rejection = some refusal
  free : view before slot = none →
    filed.rejection = none ∧ view filed.after slot = some entry
  elsewhere : ∀ other, other ≠ slot → view filed.after other = view before other

open Filed

theorem PropertyEntry.add_fills (r : PropertyEntry) (f : FunctionDecl) (slot : AccessorSlot) :
    Fills read (r.add f slot.kind slot.isDescriptor) r slot f (r.slotTaken slot) := by
  have hadd := r.outcome_add f slot
  simp only [outcome, Prod.ext_iff] at hadd
  obtain ⟨hafter, hrejection⟩ := hadd
  constructor
  · intro htaken
    simpa [htaken] using hrejection
  · intro hfree
    simp only [hfree, Option.isSome_none, Bool.false_eq_true, if_false] at hafter hrejection
    exact ⟨hrejection, by rw [hafter, read_write, if_pos rfl]⟩
  · intro other hne
    rw [hafter]
    split
    · rfl
    · rw [read_write, if_neg hne.symm]

/-! ## Types -/

namespace TypeSurface

variable {c c' : TypeSurface} {slot : TypeSlot}

/-- What a slot holds depends on its place only. -/
theorem slot?_congr (h : c.read slot.place = c'.read slot.place) :
    c.slot? slot = c'.slot? slot := by
  cases slot with
  | classConstructor => exact congrArg (·.map SlotEntry.function) h
  | record kind => exact congrArg (·.map SlotEntry.record) h
  | accessor group property slot =>
      exact congrArg
        (fun r : Option PropertyEntry => (r.bind (·.read slot)).map SlotEntry.function) h

/-- Filing in a place leaves the slots in other places alone. -/
theorem slot?_of_filesAt {place : Place} {file : TypeSurface → Filed TypeSurface}
    (h : FilesAt (Named c.name) read place file) (hne : slot.place ≠ place) :
    (file c).after.slot? slot = c.slot? slot :=
  slot?_congr (h.elsewhere c rfl slot.place hne)

theorem slot?_empty (name : NominalName) (slot : TypeSlot) : (empty name).slot? slot = none := by
  cases slot with
  | classConstructor => rfl
  | record kind => cases kind <;> rfl
  | accessor group property slot => cases group <;> rfl

theorem addClassConstructor_fills (c : TypeSurface) (f : FunctionDecl) :
    Fills slot? (c.addClassConstructor f) c .classConstructor (.function f)
      (TypeSlot.classConstructor.refusal c.name.fullName) := by
  constructor
  · intro htaken
    obtain ⟨g, hg⟩ := Option.isSome_iff_exists.1 (by simpa [slot?] using htaken)
    simp [addClassConstructor, hg, slotTaken, TypeSlot.refusal]
  · intro hfree
    have hnone : c.classConstructor = none := by simpa [slot?] using hfree
    simp [addClassConstructor, hnone, slot?]
  · intro other hne
    refine slot?_of_filesAt (addClassConstructor_filesAt c.name f) fun hplace => hne ?_
    cases other <;> simp_all [TypeSlot.place]

theorem addRecord_fills (c : TypeSurface) (kind : RecordKind) (r : MetadataRecord) :
    Fills slot? (c.addRecord kind r) c (.record kind) (.record r)
      ((TypeSlot.record kind).refusal c.name.fullName) := by
  constructor
  · intro htaken
    obtain ⟨held, hheld⟩ := Option.isSome_iff_exists.1 (by simpa [slot?] using htaken)
    simp [addRecord, hheld, slotTaken, TypeSlot.refusal]
  · intro hfree
    have hnone : c.record? kind = none := by simpa [slot?] using hfree
    refine ⟨by simp [addRecord, hnone], ?_⟩
    simp only [addRecord, hnone]
    cases kind <;> rfl
  · intro other hne
    refine slot?_of_filesAt (addRecord_filesAt c.name kind r) fun hplace => hne ?_
    cases other <;> simp_all [TypeSlot.place]

/-! ### Accessors of properties -/

/-- The entry that an accessor is filed in, made if it is not there. -/
def entryOrMade (c : TypeSurface) (group : PropertyGroup) (f : FunctionDecl) : PropertyEntry :=
  ((c.group group).entries.get? f.name).getD { owner := f.ownerName, name := f.name }

/-- The entry, found or made, has the names that its refusals report. -/
theorem WellFiled.entryOrMade (hc : c.WellFiled) {f : FunctionDecl}
    (howner : f.ownerName = c.name.fullName) (group : PropertyGroup) :
    (c.entryOrMade group f).Under (group.Takes c.name) c.name.fullName f.name := by
  refine (hc.properties group).getD (fun _ hkept => hkept.toUnder) ?_
  rw [← howner]
  exact PropertyEntry.made_under _ _

/-- An entry that was just made holds nothing, just as one that is not there. -/
theorem slot?_accessor (c : TypeSurface) (group : PropertyGroup) (f : FunctionDecl)
    (slot : AccessorSlot) :
    c.slot? (.accessor group f.name slot) =
      ((c.entryOrMade group f).read slot).map .function := by
  rw [slot?, PropertyTable.get?, entryOrMade]
  cases (c.group group).entries.get? f.name with
  | none => obtain ⟨_ | _ | _ | _ | _ | _, _ | _⟩ := slot <;> rfl
  | some r => rfl

theorem slot?_addProperty (c : TypeSurface) (group : PropertyGroup) (f : FunctionDecl)
    (kind : AccessorKind) (isDescriptor : Bool) (slot : AccessorSlot) :
    (((c.group group).add f kind isDescriptor).within (c.withGroup group)).after.slot?
        (.accessor group f.name slot) =
      (((c.entryOrMade group f).add f kind isDescriptor).after.read slot).map .function := by
  rw [slot?, after_within, group_withGroup, PropertyTable.get?, PropertyTable.add, after_within,
    Table.get?_insert_self]
  rfl

theorem addProperty_fills (hc : c.WellFiled) {f : FunctionDecl}
    (howner : f.ownerName = c.name.fullName) (group : PropertyGroup) (slot : AccessorSlot) :
    Fills slot? (((c.group group).add f slot.kind slot.isDescriptor).within (c.withGroup group)) c
      (.accessor group f.name slot) (.function f)
      ((TypeSlot.accessor group f.name slot).refusal c.name.fullName) := by
  have hunder := hc.entryOrMade howner group
  obtain ⟨htaken, hfree, helsewhere⟩ := (c.entryOrMade group f).add_fills f slot
  constructor
  · intro hsome
    rw [slot?_accessor, Option.isSome_map] at hsome
    refine (htaken hsome).trans ?_
    rw [PropertyEntry.slotTaken, hunder.owner_eq, hunder.name_eq]
    rfl
  · intro hnone
    rw [slot?_accessor, Option.map_eq_none_iff] at hnone
    obtain ⟨haccepted, hheld⟩ := hfree hnone
    exact ⟨haccepted, by rw [slot?_addProperty, hheld]; rfl⟩
  · intro other hne
    by_cases hplace : other.place = .property group f.name
    · -- another slot of the same property
      cases other <;> simp only [TypeSlot.place, Place.property.injEq, reduceCtorEq] at hplace
      case accessor otherSlot =>
        obtain ⟨rfl, rfl⟩ := hplace
        rw [slot?_addProperty, slot?_accessor, helsewhere otherSlot (by simpa using hne)]
    · exact slot?_of_filesAt (addProperty_filesAt c.name group f slot.kind slot.isDescriptor) hplace

/-! ### Declarations -/

/-- A function that is routed to a slot fills it. -/
theorem addAt_fills (hc : c.WellFiled) {f : FunctionDecl} (howner : f.ownerName = c.name.fullName)
    {isDescriptor : Bool} {destination : Destination}
    (h : destination.typeSlot? f.name isDescriptor = some slot) :
    Fills slot? (c.addAt f isDescriptor destination) c slot (.function f)
      (slot.refusal c.name.fullName) := by
  cases destination with
  | classConstructor =>
      obtain rfl := Option.some.inj h
      exact c.addClassConstructor_fills f
  | property group accessor =>
      obtain rfl := Option.some.inj h
      exact addProperty_fills hc howner group ⟨accessor, isDescriptor⟩
  | _ => simp [Destination.typeSlot?] at h

/-- A declaration that is routed to a slot fills it. -/
theorem add_fills (hc : c.WellFiled) {d : Declaration} {owner : NominalName}
    (howner : d.owner = some owner) (hname : owner.fullName = c.name.fullName) {entry : SlotEntry}
    (h : d.filling? c.name = some (slot, entry)) :
    Fills slot? (c.add d) c slot entry (slot.refusal c.name.fullName) := by
  cases d with
  | function f | methodDescriptor f =>
      have hf : f.owner = some owner := howner
      have hownerName : f.ownerName = c.name.fullName := by
        simp [FunctionDecl.ownerName, hf, hname]
      obtain ⟨_, hslot, heq⟩ := Option.map_eq_some_iff.1 h
      obtain ⟨rfl, rfl⟩ := Prod.mk.inj heq
      obtain ⟨htaken, hfree, helsewhere⟩ := addAt_fills hc hownerName hslot
      exact ⟨htaken, hfree, helsewhere⟩
  | record kind r =>
      obtain ⟨rfl, rfl⟩ := Prod.mk.inj (Option.some.inj h)
      exact c.addRecord_fills kind r
  | _ => simp [Declaration.filling?] at h

/-- A declaration that is routed to no slot is filed in a place without slots. -/
theorem placeIn_ne_place {name : NominalName} {d : Declaration} (h : d.filling? name = none)
    (slot : TypeSlot) : slot.place ≠ d.placeIn name := by
  have hfunction (f : FunctionDecl) (isDescriptor : Bool)
      (hnone : (Destination.of name f isDescriptor).typeSlot? f.name isDescriptor = none) :
      slot.place ≠ (Destination.of name f isDescriptor).place f := by
    cases hto : Destination.of name f isDescriptor with
    | classConstructor | property group accessor => simp [hto, Destination.typeSlot?] at hnone
    | witnessTable =>
        rw [Destination.place]
        split <;> cases slot <;> simp [TypeSlot.place]
    | _ => cases slot <;> simp [TypeSlot.place, Destination.place]
  cases d with
  | function f | methodDescriptor f => exact hfunction f _ (Option.map_eq_none_iff.1 h)
  | record kind r => simp [Declaration.filling?] at h
  | _ => cases slot <;> simp [TypeSlot.place, Declaration.placeIn]

theorem slot?_add_of_filling?_eq_none {d : Declaration} (h : d.filling? c.name = none) :
    (c.add d).after.slot? slot = c.slot? slot :=
  slot?_of_filesAt (add_filesAt c.name d) (placeIn_ne_place h slot)

end TypeSurface

/-- Which slot a declaration is routed to depends on the full name of the type only. -/
theorem Declaration.filling?_congr {owner owner' : NominalName}
    (h : owner.fullName = owner'.fullName) (d : Declaration) :
    d.filling? owner = d.filling? owner' := by
  cases d <;> simp [filling?, Destination.of_congr h]

/-! ## The inventory -/

theorem ModuleSurface.read_type (m : ModuleSurface) (owner : NominalName) :
    m.read (.type owner.kind.isProtocol owner.fullName) =
      (m.family owner.kind).get? owner.fullName := by
  cases owner.kind <;> rfl

namespace Inventory

variable {i : Inventory} {d : Declaration} {owner : NominalName}

theorem WellFiled.ownerOrMade (hi : i.WellFiled) (d : Declaration) (owner : NominalName) :
    ((i.moduleOrMade d).ownerOrMade owner).KeptUnder owner.kind.isProtocol owner.fullName := by
  have hmodule : (i.moduleOrMade d).WellFiled d.module :=
    hi.getD (fun _ hkept => hkept) (ModuleSurface.made_wellFiled d.module)
  exact (hmodule.types owner.kind).getD (fun _ hkept => hkept)
    ⟨rfl, rfl, TypeSurface.empty_wellFiled owner⟩

/-- The contents at an address, in a module that may just have been made. -/
theorem typeAt?_eq_moduleOrMade (i : Inventory) (d : Declaration) (isProtocol : Bool)
    (fullName : String) :
    i.typeAt? d.module isProtocol fullName =
      (i.moduleOrMade d).read (.type isProtocol fullName) := by
  rw [typeAt?, moduleOrMade, module?]
  cases i.modules.get? d.module with
  | none => cases isProtocol <;> rfl
  | some m => rfl

/-- Filing a declaration leaves the types at other addresses alone. -/
theorem typeAt?_add_of_ne {module : String} {isProtocol : Bool} {fullName : String}
    (hne : (module, ModuleSurface.Place.type isProtocol fullName) ≠ (d.module, d.modulePlace)) :
    (i.add d).after.typeAt? module isProtocol fullName = i.typeAt? module isProtocol fullName := by
  by_cases hmodule : module = d.module
  · subst hmodule
    have hplace : ModuleSurface.Place.type isProtocol fullName ≠ d.modulePlace := by
      simpa using hne
    rw [typeAt?, module?, get?_module_add, Option.bind_some, typeAt?_eq_moduleOrMade]
    exact (ModuleSurface.add_filesAt _ d).elsewhere (i.moduleOrMade d) rfl _ hplace
  · have hsame := (add_filesAt i.architecture d).elsewhere i rfl module hmodule
    rw [typeAt?, typeAt?, hsame]

/-- Contents that were just made hold nothing in their slots, just as contents that are not
there. -/
theorem slot?_of_owner (i : Inventory) (d : Declaration) (owner : NominalName) (slot : TypeSlot) :
    i.slot? (.of d owner slot) = ((i.moduleOrMade d).ownerOrMade owner).slot? slot := by
  rw [slot?, SlotAddress.of, typeAt?_eq_moduleOrMade, ModuleSurface.read_type,
    ModuleSurface.ownerOrMade]
  cases ((i.moduleOrMade d).family owner.kind).get? owner.fullName with
  | none => exact (TypeSurface.slot?_empty owner slot).symm
  | some c => rfl

theorem slot?_add_of_owner (howner : d.owner = some owner) (slot : TypeSlot) :
    (i.add d).after.slot? (.of d owner slot) =
      (((i.moduleOrMade d).ownerOrMade owner).add d).after.slot? slot := by
  have howned := ModuleSurface.ownerOf?_add (m := i.moduleOrMade d) howner
  simp only [ModuleSurface.ownerOf?, howner, Option.bind_some] at howned
  simp only [slot?, SlotAddress.of, typeAt?, module?, get?_module_add, Option.bind_some,
    ModuleSurface.read_type, howned]

theorem rejection_add_of_owner (howner : d.owner = some owner) :
    (i.add d).rejection = (((i.moduleOrMade d).ownerOrMade owner).add d).rejection :=
  (Filed.outcome_eq_iff.1 (ModuleSurface.add_of_owner (m := i.moduleOrMade d) howner)).2

/-- A slot that is not in the contents which a declaration is filed in is left alone. -/
theorem slot?_add_of_ne (howner : d.owner = some owner) {address : SlotAddress}
    (hne : ∀ slot, address ≠ .of d owner slot) :
    (i.add d).after.slot? address = i.slot? address := by
  obtain ⟨module, isProtocol, fullName, slot⟩ := address
  rw [slot?, slot?, typeAt?_add_of_ne]
  intro hsame
  rw [Declaration.modulePlace_of_owner howner, Prod.mk.injEq,
    ModuleSurface.Place.type.injEq] at hsame
  obtain ⟨rfl, rfl, rfl⟩ := hsame
  exact hne slot rfl

/-- A declaration that is routed to a slot fills it. -/
theorem add_fills (hi : i.WellFiled) {address : SlotAddress} {entry : SlotEntry}
    (h : d.slotAddress? = some (address, entry)) :
    Filed.Fills slot? (i.add d) i address entry address.refusal := by
  obtain ⟨owner, howner, hmap⟩ := Option.bind_eq_some_iff.1 h
  obtain ⟨⟨slot, entry'⟩, hfilling, heq⟩ := Option.map_eq_some_iff.1 hmap
  obtain ⟨rfl, rfl⟩ := Prod.mk.inj heq
  have hkept := hi.ownerOrMade d owner
  rw [d.filling?_congr hkept.fullName_eq.symm] at hfilling
  obtain ⟨htaken, hfree, helsewhere⟩ :=
    TypeSurface.add_fills hkept.wellFiled howner hkept.fullName_eq.symm hfilling
  constructor
  · intro hsome
    rw [slot?_of_owner] at hsome
    rw [rejection_add_of_owner howner, htaken hsome, hkept.fullName_eq]
    rfl
  · intro hnone
    rw [slot?_of_owner] at hnone
    rw [rejection_add_of_owner howner, slot?_add_of_owner howner]
    exact hfree hnone
  · intro other hne
    by_cases hother : ∃ slot, other = .of d owner slot
    · obtain ⟨otherSlot, rfl⟩ := hother
      rw [slot?_add_of_owner howner, slot?_of_owner]
      refine helsewhere otherSlot fun hsame => hne ?_
      rw [hsame]
    · exact slot?_add_of_ne howner fun slot hsame => hother ⟨slot, hsame⟩

/-- A declaration that is routed to no slot leaves all slots alone. -/
theorem slot?_add_of_slotAddress?_eq_none (hi : i.WellFiled) (h : d.slotAddress? = none)
    (address : SlotAddress) : (i.add d).after.slot? address = i.slot? address := by
  cases howner : d.owner with
  | none =>
      rw [slot?, slot?, typeAt?_add_of_ne]
      intro hsame
      obtain ⟨_, hsome, -⟩ := Declaration.owner_of_modulePlace (Prod.mk.inj hsame).2.symm
      simp [howner] at hsome
  | some owner =>
      by_cases hother : ∃ slot, address = .of d owner slot
      · obtain ⟨slot, rfl⟩ := hother
        have hkept := hi.ownerOrMade d owner
        have hfilling : d.filling? owner = none := by
          simpa [Declaration.slotAddress?, howner] using h
        rw [d.filling?_congr hkept.fullName_eq.symm] at hfilling
        rw [slot?_add_of_owner howner, slot?_of_owner]
        exact TypeSurface.slot?_add_of_filling?_eq_none hfilling
      · exact slot?_add_of_ne howner fun slot hsame => hother ⟨slot, hsame⟩

/-! ## Runs -/

/-- A step leaves every entry in its slot. -/
theorem WellFiled.slot?_add (hi : i.WellFiled) (d : Declaration) {address : SlotAddress}
    {entry : SlotEntry} (h : i.slot? address = some entry) :
    (i.add d).after.slot? address = some entry := by
  cases hd : d.slotAddress? with
  | none => rwa [slot?_add_of_slotAddress?_eq_none hi hd]
  | some routed =>
      have hfills := add_fills hi hd
      by_cases hsame : address = routed.1
      · have hrefused := hfills.taken (by simp [← hsame, h])
        rwa [i.add_keeps d (by simp [hrefused])]
      · rwa [hfills.elsewhere address hsame]

/-- A run leaves every entry in its slot. -/
theorem WellFiled.slot?_addAll (hi : i.WellFiled) (ds : List Declaration) {address : SlotAddress}
    {entry : SlotEntry} (h : i.slot? address = some entry) :
    (i.addAll ds).slot? address = some entry := by
  induction ds generalizing i with
  | nil => exact h
  | cons d ds ih => exact ih (hi.add d) (hi.slot?_add d h)

/-- **Slots are written once.** At every point of every run, what a slot of a type or of a property
holds it holds at every later point. A declaration that is routed to a taken slot is refused for
that slot, by the full name of the owner and the name of the property if it is a slot of one, and
changes nothing; one that is routed to a free slot is accepted and held there. -/
theorem slots_writtenOnce (architecture : Architecture) (history : List Declaration) :
    let i := addAll { architecture } history
    (∀ later address entry, i.slot? address = some entry →
      (i.addAll later).slot? address = some entry) ∧
    ∀ d address entry, d.slotAddress? = some (address, entry) →
      ((i.slot? address).isSome →
        (i.add d).rejection = some address.refusal ∧ (i.add d).after = i) ∧
      (i.slot? address = none →
        (i.add d).rejection = none ∧ (i.add d).after.slot? address = some entry) := by
  intro i
  have hi : i.WellFiled := (empty_wellFiled architecture).addAll history
  refine ⟨fun later address entry h => hi.slot?_addAll later h, fun d address entry hd => ?_⟩
  have hfills := add_fills hi hd
  refine ⟨fun htaken => ?_, hfills.free⟩
  have hrefused := hfills.taken htaken
  exact ⟨hrefused, i.add_keeps d (by simp [hrefused])⟩

/-- A second getter of a property is refused under the names of its owner and of the property, and
the first one stays whatever comes later. -/
theorem slots_writtenOnce_second_getter :
    let first := Sample.propertyAccessor "M" "Foo" "bar" "g1" .getter
    let second := Sample.propertyAccessor "M" "Foo" "bar" "g2" .getter
    let i := addAll { architecture := .arm64 } [.function first]
    let address : SlotAddress := ⟨"M", false, "M.Foo", .accessor .instances "bar" ⟨.getter, false⟩⟩
    (i.add (.function second)).rejection =
        some { slot := .accessor .getter, owner := "M.Foo", member := some "bar" } ∧
      ∀ later, (i.addAll later).slot? address = some (.function first) := by
  intro first second i address
  obtain ⟨hkept, hrouted⟩ := slots_writtenOnce .arm64 [.function first]
  have hheld : i.slot? address = some (.function first) := by decide
  have hto : (Declaration.function second).slotAddress? = some (address, .function second) := by
    decide
  have hrefused := ((hrouted _ address _ hto).1 (by rw [hheld]; rfl)).1
  exact ⟨hrefused, fun later => hkept later address _ hheld⟩

end Inventory

end SwiftSurface
