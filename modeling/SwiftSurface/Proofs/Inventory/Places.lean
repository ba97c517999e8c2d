import SwiftSurface.Proofs.Inventory.Footprints

/-!
# The places of a type

The contents of a type are its name and what is in its places (`TypeSurface.Place`), and filing a
declaration reads and writes the one place it is routed to (`TypeSurface.add_filesAt`). The place of
a property is shared by its accessors, of which each has a slot of its own there.

Two declarations of one owner therefore commute if they have different places or different slots
(`TypeSurface.add_commute`).
-/

namespace SwiftSurface

open Filed

/-! ## Slots of a property -/

theorem AccessorTable.ext_get {t u : AccessorTable} (h : ∀ kind, t.get kind = u.get kind) :
    t = u := by
  obtain ⟨_, _, _, _, _, _⟩ := t
  obtain ⟨_, _, _, _, _, _⟩ := u
  have hgetter := h .getter
  have hsetter := h .setter
  have hmaterializer := h .materializer
  have hwillSet := h .willSet
  have hdidSet := h .didSet
  have hmodify := h .modify
  simp_all [AccessorTable.get]

/-- A slot of a property: an accessor, and whether it is in the table of descriptors. -/
structure AccessorSlot where
  kind : AccessorKind
  isDescriptor : Bool
deriving DecidableEq

namespace PropertyEntry

/-- What a slot of the property holds. -/
def read (r : PropertyEntry) (slot : AccessorSlot) : Option FunctionDecl :=
  if slot.isDescriptor then r.descriptors.get slot.kind else r.accessors.get slot.kind

/-- Writes a slot of the property. -/
def write (r : PropertyEntry) (slot : AccessorSlot) (f : FunctionDecl) : PropertyEntry :=
  if slot.isDescriptor then { r with descriptors := r.descriptors.set slot.kind f }
  else { r with accessors := r.accessors.set slot.kind f }

theorem read_write (r : PropertyEntry) (slot other : AccessorSlot) (f : FunctionDecl) :
    (r.write slot f).read other = if slot = other then some f else r.read other := by
  obtain ⟨kind, isDescriptor⟩ := slot
  obtain ⟨otherKind, otherIsDescriptor⟩ := other
  cases isDescriptor <;> cases otherIsDescriptor <;>
    simp [read, write, AccessorTable.get_set]

theorem owner_write (r : PropertyEntry) (slot : AccessorSlot) (f : FunctionDecl) :
    (r.write slot f).owner = r.owner ∧ (r.write slot f).name = r.name := by
  unfold write
  split <;> exact ⟨rfl, rfl⟩

theorem ext_read {r r' : PropertyEntry} (howner : r.owner = r'.owner) (hname : r.name = r'.name)
    (h : ∀ slot, r.read slot = r'.read slot) : r = r' := by
  have haccessors : r.accessors = r'.accessors :=
    AccessorTable.ext_get fun kind => by simpa [read] using h ⟨kind, false⟩
  have hdescriptors : r.descriptors = r'.descriptors :=
    AccessorTable.ext_get fun kind => by simpa [read] using h ⟨kind, true⟩
  obtain ⟨_, _, _, _⟩ := r
  obtain ⟨_, _, _, _⟩ := r'
  simp_all

/-- The slot of a taken accessor, as a refusal names it. -/
def slotTaken (r : PropertyEntry) (slot : AccessorSlot) : SlotTaken :=
  { slot := if slot.isDescriptor then .accessorDescriptor slot.kind else .accessor slot.kind
    owner := r.owner
    member := some r.name }

/-- An accessor is written to its slot, if that is free. -/
theorem outcome_add (r : PropertyEntry) (f : FunctionDecl) (slot : AccessorSlot) :
    (r.add f slot.kind slot.isDescriptor).outcome =
      if (r.read slot).isSome then (r, some (r.slotTaken slot)) else (r.write slot f, none) := by
  obtain ⟨kind, isDescriptor⟩ := slot
  cases isDescriptor with
  | true =>
      simp only [add, read, write, slotTaken, if_true]
      cases r.descriptors.get kind <;> rfl
  | false =>
      simp only [add, read, write, slotTaken, Bool.false_eq_true, if_false]
      cases r.accessors.get kind <;> rfl

theorem add_filesAt (owner name : String) (f : FunctionDecl) (slot : AccessorSlot) :
    FilesAt (fun r => r.owner = owner ∧ r.name = name) read slot
      fun r => r.add f slot.kind slot.isDescriptor := by
  have hadd r := outcome_add r f slot
  simp only [outcome, Prod.ext_iff] at hadd
  constructor
  · intro r hr
    rw [(hadd r).1]
    split
    · exact hr
    · rwa [(r.owner_write slot f).1, (r.owner_write slot f).2]
  · intro r _ other hne
    rw [(hadd r).1]
    split
    · rfl
    · rw [read_write, if_neg (Ne.symm hne)]
  · intro r r' hr hr' hread
    rw [(hadd r).1, (hadd r').1, (hadd r).2, (hadd r').2, hread]
    cases hslot : (r'.read slot).isSome with
    | true => simp [slotTaken, hread, hr, hr']
    | false => simp [read_write]

/-- Two accessors for different slots commute. -/
theorem add_commute (r : PropertyEntry) (f g : FunctionDecl) {slot other : AccessorSlot}
    (hne : slot ≠ other) :
    CommuteAt (fun r : PropertyEntry => r.add f slot.kind slot.isDescriptor)
      (fun r => r.add g other.kind other.isDescriptor) r := by
  refine FilesAt.commute ?_ (add_filesAt r.owner r.name f slot) (add_filesAt r.owner r.name g other)
    hne ⟨rfl, rfl⟩
  intro s s' hs hs' hread
  exact ext_read (hs.1.trans hs'.1.symm) (hs.2.trans hs'.2.symm) hread

end PropertyEntry

/-! ## Places of a type -/

namespace TypeSurface

/-- A place in the contents of a type. -/
inductive Place where
  /-- The overload set of a name in a group of functions. -/
  | overloads (group : FunctionGroup) (name : String)
  /-- A property in a group of properties. -/
  | property (group : PropertyGroup) (name : String)
  | classConstructor
  | record (kind : RecordKind)
  /-- The variables of a name. -/
  | variables (name : String)
  /-- The witness table symbols of a kind. -/
  | witnesses (kind : WitnessKind)
  | subscripts (isPrivate : Bool)
  | propertyDescriptors
  | conformances
  /-- The functions of unknown destination. -/
  | unknown
deriving DecidableEq

/-- What a place holds. -/
abbrev Place.Contents : Place → Type
  | .overloads _ _ => Option OverloadSet
  | .property _ _ => Option PropertyEntry
  | .classConstructor => Option FunctionDecl
  | .record _ => Option MetadataRecord
  | .variables _ => Option (List VariableDecl)
  | .witnesses _ => Option (List FunctionDecl)
  | .subscripts _ => List FunctionDecl
  | .propertyDescriptors => List VariableDecl
  | .conformances => List ConformanceDecl
  | .unknown => List FunctionDecl

/-- What the type holds in a place. -/
def read (c : TypeSurface) : (place : Place) → place.Contents
  | .overloads group name => (c.functions group).overloads.get? name
  | .property group name => (c.group group).entries.get? name
  | .classConstructor => c.classConstructor
  | .record kind => c.record? kind
  | .variables name => c.storedVariables.groups.get? name
  | .witnesses kind => c.witnessTable.groups.get? kind
  | .subscripts true => c.privateSubscripts
  | .subscripts false => c.subscripts
  | .propertyDescriptors => c.propertyDescriptors
  | .conformances => c.conformances
  | .unknown => c.functionsOfUnknownDestination

/-- The contents of a type are its name and what is in its places. -/
theorem ext_read {c c' : TypeSurface} (hname : c.name = c'.name)
    (h : ∀ place, c.read place = c'.read place) : c = c' := by
  have hfunctions group : c.functions group = c'.functions group :=
    congrArg FunctionTable.mk (Table.ext_get? fun name => h (.overloads group name))
  have hproperties group : c.group group = c'.group group :=
    congrArg PropertyTable.mk (Table.ext_get? fun name => h (.property group name))
  have hvariables : c.storedVariables = c'.storedVariables :=
    congrArg VariableTable.mk (Table.ext_get? fun name => h (.variables name))
  have hwitnesses : c.witnessTable = c'.witnessTable :=
    congrArg WitnessTable.mk (Table.ext_get? fun kind => h (.witnesses kind))
  have hrecords kind : c.record? kind = c'.record? kind := h (.record kind)
  rw [TypeSurface.mk.injEq]
  exact ⟨hname, hfunctions .constructors, h .classConstructor, hfunctions .destructors,
    hproperties .instances, hproperties .statics, hproperties .privates,
    hproperties .staticPrivates, h (.subscripts false), h (.subscripts true), hfunctions .methods,
    hfunctions .methodDescriptors, hfunctions .staticFunctions, hwitnesses,
    hfunctions .initializers, hvariables, h .propertyDescriptors, h .conformances,
    hrecords .directMetadata, hrecords .lazyCacheVariable, hrecords .metaclass,
    hrecords .nominalTypeDescriptor, h .unknown⟩

/-! ### Writing a place -/

/-- The contents of the type with this in a place. In a table nothing is taken away, so there is
nothing to write without an entry. -/
def write (c : TypeSurface) : (place : Place) → place.Contents → TypeSurface
  | .overloads group name, some set =>
    c.withFunctions group ⟨(c.functions group).overloads.insert name set⟩
  | .property group name, some r => c.withGroup group ⟨(c.group group).entries.insert name r⟩
  | .classConstructor, slot => { c with classConstructor := slot }
  | .record kind, some r => c.withRecord kind r
  | .variables name, some vs =>
    { c with storedVariables := ⟨c.storedVariables.groups.insert name vs⟩ }
  | .witnesses kind, some fs => { c with witnessTable := ⟨c.witnessTable.groups.insert kind fs⟩ }
  | .subscripts true, fs => { c with privateSubscripts := fs }
  | .subscripts false, fs => { c with subscripts := fs }
  | .propertyDescriptors, vs => { c with propertyDescriptors := vs }
  | .conformances, ds => { c with conformances := ds }
  | .unknown, fs => { c with functionsOfUnknownDestination := fs }
  | .overloads _ _, none | .property _ _, none | .record _, none | .variables _, none
  | .witnesses _, none => c

variable (c : TypeSurface) {place other : Place}

-- The lemmas about writing go through all places. The groups and kinds are cases of their own,
-- because each of them is a field of its own.
theorem name_write (x : place.Contents) : (c.write place x).name = c.name := by
  rcases place with ⟨_ | _ | _ | _ | _ | _, _⟩ | ⟨_ | _ | _ | _, _⟩ | _ | (_ | _ | _ | _) | _ | _ |
    (_ | _) | _ | _ | _ <;> first | rfl | (cases x <;> rfl)

/-- Writing a place leaves all other places alone. -/
theorem read_write_of_ne (x : place.Contents) (h : other ≠ place) :
    (c.write place x).read other = c.read other := by
  rcases place with ⟨_ | _ | _ | _ | _ | _, _⟩ | ⟨_ | _ | _ | _, _⟩ | _ | (_ | _ | _ | _) | _ | _ |
      (_ | _) | _ | _ | _ <;>
    rcases other with ⟨_ | _ | _ | _ | _ | _, _⟩ | ⟨_ | _ | _ | _, _⟩ | _ | (_ | _ | _ | _) | _ |
        _ | (_ | _) | _ | _ | _ <;>
    first
      | rfl
      | exact absurd rfl h
      | (cases x <;> first | rfl | exact Table.get?_insert_of_ne _ (fun heq => h (by rw [heq])) _)

/-- What is read from a place that was just written depends on that place only. -/
theorem read_write_congr {c c' : TypeSurface} (x : place.Contents)
    (h : c.read place = c'.read place) :
    (c.write place x).read place = (c'.write place x).read place := by
  rcases place with ⟨_ | _ | _ | _ | _ | _, _⟩ | ⟨_ | _ | _ | _, _⟩ | _ | (_ | _ | _ | _) | _ | _ |
      (_ | _) | _ | _ | _ <;>
    first
      | rfl
      | (cases x <;>
          first
            | exact h
            | rfl
            | simp [read, write, functions, withFunctions, group, withGroup,
                Table.get?_insert_self])

/-- The states that footprints in a type are about: the contents of the type of one name. -/
def Named (name : NominalName) (c : TypeSurface) : Prop :=
  c.name = name

/-- A step that computes what is written to a place from what it reads there. -/
theorem filesAt_of_step {name : NominalName} {file : TypeSurface → Filed TypeSurface}
    (step : place.Contents → place.Contents × Option SlotTaken)
    (h : ∀ c, Named name c → (file c).outcome =
      (c.write place (step (c.read place)).1, (step (c.read place)).2)) :
    FilesAt (Named name) read place file :=
  .of_write (fun c => c.write place) step (fun c x hc => (c.name_write x).trans hc)
    (fun c x _ hne => c.read_write_of_ne x hne) (fun _ _ x hread => read_write_congr x hread) h

variable (name : NominalName)

theorem fileIn_filesAt (group : FunctionGroup) (f : FunctionDecl) :
    FilesAt (Named name) read (.overloads group f.name)
      fun c => ((c.functions group).fileIn group f).within (c.withFunctions group) := by
  refine filesAt_of_step (fun held =>
    let filed := OverloadSet.fileIn group (held.getD (.empty f.name)) f
    (some filed.after, filed.rejection)) fun c _ => ?_
  exact outcome_within ((c.functions group).outcome_fileIn group f) (c.withFunctions group)

theorem addProperty_filesAt (group : PropertyGroup) (f : FunctionDecl) (kind : AccessorKind)
    (isDescriptor : Bool) :
    FilesAt (Named name) read (.property group f.name)
      fun c => ((c.group group).add f kind isDescriptor).within (c.withGroup group) :=
  filesAt_of_step (fun held =>
    let filed :=
      (held.getD { owner := f.ownerName, name := f.name }).add f kind isDescriptor
    (some filed.after, filed.rejection)) fun _ _ => rfl

theorem addClassConstructor_filesAt (f : FunctionDecl) :
    FilesAt (Named name) read .classConstructor (·.addClassConstructor f) := by
  refine filesAt_of_step (fun held => match held with
    | some g => (some g, some ((empty name).slotTaken .classConstructor))
    | none => (some f, none)) fun c hc => ?_
  unfold addClassConstructor
  cases hheld : c.classConstructor with
  | none => simp [read, hheld, write, outcome]
  | some g =>
      obtain rfl : c.name = name := hc
      have hsame : { c with classConstructor := some g } = c := by rw [← hheld]
      simp only [read, hheld, write, outcome, hsame]
      rfl

theorem addRecord_filesAt (kind : RecordKind) (r : MetadataRecord) :
    FilesAt (Named name) read (.record kind) (·.addRecord kind r) := by
  refine filesAt_of_step (fun held => match held with
    | some _ => (none, some ((empty name).slotTaken (.record kind)))
    | none => (some r, none)) fun c hc => ?_
  unfold addRecord
  cases hheld : c.record? kind with
  | none => simp [read, hheld, write, outcome]
  | some _ =>
      have hname : c.name = name := hc
      simp [read, hheld, write, outcome, slotTaken, empty, hname]

end TypeSurface

/-- The place of a type that a function with this destination goes to. -/
def Destination.place (f : FunctionDecl) : Destination → TypeSurface.Place
  | .constructors => .overloads .constructors f.name
  | .classConstructor => .classConstructor
  | .destructors => .overloads .destructors f.name
  | .subscripts isPrivate => .subscripts isPrivate
  | .property group _ => .property group f.name
  | .methods => .overloads .methods f.name
  | .methodDescriptors => .overloads .methodDescriptors f.name
  | .staticFunctions => .overloads .staticFunctions f.name
  | .witnessTable =>
    match f.signature with
    | .witnessTable kind _ => .witnesses kind
    | _ => .unknown
  | .initializers => .overloads .initializers f.name
  | .unknown => .unknown

/-- The slot of a property that a function with this destination goes to. -/
def Destination.slot? (isDescriptor : Bool) : Destination → Option AccessorSlot
  | .property _ accessor => some ⟨accessor, isDescriptor⟩
  | _ => none

namespace TypeSurface

variable (name : NominalName)

theorem addAt_filesAt (f : FunctionDecl) (isDescriptor : Bool) (destination : Destination) :
    FilesAt (Named name) read (destination.place f) (·.addAt f isDescriptor destination) := by
  rcases destination_cases destination with ⟨group, rfl⟩ | rfl | ⟨isPrivate, rfl⟩ |
    ⟨group, accessor, rfl⟩ | rfl | rfl
  · have hplace : group.destination.place f = .overloads group f.name := by cases group <;> rfl
    rw [hplace]
    refine (fileIn_filesAt name group f).congr fun c _ => ?_
    rw [addAt_destination]
  · exact addClassConstructor_filesAt name f
  · cases isPrivate with
    | true =>
        show FilesAt (Named name) read (.subscripts true) _
        exact filesAt_of_step (fun held => (held ++ [f], none)) fun _ _ => rfl
    | false =>
        show FilesAt (Named name) read (.subscripts false) _
        exact filesAt_of_step (fun held => (held ++ [f], none)) fun _ _ => rfl
  · exact addProperty_filesAt name group f accessor isDescriptor
  · cases hf : f.signature with
    | witnessTable kind conformsTo =>
        simp only [Destination.place, hf]
        refine filesAt_of_step (fun held => (some (held.getD [] ++ [f]), none)) fun c _ => ?_
        simp [addAt, WitnessTable.add?, hf, write, read, outcome]
    | _ =>
        simp only [Destination.place, hf]
        refine filesAt_of_step (fun held => (held ++ [f], none)) fun c _ => ?_
        simp [addAt, WitnessTable.add?, hf, write, read, outcome, addUnknown]
  · show FilesAt (Named name) read .unknown _
    exact filesAt_of_step (fun held => (held ++ [f], none)) fun _ _ => rfl

end TypeSurface

/-- The place of a declaration in the contents of the type `owner`. -/
def Declaration.placeIn (owner : NominalName) : Declaration → TypeSurface.Place
  | .function f => (Destination.of owner f false).place f
  | .methodDescriptor f => (Destination.of owner f true).place f
  | .record kind _ => .record kind
  | .variable v => .variables v.name
  | .propertyDescriptor _ => .propertyDescriptors
  | .conformance _ => .conformances

/-- The slot of a property that a declaration goes to in the contents of the type `owner`, if it is
an accessor. -/
def Declaration.slotIn? (owner : NominalName) : Declaration → Option AccessorSlot
  | .function f => (Destination.of owner f false).slot? false
  | .methodDescriptor f => (Destination.of owner f true).slot? true
  | _ => none

namespace TypeSurface

theorem addFunction_filesAt (name : NominalName) (f : FunctionDecl) (isDescriptor : Bool) :
    FilesAt (Named name) read ((Destination.of name f isDescriptor).place f)
      (·.addFunction f isDescriptor) := by
  refine (addAt_filesAt name f isDescriptor (Destination.of name f isDescriptor)).congr ?_
  intro c hc
  obtain rfl : c.name = name := hc
  rfl

/-- Filing a declaration reads and writes its place only. -/
theorem add_filesAt (name : NominalName) (d : Declaration) :
    FilesAt (Named name) read (d.placeIn name) (·.add d) := by
  cases d with
  | function f => exact addFunction_filesAt name f false
  | methodDescriptor f => exact addFunction_filesAt name f true
  | record kind r => exact addRecord_filesAt name kind r
  | propertyDescriptor v =>
      show FilesAt (Named name) read .propertyDescriptors _
      exact filesAt_of_step (fun held => (held ++ [v], none)) fun _ _ => rfl
  | conformance r =>
      show FilesAt (Named name) read .conformances _
      exact filesAt_of_step (fun held => (held ++ [r], none)) fun _ _ => rfl
  | _ v =>
      show FilesAt (Named name) read (.variables v.name) _
      exact filesAt_of_step (fun held => (some (held.getD [] ++ [v]), none)) fun _ _ => rfl

/-- A function goes to no slot of a property, or it is the accessor of one. -/
theorem addFunction_cases (name : NominalName) (f : FunctionDecl) (isDescriptor : Bool) :
    ((Destination.of name f isDescriptor).slot? isDescriptor = none ∧
      ∀ group property, (Destination.of name f isDescriptor).place f ≠ .property group property) ∨
    ∃ group slot, (Destination.of name f isDescriptor).place f = .property group f.name ∧
      (Destination.of name f isDescriptor).slot? isDescriptor = some slot ∧ ∀ c, Named name c →
        (c.addFunction f isDescriptor).outcome =
          (((c.group group).add f slot.kind slot.isDescriptor).within
            (c.withGroup group)).outcome := by
  cases hto : Destination.of name f isDescriptor with
  | property group accessor =>
      refine .inr ⟨group, ⟨accessor, isDescriptor⟩, rfl, rfl, fun c hc => ?_⟩
      obtain rfl : c.name = name := hc
      simp [addFunction, hto, addAt]
  | witnessTable =>
      refine .inl ⟨rfl, fun group property => ?_⟩
      rw [Destination.place]
      split <;> simp
  | _ => simp [Destination.slot?, Destination.place]

/-- A declaration goes to no slot of a property, or it is the accessor of one. -/
theorem add_cases (name : NominalName) (d : Declaration) :
    (d.slotIn? name = none ∧ ∀ group property, d.placeIn name ≠ .property group property) ∨
    ∃ f group slot, d.owner = f.owner ∧ d.placeIn name = .property group f.name ∧
      d.slotIn? name = some slot ∧ ∀ c, Named name c →
        (c.add d).outcome =
          (((c.group group).add f slot.kind slot.isDescriptor).within
            (c.withGroup group)).outcome := by
  cases d with
  | function f =>
      rcases addFunction_cases name f false with hnone | ⟨group, slot, hrest⟩
      · exact .inl hnone
      · exact .inr ⟨f, group, slot, rfl, hrest⟩
  | methodDescriptor f =>
      rcases addFunction_cases name f true with hnone | ⟨group, slot, hrest⟩
      · exact .inl hnone
      · exact .inr ⟨f, group, slot, rfl, hrest⟩
  | _ => simp [Declaration.slotIn?, Declaration.placeIn]

@[simp] theorem group_withGroup (c : TypeSurface) (group : PropertyGroup) (t : PropertyTable) :
    (c.withGroup group t).group group = t := by
  cases group <;> rfl

@[simp] theorem withGroup_withGroup (c : TypeSurface) (group : PropertyGroup)
    (t u : PropertyTable) : (c.withGroup group t).withGroup group u = c.withGroup group u := by
  cases group <;> rfl

/-- Two accessors for different slots of one property commute. -/
theorem addProperty_commute (c : TypeSurface) (group : PropertyGroup) {f g : FunctionDecl}
    {slot other : AccessorSlot} (hname : g.name = f.name) (howner : g.ownerName = f.ownerName)
    (hne : slot ≠ other) :
    CommuteAt
      (fun c : TypeSurface =>
        ((c.group group).add f slot.kind slot.isDescriptor).within (c.withGroup group))
      (fun c => ((c.group group).add g other.kind other.isDescriptor).within (c.withGroup group))
      c := by
  simp only [PropertyTable.add, hname, howner]
  refine CommuteAt.within
    (fun c : TypeSurface =>
      ((c.group group).entries.get? f.name).getD { owner := f.ownerName, name := f.name })
    (fun c r => c.withGroup group ⟨(c.group group).entries.insert f.name r⟩)
    (PropertyEntry.add_commute _ f g hne) ?_ ?_
  · intro c r
    simp [Table.get?_insert_self]
  · intro c r r'
    simp [Table.insert_insert]

/-- Two declarations with one owner commute in its contents if they have different places there, or
different slots of one property. -/
theorem add_commute {d e : Declaration} {owner : NominalName} (hd : d.owner = some owner)
    (he : e.owner = some owner) (c : TypeSurface)
    (hne : (d.placeIn c.name, d.slotIn? c.name) ≠ (e.placeIn c.name, e.slotIn? c.name)) :
    CommuteAt (·.add d) (·.add e) c := by
  by_cases hplace : d.placeIn c.name = e.placeIn c.name
  case neg =>
      refine FilesAt.commute (fun s s' hs hs' hread => ?_) (add_filesAt c.name d)
        (add_filesAt c.name e) hplace rfl
      exact ext_read (hs.trans hs'.symm) hread
  rcases add_cases c.name d with ⟨hdslot, hdplace⟩ |
    ⟨f, group, slot, hdowner, hdplace, hdslot, hdadd⟩ <;>
    rcases add_cases c.name e with ⟨heslot, heplace⟩ |
      ⟨g, group', other, heowner, heplace, heslot, headd⟩
  · exact absurd (Prod.ext hplace (hdslot.trans heslot.symm)) hne
  · exact absurd (hplace.trans heplace) (hdplace _ _)
  · exact absurd (hplace.symm.trans hdplace) (heplace _ _)
  · have hproperty := hdplace.symm.trans (hplace.trans heplace)
    simp only [Place.property.injEq] at hproperty
    obtain ⟨rfl, hname⟩ := hproperty
    have hslots : slot ≠ other := by
      intro hsame
      exact hne (Prod.ext hplace (by rw [hdslot, heslot, hsame]))
    have howner : g.ownerName = f.ownerName := by
      rw [FunctionDecl.ownerName, FunctionDecl.ownerName, ← hdowner, ← heowner, hd, he]
    have hnamed (t : PropertyTable) : Named c.name (c.withGroup group t) := by
      cases group <;> rfl
    have hcommute := addProperty_commute c group hname.symm howner hslots
    exact CommuteAt.congr (P := Named c.name) hcommute rfl (hnamed _) (hnamed _) hdadd headd

end TypeSurface

end SwiftSurface
