import SwiftSurface.Proofs.Inventory.Places

/-!
# The cell that a declaration is routed to

The cell of a declaration is where an inventory files it: the module, the place in the module, for
an owned declaration the place in the contents of its owner, and for the accessor of a property its
slot there. It depends on the declaration only.

Two declarations of different cells commute (`Inventory.add_commute`) as long as two owners with one
full name in one family are the same, for whichever comes first makes the contents of the owner. The
step needs one fact about the inventory: the contents at a full name are those of a type that has it
(`Inventory.WellNamed`).
-/

namespace SwiftSurface

open Filed

/-! ## Places of a module -/

/-- Are types of this kind kept with the protocols? -/
def NominalKind.isProtocol : NominalKind → Bool
  | .protocolType => true
  | .classType | .structType | .enumType => false

namespace ModuleSurface

/-- A place in the contents of a module. -/
inductive Place where
  /-- The contents of the type of a full name, among the protocols or among the other types. -/
  | type (isProtocol : Bool) (fullName : String)
  /-- The overload set of a name among the functions. -/
  | functions (name : String)
  /-- The variables of a name. -/
  | variables (name : String)
  | unknown
deriving DecidableEq

/-- What a place holds. -/
abbrev Place.Contents : Place → Type
  | .type _ _ => Option TypeSurface
  | .functions _ => Option OverloadSet
  | .variables _ => Option (List VariableDecl)
  | .unknown => List Declaration

/-- What the module holds in a place. -/
def read (m : ModuleSurface) : (place : Place) → place.Contents
  | .type true fullName => m.protocols.get? fullName
  | .type false fullName => m.classes.get? fullName
  | .functions name => m.functions.overloads.get? name
  | .variables name => m.storedVariables.groups.get? name
  | .unknown => m.definitionsOfUnknownDestination

/-- The contents of a module are its name and what is in its places. -/
theorem ext_read {m m' : ModuleSurface} (hname : m.name = m'.name)
    (h : ∀ place, m.read place = m'.read place) : m = m' := by
  have hclasses : m.classes = m'.classes := Table.ext_get? fun name => h (.type false name)
  have hprotocols : m.protocols = m'.protocols := Table.ext_get? fun name => h (.type true name)
  have hfunctions : m.functions = m'.functions :=
    congrArg FunctionTable.mk (Table.ext_get? fun name => h (.functions name))
  have hvariables : m.storedVariables = m'.storedVariables :=
    congrArg VariableTable.mk (Table.ext_get? fun name => h (.variables name))
  rw [ModuleSurface.mk.injEq]
  exact ⟨hname, hclasses, hprotocols, hfunctions, hvariables, h .unknown⟩

/-- The module with this in a place. In a table nothing is taken away, so there is nothing to write
without an entry. -/
def write (m : ModuleSurface) : (place : Place) → place.Contents → ModuleSurface
  | .type true fullName, some c => { m with protocols := m.protocols.insert fullName c }
  | .type false fullName, some c => { m with classes := m.classes.insert fullName c }
  | .functions name, some set => { m with functions := ⟨m.functions.overloads.insert name set⟩ }
  | .variables name, some vs =>
    { m with storedVariables := ⟨m.storedVariables.groups.insert name vs⟩ }
  | .unknown, ds => { m with definitionsOfUnknownDestination := ds }
  | .type true _, none | .type false _, none | .functions _, none | .variables _, none => m

variable (m : ModuleSurface) {place other : Place}

theorem name_write (x : place.Contents) : (m.write place x).name = m.name := by
  rcases place with ⟨_ | _, _⟩ | _ | _ | _ <;> first | rfl | (cases x <;> rfl)

/-- Writing a place leaves all other places alone. -/
theorem read_write_of_ne (x : place.Contents) (h : other ≠ place) :
    (m.write place x).read other = m.read other := by
  rcases place with ⟨_ | _, _⟩ | _ | _ | _ <;> rcases other with ⟨_ | _, _⟩ | _ | _ | _ <;>
    first
      | rfl
      | exact absurd rfl h
      | (cases x <;> first | rfl | exact Table.get?_insert_of_ne _ (fun heq => h (by rw [heq])) _)

/-- What is read from a place that was just written depends on that place only. -/
theorem read_write_congr {m m' : ModuleSurface} (x : place.Contents)
    (h : m.read place = m'.read place) :
    (m.write place x).read place = (m'.write place x).read place := by
  rcases place with ⟨_ | _, _⟩ | _ | _ | _ <;>
    first
      | rfl
      | (cases x <;> first | exact h | simp [read, write, Table.get?_insert_self])

/-- The states that footprints in a module are about: the contents of the module of one name. -/
def Named (name : String) (m : ModuleSurface) : Prop :=
  m.name = name

/-- A step that computes what is written to a place from what it reads there. -/
theorem filesAt_of_step {name : String} {file : ModuleSurface → Filed ModuleSurface}
    (step : place.Contents → place.Contents × Option SlotTaken)
    (h : ∀ m, Named name m → (file m).outcome =
      (m.write place (step (m.read place)).1, (step (m.read place)).2)) :
    FilesAt (Named name) read place file :=
  .of_write (fun m => m.write place) step (fun m x hm => (m.name_write x).trans hm)
    (fun m x _ hne => m.read_write_of_ne x hne) (fun _ _ x hread => read_write_congr x hread) h

end ModuleSurface

/-- The place of a declaration in the contents of its module. -/
def Declaration.modulePlace (d : Declaration) : ModuleSurface.Place :=
  match d.owner, d with
  | some owner, _ => .type owner.kind.isProtocol owner.fullName
  | none, .function f => .functions f.name
  | none, .variable v => .variables v.name
  | none, _ => .unknown

/-- The place of an owned declaration in the contents of its owner, with the slot of the property if
it is the accessor of one. -/
def Declaration.member? (d : Declaration) : Option (TypeSurface.Place × Option AccessorSlot) :=
  d.owner.map fun owner => (d.placeIn owner, d.slotIn? owner)

theorem Declaration.modulePlace_of_owner {d : Declaration} {owner : NominalName}
    (h : d.owner = some owner) :
    d.modulePlace = .type owner.kind.isProtocol owner.fullName := by
  simp [modulePlace, h]

theorem Declaration.owner_of_modulePlace {d : Declaration} {isProtocol : Bool} {fullName : String}
    (h : d.modulePlace = .type isProtocol fullName) :
    ∃ owner, d.owner = some owner ∧ owner.kind.isProtocol = isProtocol ∧
      owner.fullName = fullName := by
  cases howner : d.owner with
  | none => cases d <;> simp [modulePlace, howner] at h
  | some owner =>
      rw [modulePlace_of_owner howner, ModuleSurface.Place.type.injEq] at h
      exact ⟨owner, rfl, h⟩

namespace ModuleSurface

/-- Filing an owned declaration reads and writes the contents of its owner only. -/
theorem addOwned_filesAt (name : String) (owner : NominalName) (d : Declaration) :
    FilesAt (Named name) read (.type owner.kind.isProtocol owner.fullName)
      (·.addOwned owner d) := by
  refine filesAt_of_step (fun held =>
    let filed := (held.getD (.empty owner)).add d
    (some filed.after, filed.rejection)) fun m _ => ?_
  rw [outcome_addOwned]
  cases owner.kind <;> rfl

/-- Filing a declaration reads and writes its place only. -/
theorem add_filesAt (name : String) (d : Declaration) :
    FilesAt (Named name) read d.modulePlace (·.add d) := by
  cases howner : d.owner with
  | some owner =>
      rw [Declaration.modulePlace_of_owner howner]
      simp only [add, howner]
      exact addOwned_filesAt name owner d
  | none =>
      have hunknown (hplace : d.modulePlace = .unknown)
          (hadd : ∀ m, (addFree m d).outcome = (m.write .unknown (m.read .unknown ++ [d]), none)) :
          FilesAt (Named name) read d.modulePlace (·.addFree d) := by
        rw [hplace]
        exact filesAt_of_step (fun held => (held ++ [d], none)) fun m _ => hadd m
      simp only [add, howner]
      cases d with
      | function f =>
          simp only [Declaration.modulePlace, howner]
          exact filesAt_of_step (fun held =>
            let filed := (held.getD (.empty f.name)).add f
            (some filed.after, filed.rejection)) fun _ _ => rfl
      | methodDescriptor f | propertyDescriptor v =>
          exact hunknown (by simp [Declaration.modulePlace, howner]) fun _ => rfl
      | record kind r | conformance r => simp [Declaration.owner] at howner
      | _ v =>
          simp only [Declaration.modulePlace, howner]
          exact filesAt_of_step (fun held => (some (held.getD [] ++ [v]), none)) fun _ _ => rfl

/-! ### Declarations with one owner -/

theorem withFamily_withFamily (m : ModuleSurface) (kind : NominalKind)
    (types types' : Table String TypeSurface) :
    (m.withFamily kind types).withFamily kind types' = m.withFamily kind types' := by
  cases kind <;> rfl

/-- Declarations with one owner commute if they do in its contents. -/
theorem addOwned_commute {m : ModuleSurface} {owner : NominalName} {d e : Declaration}
    (h : CommuteAt (fun c : TypeSurface => c.add d) (·.add e)
      (((m.family owner.kind).get? owner.fullName).getD (.empty owner))) :
    CommuteAt (·.addOwned owner d) (·.addOwned owner e) m := by
  have hcommute := CommuteAt.within
    (fun m : ModuleSurface => ((m.family owner.kind).get? owner.fullName).getD (.empty owner))
    (fun m c => m.withFamily owner.kind ((m.family owner.kind).insert owner.fullName c)) h
    (fun m c => by simp [family_withFamily_self, Table.get?_insert_self])
    (fun m c c' => by simp [family_withFamily_self, withFamily_withFamily, Table.insert_insert])
  exact hcommute.congr (P := fun _ => True) trivial trivial trivial
    (fun m _ => m.outcome_addOwned owner d) (fun m _ => m.outcome_addOwned owner e)

end ModuleSurface

/-! ## Cells -/

/-- Where an inventory files a declaration. -/
structure Cell where
  module : String
  place : ModuleSurface.Place
  /-- For an owned declaration, the place in the contents of the owner and the slot of the property
  there. -/
  member : Option (TypeSurface.Place × Option AccessorSlot)
deriving DecidableEq

/-- The cell that a declaration is routed to. -/
def Declaration.cell (d : Declaration) : Cell :=
  { module := d.module, place := d.modulePlace, member := d.member? }

/-- Do two owners with one full name in one family only occur if they are the same? Protocols are
one family, all other types are the other one. -/
def OwnersAgree (ds : List Declaration) : Prop :=
  ∀ d ∈ ds, ∀ e ∈ ds, ∀ owner ∈ d.owner, ∀ owner' ∈ e.owner,
    owner.fullName = owner'.fullName → owner.kind.isProtocol = owner'.kind.isProtocol →
      owner = owner'

theorem OwnersAgree.of_subset {ds ds' : List Declaration} (h : OwnersAgree ds) (hsub : ds' ⊆ ds) :
    OwnersAgree ds' :=
  fun d hd e he => h d (hsub hd) e (hsub he)

/-- Are the contents kept at a full name those of a type that has it? -/
def Inventory.WellNamed (i : Inventory) : Prop :=
  i.Every fun name c => c.name.fullName = name

/-! ### Well-named inventories -/

theorem TypeSurface.name_add (c : TypeSurface) (d : Declaration) : (c.add d).after.name = c.name :=
  (add_filesAt c.name d).keeps c rfl

namespace Inventory

theorem WellNamed.add {i : Inventory} (h : i.WellNamed) (d : Declaration) :
    (i.add d).after.WellNamed := by
  refine Every.add h (fun owner _ => rfl) (fun name c hc => hc) fun name c hc => ?_
  rw [TypeSurface.name_add]
  exact hc

theorem WellNamed.addAll {i : Inventory} (h : i.WellNamed) (ds : List Declaration) :
    (i.addAll ds).WellNamed := by
  induction ds generalizing i with
  | nil => exact h
  | cons d ds ih => exact ih (h.add d)

end Inventory

/-! ### Different cells -/

/-- Where a declaration goes in contents depends on the full name of their type only. -/
theorem Destination.of_congr {owner owner' : NominalName} (h : owner.fullName = owner'.fullName)
    (f : FunctionDecl) (isDescriptor : Bool) :
    Destination.of owner f isDescriptor = Destination.of owner' f isDescriptor := by
  have hmethod : f.signature.isMethodOf owner = f.signature.isMethodOf owner' := by
    simp only [Signature.isMethodOf, h]
  simp only [Destination.of, hmethod]

theorem Declaration.placeIn_congr {owner owner' : NominalName}
    (h : owner.fullName = owner'.fullName) (d : Declaration) :
    d.placeIn owner = d.placeIn owner' ∧ d.slotIn? owner = d.slotIn? owner' := by
  cases d <;> simp [placeIn, slotIn?, Destination.of_congr h]

/-- Two declarations for different places of a module commute in it. -/
theorem ModuleSurface.add_commute {m : ModuleSurface} {d e : Declaration}
    (hnamed : m.Every fun name c => c.name.fullName = name) (howners : OwnersAgree [d, e])
    (hne : (d.modulePlace, d.member?) ≠ (e.modulePlace, e.member?)) :
    CommuteAt (·.add d) (·.add e) m := by
  by_cases hplace : d.modulePlace = e.modulePlace
  case neg =>
      refine FilesAt.commute (fun s s' hs hs' hread => ?_) (add_filesAt m.name d)
        (add_filesAt m.name e) hplace rfl
      exact ext_read (hs.trans hs'.symm) hread
  have hmember : d.member? ≠ e.member? := fun h => hne (Prod.ext hplace h)
  cases hd : d.owner with
  | none =>
      cases he : e.owner with
      | none => simp [Declaration.member?, hd, he] at hmember
      | some owner =>
          rw [Declaration.modulePlace_of_owner he] at hplace
          obtain ⟨_, hsome, -⟩ := Declaration.owner_of_modulePlace hplace
          simp [hd] at hsome
  | some owner =>
      -- whichever comes first makes the contents, and it makes the same
      rw [Declaration.modulePlace_of_owner hd] at hplace
      obtain ⟨owner', he, hfamily, hname⟩ := Declaration.owner_of_modulePlace hplace.symm
      obtain rfl : owner = owner' :=
        howners d (by simp) e (by simp) owner hd owner' he hname.symm hfamily.symm
      simp only [ModuleSurface.add, hd, he]
      refine addOwned_commute (TypeSurface.add_commute hd he _ ?_)
      have hcontents := hnamed.getD owner rfl
      simpa [Declaration.member?, hd, he, Declaration.placeIn_congr hcontents] using hmember

/-! ### Inventories -/

namespace Inventory

/-- The inventory with these contents of a module. -/
def write (i : Inventory) (module : String) : Option ModuleSurface → Inventory
  | some m => { i with modules := i.modules.insert module m }
  | none => i

/-- Filing a declaration reads and writes its module only. -/
theorem add_filesAt (architecture : Architecture) (d : Declaration) :
    FilesAt (ν := fun _ => Option ModuleSurface)
      (fun i : Inventory => i.architecture = architecture) module? d.module (·.add d) := by
  refine .of_write (fun i => i.write d.module) (fun held =>
    let filed := (held.getD { name := d.module }).add d
    (some filed.after, filed.rejection)) ?_ ?_ ?_ fun i _ => ?_
  · intro i held hi
    cases held <;> exact hi
  · intro i held module hne
    cases held with
    | none => rfl
    | some m => exact Table.get?_insert_of_ne _ (Ne.symm hne) m
  · intro i i' held hread
    cases held with
    | none => exact hread
    | some m => simp [write, module?, Table.get?_insert_self]
  · exact i.outcome_add d

/-- **Declarations of different cells commute.** -/
theorem add_commute {i : Inventory} (hnamed : i.WellNamed) {d e : Declaration}
    (howners : OwnersAgree [d, e]) (hne : d.cell ≠ e.cell) : CommuteAt (·.add d) (·.add e) i := by
  by_cases hmodule : d.module = e.module
  case neg =>
      refine FilesAt.commute (fun s s' hs hs' hread => ?_) (add_filesAt i.architecture d)
        (add_filesAt i.architecture e) hmodule rfl
      rw [Inventory.mk.injEq]
      exact ⟨hs.trans hs'.symm, Table.ext_get? hread⟩
  have hplaces : (d.modulePlace, d.member?) ≠ (e.modulePlace, e.member?) := by
    intro hsame
    rw [Prod.mk.injEq] at hsame
    exact hne (by simp [Declaration.cell, hmodule, hsame])
  have hheld : ((i.modules.get? d.module).getD { name := d.module }).Every
      fun name c => c.name.fullName = name := by
    cases hget : i.modules.get? d.module with
    | none => exact ModuleSurface.made_every d.module
    | some m => exact hnamed d.module m hget
  have hcommute := CommuteAt.within
    (fun i : Inventory => (i.modules.get? d.module).getD { name := d.module })
    (fun i m => { i with modules := i.modules.insert d.module m })
    (ModuleSurface.add_commute hheld howners hplaces)
    (fun i m => by simp [Table.get?_insert_self]) (fun i m m' => by simp [Table.insert_insert])
  refine hcommute.congr (P := fun _ => True) trivial trivial trivial (fun i _ => rfl) fun i _ => ?_
  rw [hmodule]
  rfl

end Inventory

end SwiftSurface
