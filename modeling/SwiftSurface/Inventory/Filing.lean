import SwiftSurface.Inventory.Destination
import SwiftSurface.Log

/-!
# Filing: outcomes and their causes

Filing a declaration changes an inventory, or is refused because the place for it is taken. `Filed`
holds the inventory afterwards in both cases, so that it can be stated what a refusal leaves behind.
-/

namespace SwiftSurface

/-! ## Refusals -/

/-- A place of an inventory that holds one declaration at most. -/
inductive Slot where
  | classConstructor
  | record (kind : RecordKind)
  /-- One mangled name within an overload set. -/
  | overload
  | accessor (kind : AccessorKind)
  | accessorDescriptor (kind : AccessorKind)
deriving DecidableEq

/-- The slot in words. -/
def Slot.render : Slot → String
  | .classConstructor => "type metadata accessor"
  | .record .directMetadata => "direct metadata"
  | .record .lazyCacheVariable => "lazy cache variable"
  | .record .metaclass => "metaclass"
  | .record .nominalTypeDescriptor => "nominal type descriptor"
  | .overload => "overload"
  | .accessor kind => kind.render ++ " accessor"
  | .accessorDescriptor kind => kind.render ++ " descriptor"

/-- A declaration came for a slot that was taken. -/
structure SlotTaken where
  slot : Slot
  /-- The full name of the type, or the module, that the slot belongs to. -/
  owner : String
  /-- The member of the owner that the slot belongs to, if it belongs to one. -/
  member : Option String
deriving DecidableEq

/-- The refusal in words. -/
def SlotTaken.message (d : SlotTaken) : String :=
  "Duplicate " ++ d.slot.render ++ " in `" ++ d.owner ++ "`"
    ++ (match d.member with
        | some member => " for member `" ++ member ++ "`"
        | none => "")
    ++ ". Each slot of a type may only be defined once per image."

/-! ## Events -/

/-- What happens while a declaration is filed. -/
inductive FilingEvent where
  /-- A type is met for the first time in a module. -/
  | newType (kind : NominalKind) (name module : String)
  /-- A function is routed to its destination in a type. -/
  | routed (owner mangledName : String) (destination : Destination)
  /-- A function goes to the overload set of a name. -/
  | overload (mangledName name : String)
  /-- An accessor goes to its slot. -/
  | accessor (slot : Slot) (name owner mangledName : String)
  /-- A thunk is linked to its canonical function. -/
  | linked (thunk canonical : String)
  /-- A linked thunk gives way to another one. -/
  | relinked (old canonical new : String)
  /-- A declaration without an owner has no place in its module. -/
  | ownerless (mangledName module : String)
deriving DecidableEq

/-- The line that reports an event. Only a thunk that gives way is worth a warning. -/
def FilingEvent.line : FilingEvent → Log.Line
  | .newType kind name module =>
    ⟨.debug, "new " ++ kind.render ++ " `" ++ name ++ "` in module `" ++ module ++ "`"⟩
  | .routed owner mangledName destination =>
    ⟨.debug, owner ++ " `" ++ mangledName ++ "` -> " ++ destination.render⟩
  | .overload mangledName name =>
    ⟨.debug, "filing `" ++ mangledName ++ "` under overload `" ++ name ++ "`"⟩
  | .accessor slot name owner mangledName =>
    ⟨.debug, slot.render ++ " `" ++ name ++ "` of `" ++ owner ++ "`: " ++ mangledName⟩
  | .linked thunk canonical =>
    ⟨.debug, "linking thunk `" ++ thunk ++ "` into `" ++ canonical ++ "`"⟩
  | .relinked old canonical new =>
    ⟨.warn, "thunk `" ++ old ++ "` of `" ++ canonical ++ "` replaced by `" ++ new ++ "`"⟩
  | .ownerless mangledName module =>
    ⟨.debug, "`" ++ mangledName ++ "` has no owner in module `" ++ module ++ "`"⟩

/-! ## Outcomes -/

/-- The outcome of filing a declaration in a `σ`. -/
structure Filed (σ : Type) where
  /-- The inventory afterwards. -/
  after : σ
  /-- Why the declaration was refused, if it was. -/
  rejection : Option SlotTaken := none
  /-- What happened on the way, in order. -/
  events : List FilingEvent := []

namespace Filed

variable {σ τ : Type}

/-- The outcome for what `part` is a part of. -/
def within (part : Filed σ) (rebuild : σ → τ) : Filed τ :=
  { after := rebuild part.after, rejection := part.rejection, events := part.events }

/-- The outcome with an event that happened first. -/
def following (filed : Filed σ) (event : FilingEvent) : Filed σ :=
  { filed with events := event :: filed.events }

/-- The declaration is refused and nothing changes. -/
def refused (before : σ) (rejection : SlotTaken) : Filed σ :=
  { after := before, rejection := some rejection }

@[simp] theorem after_within (part : Filed σ) (rebuild : σ → τ) :
    (part.within rebuild).after = rebuild part.after := rfl

@[simp] theorem rejection_within (part : Filed σ) (rebuild : σ → τ) :
    (part.within rebuild).rejection = part.rejection := rfl

@[simp] theorem after_following (filed : Filed σ) (event : FilingEvent) :
    (filed.following event).after = filed.after := rfl

@[simp] theorem rejection_following (filed : Filed σ) (event : FilingEvent) :
    (filed.following event).rejection = filed.rejection := rfl

@[simp] theorem after_refused (before : σ) (rejection : SlotTaken) :
    (refused before rejection).after = before := rfl

@[simp] theorem rejection_refused (before : σ) (rejection : SlotTaken) :
    (refused before rejection).rejection = some rejection := rfl

end Filed

end SwiftSurface
