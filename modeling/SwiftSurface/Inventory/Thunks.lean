import SwiftSurface.Inventory.Functions

/-!
# Static functions and their thunks

A static function and its thunk are one function for a reader, so only the canonical one is listed
and it carries its thunk, whichever of the two comes first. The linked thunk coming again is a
duplicate; another thunk of the same function takes its place.
-/

namespace SwiftSurface

/-- The thunk that a static function is, with no thunk of its own. -/
def FunctionDecl.toThunk? (f : FunctionDecl) : Option Thunk :=
  f.signature.static?.map fun s =>
    { mangledName := f.mangledName, offset := f.offset, signature := { s with thunk := none } }

/-- The static function with this thunk linked to it. Other functions have no thunk. -/
def FunctionDecl.withThunk (f : FunctionDecl) (thunk : Option Thunk) : FunctionDecl :=
  match f.signature with
  | .static s => { f with signature := .static { s with thunk } }
  | _ => f

namespace FunctionTable

/-- Files a canonical function in place of its thunk, which it then carries. -/
def addCanonical (t : FunctionTable) (thunk canonical : FunctionDecl) : Filed FunctionTable :=
  let linked := canonical.withThunk thunk.toThunk?
  let filed : Filed FunctionTable :=
    match t.replace? canonical.name thunk.mangledName linked with
    | some t => { after := t }
    | none => t.add linked
  filed.following (.linked thunk.mangledName canonical.mangledName)

/-- Links a thunk to the canonical function of this mangled name, unless it is linked already. -/
def addThunk (t : FunctionTable) (canonicalName : String) (thunk : FunctionDecl) :
    Filed FunctionTable :=
  match t.find? thunk.name canonicalName with
  | none => { after := t }
  | some canonical =>
    match canonical.signature.static? with
    | none => { after := t }
    | some s =>
      let linked := canonical.withThunk thunk.toThunk?
      let after := (t.replace? thunk.name canonicalName linked).getD t
      match s.thunk with
      | none => Filed.following { after } (.linked thunk.mangledName canonicalName)
      | some old =>
        if old.mangledName == thunk.mangledName then
          .refused t
            { slot := .overload, owner := thunk.ownerName, member := some thunk.mangledName }
        else
          Filed.following { after } (.relinked old.mangledName canonicalName thunk.mangledName)

/-- Files a static function, linked with its counterpart if that is there. -/
def addStatic (t : FunctionTable) (f : FunctionDecl) : Filed FunctionTable :=
  match t.counterpart? f with
  | none => t.add f
  | some counterpart =>
    if counterpart.isThunk then t.addCanonical counterpart f
    else t.addThunk counterpart.mangledName f

end FunctionTable

end SwiftSurface
