import SwiftSurface.Inventory.Filing
import SwiftSurface.Table

/-!
# Functions grouped by name

An `OverloadSet` holds the functions of one unqualified name in the order in which they came, each
mangled name once. A `FunctionTable` holds the overload sets of a type or module by their names.
-/

namespace SwiftSurface

/-! ## Overload sets -/

/-- The functions of one unqualified name, in the order in which they came. -/
structure OverloadSet where
  name : String
  functions : List FunctionDecl
deriving DecidableEq

namespace OverloadSet

/-- The overload set of `name` without functions. -/
def empty (name : String) : OverloadSet :=
  { name, functions := [] }

/-- The function of this mangled name. -/
def find? (set : OverloadSet) (mangledName : String) : Option FunctionDecl :=
  set.functions.find? (·.mangledName == mangledName)

/-- Appends a function, unless one of its mangled name is there. -/
def add (set : OverloadSet) (f : FunctionDecl) : Filed OverloadSet :=
  if (set.find? f.mangledName).isSome then
    .refused set { slot := .overload, owner := f.ownerName, member := some f.mangledName }
  else { after := { set with functions := set.functions ++ [f] } }

/-- Writes `new` over the first function of this mangled name, in its position. -/
def replaceFirst (mangledName : String) (new : FunctionDecl) : List FunctionDecl → List FunctionDecl
  | [] => []
  | f :: rest =>
    if f.mangledName == mangledName then new :: rest else f :: replaceFirst mangledName new rest

/-- The set with `new` in place of the function of this mangled name. -/
def replace (set : OverloadSet) (mangledName : String) (new : FunctionDecl) : OverloadSet :=
  { set with functions := replaceFirst mangledName new set.functions }

end OverloadSet

/-! ## Function tables -/

/-- Overload sets by name. -/
structure FunctionTable where
  overloads : Table String OverloadSet
deriving DecidableEq

namespace FunctionTable

/-- The table without functions. -/
def empty : FunctionTable :=
  ⟨.empty⟩

/-- The functions of this name. -/
def named (t : FunctionTable) (name : String) : List FunctionDecl :=
  ((t.overloads.get? name).map (·.functions)).getD []

/-- Files a function in the overload set of its name, which is made if it is not there. -/
def add (t : FunctionTable) (f : FunctionDecl) : Filed FunctionTable :=
  let set := (t.overloads.get? f.name).getD (.empty f.name)
  ((set.add f).within fun set => ⟨t.overloads.insert f.name set⟩).following
    (.overload f.mangledName f.name)

/-- The number of overload sets. -/
def size (t : FunctionTable) : Nat :=
  t.overloads.size

/-- The number of functions in all overload sets. -/
def functionCount (t : FunctionTable) : Nat :=
  (t.overloads.values.flatMap (·.functions)).length

/-- Every function, with the name it is filed under. -/
def all (t : FunctionTable) : List (String × FunctionDecl) :=
  t.overloads.entries.flatMap fun (name, set) => set.functions.map (name, ·)

/-- The allocating constructors. -/
def allocatingConstructors (t : FunctionTable) : List FunctionDecl :=
  t.named "__allocating_init"

/-- The deallocating destructors. -/
def deallocatingDestructors (t : FunctionTable) : List FunctionDecl :=
  t.named "__deallocating_deinit"

/-- The first function of the same name to which `f` is equivalent. -/
def counterpart? (t : FunctionTable) (f : FunctionDecl) : Option FunctionDecl :=
  (t.named f.name).find? (·.isCounterpartOf f)

/-- The function of this name and mangled name. -/
def find? (t : FunctionTable) (name mangledName : String) : Option FunctionDecl :=
  (t.overloads.get? name).bind (·.find? mangledName)

/-- Writes `new` over the function of this name and mangled name, in its position. Without one there
is nothing to replace. -/
def replace? (t : FunctionTable) (name mangledName : String) (new : FunctionDecl) :
    Option FunctionTable :=
  match t.overloads.get? name with
  | none => none
  | some set =>
    if (set.find? mangledName).isSome then
      some ⟨t.overloads.insert name (set.replace mangledName new)⟩
    else none

end FunctionTable

end SwiftSurface
