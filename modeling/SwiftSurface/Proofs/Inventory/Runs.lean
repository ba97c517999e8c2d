import SwiftSurface.Inventory.Basic

/-!
# Runs

An inventory is built by filing one declaration after another. `addAll` is what such a run leaves
behind, refused declarations included; a state is reachable if it is `addAll` of an empty one.
-/

namespace SwiftSurface

namespace TypeSurface

/-- The contents after filing these declarations in order. -/
def addAll (c : TypeSurface) (ds : List Declaration) : TypeSurface :=
  ds.foldl (fun c d => (c.add d).after) c

@[simp] theorem addAll_cons (c : TypeSurface) (d : Declaration) (ds : List Declaration) :
    c.addAll (d :: ds) = (c.add d).after.addAll ds := rfl

theorem addAll_concat (c : TypeSurface) (ds : List Declaration) (d : Declaration) :
    c.addAll (ds ++ [d]) = ((c.addAll ds).add d).after := by
  simp [addAll]

end TypeSurface

namespace Inventory

/-- The inventory after filing these declarations in order. -/
def addAll (i : Inventory) (ds : List Declaration) : Inventory :=
  ds.foldl (fun i d => (i.add d).after) i

@[simp] theorem addAll_nil (i : Inventory) : i.addAll [] = i := rfl

@[simp] theorem addAll_cons (i : Inventory) (d : Declaration) (ds : List Declaration) :
    i.addAll (d :: ds) = (i.add d).after.addAll ds := rfl

/-- The declarations of a run that are not refused, in order. -/
def accepted (i : Inventory) : List Declaration → List Declaration
  | [] => []
  | d :: ds =>
    if (i.add d).rejection.isSome then (i.add d).after.accepted ds
    else d :: (i.add d).after.accepted ds

end Inventory

end SwiftSurface
