import SwiftSurface.Declaration.Sample
import SwiftSurface.Inventory.Destination
import SwiftSurface.Proofs.TypeExpr.Chains

/-!
# The receivers of methods

A method is filed by the type that it is uncurried over. Only the first name of the receiver is
compared with the owner, up to the first generic arguments: a method on `M.Outer<T>.Inner` is filed
as one of `M.Outer`, and not as one of `M.Outer.Inner`, which the whole path names
(`destination_of_receiver`). Without inner types the first name is the whole path.
-/

namespace SwiftSurface

/-- Where the contents of `owner` hold a method, or the descriptor of one, on the type of this
name. -/
def Destination.ofMethodOn (owner : NominalName) (isDescriptor : Bool) (name : String) :
    Destination :=
  if name = owner.fullName then if isDescriptor then .methodDescriptors else .methods else .unknown

/-- Methods on two types are filed together just if both types are the owner or neither is. -/
theorem ofMethodOn_eq_iff {owner : NominalName} {isDescriptor : Bool} {name name' : String} :
    Destination.ofMethodOn owner isDescriptor name =
        Destination.ofMethodOn owner isDescriptor name' ↔
      (name = owner.fullName ↔ name' = owner.fullName) := by
  by_cases h : name = owner.fullName <;> by_cases h' : name' = owner.fullName <;>
    cases isDescriptor <;> simp [Destination.ofMethodOn, h, h']

/-- The name of a type is that of its first segment. -/
theorem named?_of_segments {t : TypeExpr} {head : Segment} {inner : List Segment}
    (h : t.segments = head :: inner) : ∃ type, t.named? = some type ∧ type.name = head.name := by
  obtain ⟨shape, generics, attributes, isInout, label⟩ := t
  match shape with
  | .named ⟨name, none⟩ => exact ⟨_, rfl, congrArg Segment.name (List.cons.inj h).1⟩
  | .named ⟨name, some u⟩ => exact ⟨_, rfl, congrArg Segment.name (List.cons.inj h).1⟩

/-- The path of a type with inner types is longer than its first name. -/
theorem path_eq_head_iff {t : TypeExpr} {head : Segment} {inner : List Segment}
    (h : t.segments = head :: inner) : t.path = head.name ↔ inner = [] := by
  cases inner with
  | nil => simp [TypeExpr.path, h]
  | cons next inner =>
      have hpath : t.path = head.name ++ "." ++ ".".intercalate ((next :: inner).map (·.name)) := by
        simp [TypeExpr.path, h]
      refine iff_of_false (fun hhead => ?_) (by simp)
      have hlength := congrArg String.length (hpath.symm.trans hhead)
      have hdot : ".".length = 1 := rfl
      rw [String.length_append, String.length_append, hdot] at hlength
      omega

/-- A method is filed by the first name of its receiver. By the whole path of the receiver it is
filed just if the receiver has no inner types, or the owner is named by neither of the two. -/
theorem destination_of_receiver {f : FunctionDecl} {receiver parameters returns : TypeExpr}
    {throws : Bool} (hsignature : f.signature = .uncurried receiver parameters returns throws)
    {head : Segment} {inner : List Segment} (hreceiver : receiver.segments = head :: inner)
    (owner : NominalName) (isDescriptor : Bool) :
    Destination.of owner f isDescriptor = .ofMethodOn owner isDescriptor head.name ∧
    (Destination.of owner f isDescriptor = .ofMethodOn owner isDescriptor receiver.path ↔
      inner = [] ∨ owner.fullName ≠ head.name ∧ owner.fullName ≠ receiver.path) := by
  have hfirst : Destination.of owner f isDescriptor = .ofMethodOn owner isDescriptor head.name := by
    obtain ⟨type, hnamed, hname⟩ := named?_of_segments hreceiver
    simp [Destination.of, hsignature, Signature.isMethodOf, hnamed, hname, Destination.ofMethodOn]
  refine ⟨hfirst, ?_⟩
  rw [hfirst, ofMethodOn_eq_iff, ← path_eq_head_iff hreceiver]
  constructor
  · intro hboth
    by_cases howner : owner.fullName = head.name
    · exact .inl ((hboth.1 howner.symm).trans howner)
    · exact .inr ⟨howner, fun hpath => howner (hboth.2 hpath.symm).symm⟩
  · rintro (hpath | ⟨hhead, hpath⟩)
    · rw [hpath]
    · exact iff_of_false hhead.symm hpath.symm

theorem destination_of_receiver_inner :
    let receiver := (TypeExpr.generic "M.Outer" [.named "T"]).withInner (.named "Inner")
    let f := Sample.function "M" "Outer" "foo" "s" (.uncurried receiver .unit .unit false)
    let outer : NominalName := ⟨"M", ["Outer"], .classType⟩
    let inner : NominalName := ⟨"M", ["Outer", "Inner"], .classType⟩
    receiver.render = "M.Outer<T>.Inner" ∧ receiver.path = inner.fullName ∧
      Destination.of outer f false = .methods ∧ Destination.of inner f false = .unknown ∧
      Destination.of inner f false ≠ .ofMethodOn inner false receiver.path := by
  intro receiver f outer inner
  have hpath : receiver.path = inner.fullName := by decide +kernel
  have hsignature : f.signature = .uncurried receiver .unit .unit false := rfl
  have hsegments : receiver.segments = [⟨"M.Outer", [.named "T"]⟩, ⟨"Inner", []⟩] := rfl
  have hfiled (owner : NominalName) := destination_of_receiver hsignature hsegments owner false
  refine ⟨by decide +kernel, hpath, (hfiled outer).1, (hfiled inner).1, fun hinner => ?_⟩
  rcases (hfiled inner).2.1 hinner with h | ⟨-, h⟩
  · exact absurd h (by simp)
  · exact h hpath.symm

end SwiftSurface
