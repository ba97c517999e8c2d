import Mathlib.Data.List.Induction
import SwiftSurface.Declaration.Sample
import SwiftSurface.Proofs.Inventory.StaticFunctions

/-!
# Mangled names in the overload sets of static functions

`OverloadSet.add` lets a mangled name in once, but a static function is written over a waiting thunk
without that check. Of two thunks that wait only the first gives way to their canonical function;
when that function comes again it is written over the second one and is there twice. `Refiles` is
this one step, and no other breaks `NamesOnce` (`namesOnce_addStatic_iff`).

A static function that is held and comes again is refused just if its counterpart, if any is found,
has it as the linked thunk (`addStatic_of_held_iff`).
-/

namespace SwiftSurface

namespace FunctionTable

variable {t : FunctionTable} {f : FunctionDecl} {fs : List FunctionDecl}

/-! ## One step -/

/-- Is `f` a canonical function that is held already while a counterpart is found for it? -/
def Refiles (t : FunctionTable) (f : FunctionDecl) : Prop :=
  f.isThunk = false ∧ t.Holds f.mangledName ∧ (t.counterpart? f).isSome

theorem empty_namesOnce : FunctionTable.empty.NamesOnce := by
  intro name
  simp

/-- Only the functions of the filed function's name matter to `NamesOnce`. -/
theorem namesOnce_addStatic_iff_nodup (h : t.NamesOnce) :
    (t.addStatic f).after.NamesOnce ↔
      (((t.addStatic f).after.named f.name).map (·.mangledName)).Nodup := by
  constructor
  · intro honce
    exact honce f.name
  · intro hnodup name
    by_cases hname : f.name = name
    · exact hname ▸ hnodup
    · rw [named_addStatic_of_ne hname]
      exact h name

/-- The step that makes a mangled name occur twice is that a canonical function comes again while a
thunk still waits for it. -/
theorem namesOnce_addStatic_iff (honly : t.HoldsOnly fs)
    (hid : FunctionDecl.Identified (fs ++ [f])) (honce : t.NamesOnce) :
    (t.addStatic f).after.NamesOnce ↔ ¬ t.Refiles f := by
  rcases addStatic_cases (t := t) (f := f) (fun g hg => honly.isStatic hg) with
    ⟨hnone, -, hrefused⟩ | ⟨hnone, hfree, -, hnamed⟩ | ⟨c, hc, hthunk, -, hnamed⟩ |
    ⟨c, -, hc, hthunk, -, -, hrefused⟩ | ⟨c, g, hc, hthunk, hfind, -, -, hnamed⟩
  · rw [t.addStatic_keeps f (by simp [hrefused])]
    simp [Refiles, hnone, honce]
  · rw [namesOnce_addStatic_iff_nodup honce, hnamed, List.map_append, List.nodup_append]
    simpa [Refiles, hnone, honce f.name] using hfree
  · -- `f` is written over its thunk `c`: a mangled name less, and that of `f` more
    obtain ⟨hmem, hcounterpart⟩ := counterpart?_eq_some hc
    have hcanonical : f.isThunk = false := by
      simpa [hthunk] using FunctionDecl.isThunk_of_isCounterpartOf hcounterpart
    have hne : f.mangledName ≠ c.mangledName := by
      intro heq
      obtain ⟨-, hsame⟩ := honly.identifies hid hmem heq.symm
      simp [hthunk, hcanonical] at hsame
    rw [namesOnce_addStatic_iff_nodup honce, hnamed,
      OverloadSet.nodup_replaceFirst_iff (honce f.name) (List.mem_map.2 ⟨c, hmem, rfl⟩)
        (by simpa using hne)]
    simp [Refiles, hcanonical, hc, honly.holds_iff hid]
  · have hcanonical := FunctionDecl.isThunk_of_isCounterpartOf (counterpart?_eq_some hc).2
    rw [t.addStatic_keeps f (by simp [hrefused])]
    simp_all [Refiles]
  · -- a thunk is linked in place: the mangled names stay as they are
    have hcanonical := FunctionDecl.isThunk_of_isCounterpartOf (counterpart?_eq_some hc).2
    have hmangled : g.mangledName = c.mangledName := by
      rw [find?_eq_find?_named] at hfind
      simpa using List.find?_some hfind
    rw [namesOnce_addStatic_iff_nodup honce, hnamed,
      OverloadSet.map_mangledName_replaceFirst_self (by simpa using hmangled)]
    simp_all [Refiles, honce f.name]

/-- A held static function that comes again is refused and changes nothing, just if its counterpart
carries it as the linked thunk or there is none. -/
theorem addStatic_of_held_iff (honly : t.HoldsOnly fs)
    (hid : FunctionDecl.Identified (fs ++ [f])) (hheld : t.Holds f.mangledName) :
    ((t.addStatic f).rejection = some (repeated f) ∧ (t.addStatic f).after = t) ↔
      ∀ c, t.counterpart? f = some c → c.thunk?.map (·.mangledName) = some f.mangledName := by
  have hid' : FunctionDecl.Identified fs :=
    fun a ha b hb => hid a (List.mem_append_left _ ha) b (List.mem_append_left _ hb)
  rcases addStatic_cases (t := t) (f := f) (fun g hg => honly.isStatic hg) with
    ⟨hnone, -, hrefused⟩ | ⟨-, hfree, -⟩ | ⟨c, hc, hthunk, haccepted, -⟩ |
    ⟨c, g, hc, -, hfind, hlinked, hrefused⟩ | ⟨c, g, hc, -, hfind, hlinked, haccepted, -⟩
  · simp [hnone, hrefused, t.addStatic_keeps f (by simp [hrefused])]
  · exact absurd ((honly.holds_iff hid).1 hheld) hfree
  · have hbare := honly.thunk?_of_isThunk (counterpart?_eq_some hc).1 hthunk
    simp [haccepted, hc, hbare]
  · obtain rfl := honly.find?_counterpart hid' hc hfind
    simpa [hrefused, t.addStatic_keeps f (by simp [hrefused]), hc] using hlinked
  · obtain rfl := honly.find?_counterpart hid' hc hfind
    simpa [haccepted, hc] using hlinked

end FunctionTable

/-! ## Runs -/

/-- The static function that is declared, if one is. -/
def Declaration.static? (d : Declaration) : Option FunctionDecl :=
  d.function?.filter (·.isStatic)

theorem Declaration.isStatic_of_static? {d : Declaration} {f : FunctionDecl}
    (h : d.static? = some f) : f.isStatic :=
  (Option.filter_eq_some_iff.1 h).2

theorem FunctionDecl.Identified.of_subset {fs gs : List FunctionDecl}
    (h : FunctionDecl.Identified gs) (hsub : fs ⊆ gs) : FunctionDecl.Identified fs :=
  fun f hf g hg => h f (hsub hf) g (hsub hg)

namespace TypeSurface

/-- Just the static functions are routed to the static functions. -/
theorem destination_eq_staticFunctions_iff (owner : NominalName) (f : FunctionDecl)
    (isDescriptor : Bool) :
    Destination.of owner f isDescriptor = .staticFunctions ↔ f.isStatic := by
  rw [Destination.of]
  cases hf : f.signature with
  | uncurried receiver parameters returns throws =>
      simp only [FunctionDecl.isStatic, Signature.static?, hf]
      cases isDescriptor <;> split <;> simp
  | constructor name parameters returns throws | destructor name =>
      simp only [FunctionDecl.isStatic, Signature.static?, hf]
      split <;> simp
  | property s =>
      simp only [FunctionDecl.isStatic, Signature.static?, hf]
      split <;> simp
  | _ => simp [FunctionDecl.isStatic, Signature.static?, hf]

theorem staticFunctions_addAt (c : TypeSurface) (f : FunctionDecl) (isDescriptor : Bool)
    {destination : Destination} (h : destination ≠ .staticFunctions) :
    (c.addAt f isDescriptor destination).after.staticFunctions = c.staticFunctions := by
  cases destination with
  | staticFunctions => exact absurd rfl h
  | classConstructor =>
      rw [addAt, addClassConstructor]
      split <;> rfl
  | subscripts isPrivate => cases isPrivate <;> rfl
  | property group accessor => cases group <;> rfl
  | witnessTable =>
      rw [addAt]
      split <;> rfl
  | _ => rfl

/-- A static function is filed with the static functions, whether it is declared or describes a
method. -/
theorem add_of_static? (c : TypeSurface) {d : Declaration} {f : FunctionDecl}
    (h : d.static? = some f) :
    (c.add d).rejection = (c.staticFunctions.addStatic f).rejection ∧
      (c.add d).after = { c with staticFunctions := (c.staticFunctions.addStatic f).after } := by
  have hstatic := Declaration.isStatic_of_static? h
  have hat (isDescriptor : Bool) : Destination.of c.name f isDescriptor = .staticFunctions :=
    (destination_eq_staticFunctions_iff c.name f isDescriptor).2 hstatic
  cases d with
  | function g | methodDescriptor g =>
      obtain rfl : g = f := Option.some.inj (Option.filter_eq_some_iff.1 h).1
      simp [add, addFunction, hat, addAt]
  | _ => simp [Declaration.static?, Declaration.function?] at h

/-- Anything else leaves the static functions alone. -/
theorem staticFunctions_add (c : TypeSurface) {d : Declaration} (h : d.static? = none) :
    (c.add d).after.staticFunctions = c.staticFunctions := by
  cases d with
  | function f | methodDescriptor f =>
      refine staticFunctions_addAt c f _ fun hat => ?_
      have hstatic := (destination_eq_staticFunctions_iff c.name f _).1 hat
      simp [Declaration.static?, Declaration.function?, hstatic] at h
  | record kind r =>
      rw [add, addRecord]
      split
      · rfl
      · cases kind <;> rfl
  | _ => rfl

variable {name : NominalName} {ds : List Declaration}

/-- After a run the static functions are nothing but those that were filed. -/
theorem staticFunctions_holdsOnly
    (hid : FunctionDecl.Identified (ds.filterMap Declaration.static?))
    (hbare : ∀ f ∈ ds.filterMap Declaration.static?, f.thunk? = none) :
    ((empty name).addAll ds).staticFunctions.HoldsOnly (ds.filterMap Declaration.static?) := by
  induction ds using List.reverseRecOn with
  | nil => exact FunctionTable.empty_holdsOnly
  | append_singleton before d ih =>
      have hsub : before.filterMap Declaration.static? ⊆
          (before ++ [d]).filterMap Declaration.static? := by
        simp
      have hbefore := ih (hid.of_subset hsub) fun f hf => hbare f (hsub hf)
      rw [addAll_concat]
      cases hd : d.static? with
      | none => simpa [staticFunctions_add _ hd, hd] using hbefore
      | some f =>
          have hf : f ∈ (before ++ [d]).filterMap Declaration.static? := by simp [hd]
          rw [(add_of_static? _ hd).2, List.filterMap_append]
          simpa [hd] using hbefore.addStatic (hid.of_subset hsub)
            (Declaration.isStatic_of_static? hd) (hbare f hf)

/-- At the step of a run that files `f`, the table holds only what came before, and its mangled
names identify the functions up to `f`. -/
theorem staticFunctions_holdsOnly_before (name : NominalName)
    (hid : FunctionDecl.Identified (ds.filterMap Declaration.static?))
    (hbare : ∀ f ∈ ds.filterMap Declaration.static?, f.thunk? = none)
    {before : List Declaration} {d : Declaration} {f : FunctionDecl} (hd : d.static? = some f)
    (hbefore : before ++ [d] <+: ds) :
    ((empty name).addAll before).staticFunctions.HoldsOnly
        (before.filterMap Declaration.static?) ∧
      FunctionDecl.Identified (before.filterMap Declaration.static? ++ [f]) := by
  have hfiled : (before ++ [d]).filterMap Declaration.static? =
      before.filterMap Declaration.static? ++ [f] := by
    simp [hd]
  have hsub := (hbefore.filterMap Declaration.static?).subset
  rw [hfiled] at hsub
  have hid' := hid.of_subset hsub
  refine ⟨staticFunctions_holdsOnly (hid'.of_subset ?_) fun g hg => hbare g (hsub ?_), hid'⟩
  · exact List.subset_append_left _ _
  · exact List.mem_append_left _ hg

/-- In every run where mangled names identify the static functions and none comes with a thunk
linked to it, the overload sets of static functions hold each mangled name once at every point,
just if no canonical function comes again while a thunk waits for it; and a held function that
comes again is refused and changes nothing, just if the counterpart found for it, if there is one,
carries it as the linked thunk. -/
theorem staticFunctions_namesOnce_iff (name : NominalName) (ds : List Declaration)
    (hid : FunctionDecl.Identified (ds.filterMap Declaration.static?))
    (hbare : ∀ f ∈ ds.filterMap Declaration.static?, f.thunk? = none) :
    ((∀ before, before <+: ds → ((empty name).addAll before).staticFunctions.NamesOnce) ↔
      ∀ before d f, before ++ [d] <+: ds → d.static? = some f →
        ¬ ((empty name).addAll before).staticFunctions.Refiles f) ∧
    ∀ before d f, before ++ [d] <+: ds → d.static? = some f →
      ((empty name).addAll before).staticFunctions.Holds f.mangledName →
      (((((empty name).addAll before).add d).rejection = some (FunctionTable.repeated f) ∧
          (((empty name).addAll before).add d).after = (empty name).addAll before) ↔
        ∀ c, ((empty name).addAll before).staticFunctions.counterpart? f = some c →
          c.thunk?.map (·.mangledName) = some f.mangledName) := by
  refine ⟨⟨fun honce before d f hbefore hd => ?_, fun hnone before hbefore => ?_⟩,
    fun before d f hbefore hd hheld => ?_⟩
  · obtain ⟨honly, hid'⟩ := staticFunctions_holdsOnly_before name hid hbare hd hbefore
    have hafter := honce (before ++ [d]) hbefore
    rw [addAll_concat, (add_of_static? _ hd).2] at hafter
    have hhere := honce before ((List.prefix_append _ _).trans hbefore)
    exact (FunctionTable.namesOnce_addStatic_iff honly hid' hhere).1 hafter
  · -- by induction on the run: every step so far kept the mangled names apart
    induction before using List.reverseRecOn with
    | nil => exact FunctionTable.empty_namesOnce
    | append_singleton before d ih =>
        have hhere := ih ((List.prefix_append _ _).trans hbefore)
        rw [addAll_concat]
        cases hd : d.static? with
        | none => rwa [staticFunctions_add _ hd]
        | some f =>
            obtain ⟨honly, hid'⟩ :=
              staticFunctions_holdsOnly_before name hid hbare hd hbefore
            rw [(add_of_static? _ hd).2]
            exact (FunctionTable.namesOnce_addStatic_iff honly hid' hhere).2
              (hnone before d f hbefore hd)
  · obtain ⟨honly, hid'⟩ := staticFunctions_holdsOnly_before name hid hbare hd hbefore
    obtain ⟨hrejection, hafter⟩ := add_of_static? ((empty name).addAll before) hd
    rw [← FunctionTable.addStatic_of_held_iff honly hid' hheld, hrejection, hafter]
    refine and_congr_right fun _ => ⟨fun hkeep => ?_, fun hkeep => by rw [hkeep]⟩
    exact congrArg TypeSurface.staticFunctions hkeep

/-- Of two thunks that wait for a function only one is linked when it comes. When it comes again it
takes the place of the other one and is held twice. -/
theorem staticFunctions_namesOnce_iff_two_thunks :
    let f := Sample.staticFunction "M" "Foo" "baz" "f" false
    let ds := [Sample.staticFunction "M" "Foo" "baz" "t1" true,
      Sample.staticFunction "M" "Foo" "baz" "t2" true, f, f].map Declaration.function
    FunctionDecl.Identified (ds.filterMap Declaration.static?) ∧
      (∀ g ∈ ds.filterMap Declaration.static?, g.thunk? = none) ∧
      ¬ ∀ before, before <+: ds →
        ((empty ⟨"M", ["Foo"], .classType⟩).addAll before).staticFunctions.NamesOnce := by
  intro f ds
  have hid : FunctionDecl.Identified (ds.filterMap Declaration.static?) := by
    unfold FunctionDecl.Identified
    decide
  have hbare : ∀ g ∈ ds.filterMap Declaration.static?, g.thunk? = none := by decide
  refine ⟨hid, hbare, fun honce => ?_⟩
  have hstep := (staticFunctions_namesOnce_iff _ ds hid hbare).1.1 honce (ds.take 3)
    (.function f) f (List.prefix_refl _) rfl
  exact hstep ⟨rfl, ⟨"baz", by decide⟩, by decide⟩

end TypeSurface

end SwiftSurface
