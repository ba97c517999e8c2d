import Mathlib.Data.List.Find
import SwiftSurface.Proofs.Inventory.Containers
import SwiftSurface.Proofs.Inventory.Repeats

/-!
# Static functions of one callable

To a caller a canonical static function and its thunks are one thing, a `Callable`. Functions of
different callables share the list of an overload set, but they do not meet there: what a run leaves
of a callable is what the run of its own functions leaves (`entries_addAll`), and each of them is
refused just if it is in that run (`rejection_add`).

So whatever depends on the order in which thunks and canonical functions come is a matter of runs of
one callable.
-/

namespace SwiftSurface

/-! ## Callables -/

/-- What a static function and its thunks have in common: the owner, the name, and the signature
with its types compared as types. -/
structure Callable where
  owner : Option NominalName
  name : String
  parameters : TypeExpr
  returns : TypeExpr
  throws : Bool
deriving DecidableEq

namespace FunctionDecl

/-- The callable that a static function or thunk is. -/
def callable? (f : FunctionDecl) : Option Callable :=
  f.signature.static?.map fun s =>
    { owner := f.owner
      name := f.name
      parameters := s.parameters.erase
      returns := s.returns.erase
      throws := s.throws }

variable {f g : FunctionDecl} {k : Callable}

theorem isSome_callable? (f : FunctionDecl) : f.callable?.isSome = f.isStatic := by
  simp [callable?, isStatic]

theorem isSome_toThunk? (f : FunctionDecl) : f.toThunk?.isSome = f.isStatic := by
  simp [toThunk?, isStatic]

theorem name_of_callable? (h : f.callable? = some k) : f.name = k.name := by
  obtain ⟨s, -, rfl⟩ := Option.map_eq_some_iff.1 h
  rfl

@[simp] theorem callable?_withThunk (f : FunctionDecl) (thunk : Option Thunk) :
    (f.withThunk thunk).callable? = f.callable? := by
  cases hf : f.signature <;> simp [withThunk, callable?, Signature.static?, hf]

/-- Counterparts are the functions of one callable of which just one is a thunk. -/
theorem isCounterpartOf_iff (hf : f.callable? = some k) :
    g.isCounterpartOf f ↔ g.callable? = some k ∧ g.isThunk ≠ f.isThunk := by
  obtain ⟨s, hs, rfl⟩ := Option.map_eq_some_iff.1 hf
  cases hfsig : f.signature <;> cases hgsig : g.signature <;>
    simp_all [Signature.static?, isCounterpartOf, callable?, isThunk, StaticSignature.pairsWith,
      TypeExpr.same]
  case static.static =>
    grind

/-- In these declarations functions of one mangled name are of one callable. -/
def NamesCallables (fs : List FunctionDecl) : Prop :=
  ∀ f ∈ fs, ∀ g ∈ fs, f.mangledName = g.mangledName → f.callable? = g.callable?

theorem Identified.namesCallables {fs : List FunctionDecl} (h : Identified fs) :
    NamesCallables fs := by
  intro f hf g hg hmangled
  obtain ⟨howner, hname, herase⟩ := h f hf g hg hmangled
  cases hfsig : f.signature <;> cases hgsig : g.signature <;>
    simp_all [Signature.erase, callable?, Signature.static?]
  case static.static =>
    obtain ⟨hparameters, hreturns, hthrows, -⟩ := StaticSignature.of_erase_eq herase
    simp [hparameters, hreturns, hthrows]

end FunctionDecl

open FunctionDecl

/-! ## One callable in an overload set -/

namespace OverloadSet

variable {set : OverloadSet} {f : FunctionDecl} {k : Callable} {mangledName : String}
  {new : FunctionDecl} {fs : List FunctionDecl}

/-- The functions of this callable, in their order. -/
def only (set : OverloadSet) (k : Callable) : OverloadSet :=
  { set with functions := set.functions.filter (·.callable? = some k) }

theorem filter_replaceFirst (p : FunctionDecl → Bool)
    (hname : ∀ g ∈ fs, g.mangledName = mangledName → p g) (hnew : p new) :
    (replaceFirst mangledName new fs).filter p = replaceFirst mangledName new (fs.filter p) := by
  induction fs with
  | nil => rfl
  | cons g rest ih =>
      have hrest := ih fun x hx => hname x (List.mem_cons_of_mem _ hx)
      by_cases hg : g.mangledName = mangledName
      · simp [replaceFirst, hg, hnew, hname g (by simp) hg]
      · cases hp : p g <;> simp [replaceFirst, hg, hp, hrest]

theorem filter_replaceFirst_of_not (p : FunctionDecl → Bool)
    (hname : ∀ g ∈ fs, g.mangledName = mangledName → p g = false) (hnew : p new = false) :
    (replaceFirst mangledName new fs).filter p = fs.filter p := by
  induction fs with
  | nil => rfl
  | cons g rest ih =>
      have hrest := ih fun x hx => hname x (List.mem_cons_of_mem _ hx)
      by_cases hg : g.mangledName = mangledName
      · simp [replaceFirst, hg, hnew, hname g (by simp) hg]
      · simp [replaceFirst, hg, List.filter_cons, hrest]

/-- The functions of one mangled name are all of the callable or all of another one, so the first of
them is found in either list. -/
theorem find?_only (h : ∀ g ∈ set.functions, g.mangledName = mangledName → g.callable? = some k) :
    (set.only k).find? mangledName = set.find? mangledName := by
  rw [find?, find?, only, List.find?_filter]
  refine List.find?_congr fun g hg => ?_
  by_cases hname : g.mangledName = mangledName
  · simp [hname, h g hg hname]
  · simp [hname]

/-- The counterpart of a function is looked for among the functions of its callable. -/
theorem find?_isCounterpartOf_only (hf : f.callable? = some k) :
    (set.only k).functions.find? (·.isCounterpartOf f) =
      set.functions.find? (·.isCounterpartOf f) := by
  rw [only, List.find?_filter]
  refine List.find?_congr fun g _ => ?_
  cases hg : g.isCounterpartOf f with
  | false => simp
  | true => simp [((isCounterpartOf_iff hf).1 hg).1]

/-- Filing a static function does to the functions of its callable what it does to them alone. -/
theorem addStatic_only (hf : f.callable? = some k)
    (hnames : NamesCallables (set.functions ++ [f])) :
    ((set.only k).addStatic f).after = (set.addStatic f).after.only k ∧
      ((set.only k).addStatic f).rejection = (set.addStatic f).rejection := by
  have hsame {g : FunctionDecl} (hg : g ∈ set.functions)
      (hmangled : g.mangledName = f.mangledName) : g.callable? = some k := by
    rw [hnames g (by simp [hg]) f (by simp) hmangled, hf]
  rw [addStatic, addStatic, find?_isCounterpartOf_only hf]
  cases hfind : set.functions.find? (·.isCounterpartOf f) with
  | none =>
      simp only [add, find?_only fun g hg hmangled => hsame hg hmangled]
      split
      · exact ⟨rfl, rfl⟩
      · simp [only, hf]
  | some c =>
      have hmem := List.mem_of_find?_eq_some hfind
      have hc : c.callable? = some k :=
        ((isCounterpartOf_iff hf).1 (by simpa using List.find?_some hfind)).1
      have hcnames : ∀ g ∈ set.functions, g.mangledName = c.mangledName → g.callable? = some k := by
        intro g hg hmangled
        rw [hnames g (by simp [hg]) c (by simp [hmem]) hmangled, hc]
      have hreplace (new : FunctionDecl) (hnew : new.callable? = some k) :
          (set.only k).replace c.mangledName new = (set.replace c.mangledName new).only k := by
        simp only [replace, only]
        rw [filter_replaceFirst _ (by simpa using hcnames) (by simpa using hnew)]
      dsimp only
      split
      · simp [hreplace, hf]
      · rw [find?_only hcnames]
        split
        case h_1 => exact ⟨rfl, rfl⟩
        case h_2 canonical hcanonical =>
            have hcanonicalCallable : canonical.callable? = some k := by
              refine hcnames canonical (List.mem_of_find?_eq_some hcanonical) ?_
              simpa using List.find?_some hcanonical
            split
            · exact ⟨rfl, rfl⟩
            · split
              · exact ⟨rfl, rfl⟩
              · simp [hreplace, hcanonicalCallable]

/-- Filing a static function leaves the functions of other callables alone. -/
theorem addStatic_only_of_ne (hf : f.isStatic) (hne : f.callable? ≠ some k)
    (hnames : NamesCallables set.functions) : (set.addStatic f).after.only k = set.only k := by
  obtain ⟨k', hk'⟩ := Option.isSome_iff_exists.1 (f.isSome_callable?.trans hf)
  rw [addStatic]
  cases hfind : set.functions.find? (·.isCounterpartOf f) with
  | none =>
      simp only [add]
      split
      · rfl
      · simp [only, hne]
  | some c =>
      have hmem := List.mem_of_find?_eq_some hfind
      have hc : c.callable? = some k' :=
        ((isCounterpartOf_iff hk').1 (by simpa using List.find?_some hfind)).1
      have hcnames : ∀ g ∈ set.functions, g.mangledName = c.mangledName →
          g.callable? = f.callable? := by
        intro g hg hmangled
        rw [hnames g hg c hmem hmangled, hc, hk']
      have hreplace (new : FunctionDecl) (hnew : new.callable? = f.callable?) :
          (set.replace c.mangledName new).only k = set.only k := by
        simp only [replace, only]
        rw [filter_replaceFirst_of_not _ (fun g hg hmangled => ?_) (by simp [hnew, hne])]
        simp [hcnames g hg hmangled, hne]
      dsimp only
      split
      · exact hreplace _ (by simp)
      · split
        case h_1 => rfl
        case h_2 canonical hcanonical =>
            have hcanonicalCallable : canonical.callable? = f.callable? := by
              refine hcnames canonical (List.mem_of_find?_eq_some hcanonical) ?_
              simpa using List.find?_some hcanonical
            split
            · rfl
            · split
              · rfl
              · exact hreplace _ (by simp [hcanonicalCallable])

end OverloadSet

namespace FunctionTable

variable {t : FunctionTable} {f : FunctionDecl} {fs : List FunctionDecl} {k : Callable}

/-- The overload set of a name, which has no functions if it is not there. -/
def overloadsOf (t : FunctionTable) (name : String) : OverloadSet :=
  (t.overloads.get? name).getD (.empty name)

theorem functions_overloadsOf (t : FunctionTable) (name : String) :
    (t.overloadsOf name).functions = t.named name :=
  (t.named_eq_functions name).symm

theorem overloadsOf_addStatic (t : FunctionTable) (f : FunctionDecl) :
    (t.addStatic f).after.overloadsOf f.name = ((t.overloadsOf f.name).addStatic f).after ∧
      (t.addStatic f).rejection = ((t.overloadsOf f.name).addStatic f).rejection := by
  obtain ⟨hafter, hrejection⟩ := Filed.outcome_eq_iff.1 (t.outcome_addStatic f)
  simp [overloadsOf, hafter, hrejection, Table.fileAt, Table.get?_insert_self]

theorem overloadsOf_addStatic_of_ne {name : String} (h : f.name ≠ name) :
    (t.addStatic f).after.overloadsOf name = t.overloadsOf name := by
  obtain ⟨hafter, -⟩ := Filed.outcome_eq_iff.1 (t.outcome_addStatic f)
  simp [overloadsOf, hafter, Table.fileAt, Table.get?_insert_of_ne _ h]

/-- The functions of this callable, as an overload set of their own. -/
def entries (t : FunctionTable) (k : Callable) : OverloadSet :=
  (t.overloadsOf k.name).only k

theorem mem_entries {g : FunctionDecl} :
    g ∈ (t.entries k).functions ↔ g ∈ t.named k.name ∧ g.callable? = some k := by
  simp [entries, OverloadSet.only, functions_overloadsOf]

/-- What is held is of the callables that were filed. -/
theorem HoldsOnly.namesCallables (h : t.HoldsOnly fs) (hid : Identified (fs ++ [f])) :
    NamesCallables (t.named f.name ++ [f]) := by
  have hfiled : ∀ g ∈ t.named f.name ++ [f],
      ∃ g' ∈ fs ++ [f], g'.mangledName = g.mangledName ∧ g'.callable? = g.callable? := by
    intro g hg
    rcases List.mem_append.1 hg with hheld | hnew
    · obtain ⟨g', hg', -, -, thunk, rfl, -⟩ := h f.name g hheld
      exact ⟨g', List.mem_append_left _ hg', by simp, by simp⟩
    · exact ⟨g, List.mem_append_right _ hnew, rfl, rfl⟩
  intro g hg g' hg' hmangled
  obtain ⟨a, ha, haname, hacallable⟩ := hfiled g hg
  obtain ⟨b, hb, hbname, hbcallable⟩ := hfiled g' hg'
  rw [← hacallable, ← hbcallable]
  exact hid.namesCallables a ha b hb (haname.trans (hmangled.trans hbname.symm))

/-- Filing a static function changes the functions of its callable as if they were alone. -/
theorem entries_addStatic (hf : f.callable? = some k)
    (hnames : NamesCallables (t.named f.name ++ [f])) :
    (t.addStatic f).after.entries k = ((t.entries k).addStatic f).after ∧
      (t.addStatic f).rejection = ((t.entries k).addStatic f).rejection := by
  rw [← functions_overloadsOf] at hnames
  obtain ⟨hafter, hrejection⟩ := OverloadSet.addStatic_only hf hnames
  obtain ⟨hset, hrejected⟩ := t.overloadsOf_addStatic f
  rw [entries, entries, ← name_of_callable? hf, hset, hafter, hrejected, hrejection]
  exact ⟨rfl, rfl⟩

theorem entries_addStatic_of_ne (hf : f.isStatic) (hne : f.callable? ≠ some k)
    (hnames : NamesCallables (t.named f.name ++ [f])) :
    (t.addStatic f).after.entries k = t.entries k := by
  by_cases hname : f.name = k.name
  · rw [entries, entries, ← hname, (t.overloadsOf_addStatic f).1]
    refine OverloadSet.addStatic_only_of_ne hf hne fun g hg g' hg' => ?_
    rw [functions_overloadsOf] at hg hg'
    exact hnames g (List.mem_append_left _ hg) g' (List.mem_append_left _ hg')
  · rw [entries, entries, overloadsOf_addStatic_of_ne hname]

end FunctionTable

/-! ## Runs -/

namespace Callable

/-- What filing these functions in order leaves of a callable. -/
def resolve (k : Callable) (fs : List FunctionDecl) : OverloadSet :=
  fs.foldl (fun set f => (set.addStatic f).after) (.empty k.name)

@[simp] theorem resolve_concat (k : Callable) (fs : List FunctionDecl) (f : FunctionDecl) :
    k.resolve (fs ++ [f]) = ((k.resolve fs).addStatic f).after := by
  simp [resolve]

/-- The functions of this callable. -/
def among (k : Callable) (fs : List FunctionDecl) : List FunctionDecl :=
  fs.filter (·.callable? = some k)

end Callable

namespace TypeSurface

variable {name : NominalName} {ds : List Declaration}

/-- At the step of a run that files `f`, mangled names tell the callables of the functions of its
name. -/
theorem namesCallables_before (name : NominalName)
    (hid : Identified (ds.filterMap Declaration.static?))
    (hbare : ∀ f ∈ ds.filterMap Declaration.static?, f.thunk? = none)
    {before : List Declaration} {d : Declaration} {f : FunctionDecl} (hd : d.static? = some f)
    (hbefore : before ++ [d] <+: ds) :
    NamesCallables (((empty name).addAll before).staticFunctions.named f.name ++ [f]) := by
  obtain ⟨honly, hid'⟩ := staticFunctions_holdsOnly_before name hid hbare hd hbefore
  exact honly.namesCallables hid'

/-- **Callables do not meet.** What a run leaves of a callable is what its own functions leave. -/
theorem entries_addAll (name : NominalName) (k : Callable)
    (hid : Identified (ds.filterMap Declaration.static?))
    (hbare : ∀ f ∈ ds.filterMap Declaration.static?, f.thunk? = none) :
    ((empty name).addAll ds).staticFunctions.entries k =
      k.resolve (k.among (ds.filterMap Declaration.static?)) := by
  -- the run is followed step by step, each step inside the whole run
  suffices h : ∀ before, before <+: ds →
      ((empty name).addAll before).staticFunctions.entries k =
        k.resolve (k.among (before.filterMap Declaration.static?)) from h ds (List.prefix_refl ds)
  intro before hbefore
  induction before using List.reverseRecOn with
  | nil => rfl
  | append_singleton before d ih =>
      have hhere := ih ((List.prefix_append _ _).trans hbefore)
      rw [addAll_concat]
      cases hd : d.static? with
      | none => simpa [staticFunctions_add _ hd, hd] using hhere
      | some f =>
          have hnames := namesCallables_before name hid hbare hd hbefore
          rw [(add_of_static? _ hd).2]
          by_cases hf : f.callable? = some k
          · rw [(FunctionTable.entries_addStatic hf hnames).1, hhere]
            simp [Callable.among, hd, hf]
          · have hstatic := Declaration.isStatic_of_static? hd
            rw [FunctionTable.entries_addStatic_of_ne hstatic hf hnames, hhere]
            simp [Callable.among, hd, hf]

/-- A static function is refused just if it is among the functions of its callable alone. -/
theorem rejection_add (name : NominalName) {k : Callable}
    (hid : Identified (ds.filterMap Declaration.static?))
    (hbare : ∀ f ∈ ds.filterMap Declaration.static?, f.thunk? = none)
    {before : List Declaration} {d : Declaration} {f : FunctionDecl} (hd : d.static? = some f)
    (hf : f.callable? = some k) (hbefore : before ++ [d] <+: ds) :
    (((empty name).addAll before).add d).rejection =
      ((k.resolve (k.among (before.filterMap Declaration.static?))).addStatic f).rejection := by
  have hnames := namesCallables_before name hid hbare hd hbefore
  have hsub : before.filterMap Declaration.static? ⊆ ds.filterMap Declaration.static? :=
    (((List.prefix_append _ _).trans hbefore).filterMap _).subset
  rw [(add_of_static? _ hd).1, (FunctionTable.entries_addStatic hf hnames).2,
    entries_addAll name k (hid.of_subset hsub) fun g hg => hbare g (hsub hg)]

end TypeSurface

end SwiftSurface
