import SwiftSurface.Proofs.Inventory.Repeats
import SwiftSurface.Proofs.Inventory.Symbols

/-!
# No declaration is lost

What an inventory holds after a run from nothing, together with the linked thunks that gave way to
other thunks on the way, is what the run accepted (`symbols_addAll_empty`). Only static functions
need an argument. When a canonical function is written over its thunk, the thunk moves from the
entry into the link; when a thunk is linked, the one that was linked before gives way. In both cases
what is written over must be the very function that was found, which holds as long as mangled names
identify the static functions.

The thunks that give way are read off the states before and after a step (`displacedThunks`), not
off the function that decides it.
-/

namespace SwiftSurface

/-! ## Thunks that give way -/

/-- The thunk linked to `before`, if `after` in its position has another thunk linked to it. -/
def displacedThunk? (before after : FunctionDecl) : Option Thunk :=
  match before.thunk?, after.thunk? with
  | some old, some new => if old.mangledName = new.mangledName then none else some old
  | _, _ => none

/-- The thunks that are linked in `before` and gave way to another one in `after`, position by
position. -/
def displacedThunks (before after : List FunctionDecl) : List Thunk :=
  (before.zip after).filterMap fun (f, g) => displacedThunk? f g

@[simp] theorem displacedThunk?_self (f : FunctionDecl) : displacedThunk? f f = none := by
  unfold displacedThunk?
  cases f.thunk? <;> simp

/-- Where functions are appended no thunk gives way. -/
@[simp] theorem displacedThunks_append (fs gs : List FunctionDecl) :
    displacedThunks fs (fs ++ gs) = [] := by
  induction fs with
  | nil => simp [displacedThunks]
  | cons f fs ih => simpa [displacedThunks] using ih

@[simp] theorem displacedThunks_self (fs : List FunctionDecl) : displacedThunks fs fs = [] := by
  simpa using displacedThunks_append fs []

namespace OverloadSet

variable {mangledName : String} {fs : List FunctionDecl} {g : FunctionDecl}

/-- Writing over a function changes the symbols by those of the two functions. -/
theorem functionSymbols_replaceFirst (new : FunctionDecl)
    (h : fs.find? (·.mangledName == mangledName) = some g) :
    functionSymbols (replaceFirst mangledName new fs) + g.symbols =
      functionSymbols fs + new.symbols := by
  induction fs with
  | nil => simp at h
  | cons f rest ih =>
      rw [List.find?_cons] at h
      cases hname : f.mangledName == mangledName with
      | true =>
          obtain rfl : f = g := by simpa [hname] using h
          simp only [replaceFirst, hname, if_true, functionSymbols_cons]
          rw [add_right_comm, add_comm new.symbols, add_right_comm]
      | false =>
          have hrest := ih (by simpa [hname] using h)
          simp only [replaceFirst, hname, Bool.false_eq_true, if_false, functionSymbols_cons,
            add_assoc, hrest]

/-- Only the function that is written over can lose its thunk. -/
theorem displacedThunks_replaceFirst (new : FunctionDecl)
    (h : fs.find? (·.mangledName == mangledName) = some g) :
    displacedThunks fs (replaceFirst mangledName new fs) = (displacedThunk? g new).toList := by
  induction fs with
  | nil => simp at h
  | cons f rest ih =>
      rw [List.find?_cons] at h
      cases hname : f.mangledName == mangledName with
      | true =>
          obtain rfl : f = g := by simpa [hname] using h
          have hrest := displacedThunks_self rest
          unfold displacedThunks at hrest ⊢
          simp only [replaceFirst, hname, if_true, List.zip_cons_cons, List.filterMap_cons, hrest]
          cases displacedThunk? f new <;> rfl
      | false =>
          have hrest := ih (by simpa [hname] using h)
          rw [← hrest]
          simp [displacedThunks, replaceFirst, hname]

end OverloadSet

/-! ## Static functions -/

namespace FunctionDecl

variable {f : FunctionDecl}

theorem symbols_of_bare (h : f.thunk? = none) : f.symbols = {f.symbol} := by
  simp [symbols, h]

/-- The thunk that a static function becomes has its symbol. -/
theorem toThunk?_eq_some (h : f.isStatic) :
    ∃ thunk, f.toThunk? = some thunk ∧ thunk.symbol = f.symbol ∧
      thunk.mangledName = f.mangledName := by
  obtain ⟨s, hs⟩ := Option.isSome_iff_exists.1 h
  exact ⟨_, by rw [toThunk?, hs]; rfl, rfl, rfl⟩

@[simp] theorem symbol_withThunk (f : FunctionDecl) (thunk : Option Thunk) :
    (f.withThunk thunk).symbol = f.symbol := by
  unfold withThunk symbol
  split <;> rfl

theorem symbols_withThunk (h : f.isStatic) (thunk : Thunk) :
    (f.withThunk (some thunk)).symbols = {f.symbol} + {thunk.symbol} := by
  simp [symbols, h]

end FunctionDecl

namespace FunctionTable

variable {t : FunctionTable} {f : FunctionDecl} {fs : List FunctionDecl}

/-- Filing a static function changes the symbols of a table by those of the functions of its
name. -/
theorem symbols_addStatic (t : FunctionTable) (f : FunctionDecl) :
    (t.addStatic f).after.symbols + functionSymbols (t.named f.name) =
      t.symbols + functionSymbols ((t.addStatic f).after.named f.name) := by
  obtain ⟨hafter, -⟩ := Filed.outcome_eq_iff.1 (t.outcome_addStatic f)
  simp only [Table.fileAt, Filed.after_within] at hafter
  rw [hafter, named_insert, if_pos rfl, named_eq_functions]
  have hinsert := t.overloads.total_insert f.name
    ((((t.overloads.get? f.name).getD (.empty f.name)).addStatic f).after) OverloadSet.symbols
  cases hget : t.overloads.get? f.name <;>
    simpa [symbols, hget, OverloadSet.symbols, OverloadSet.empty] using hinsert

/-- A static function is neither lost nor counted twice, and what gives way to it is the thunk that
was linked in its place. -/
theorem addStatic_balances (honly : t.HoldsOnly fs) (hid : FunctionDecl.Identified fs)
    (hf : f.isStatic) (hbare : f.thunk? = none) :
    (t.addStatic f).Balances symbols t
      ((displacedThunks (t.named f.name) ((t.addStatic f).after.named f.name)).map Thunk.symbol :
        List Symbol) f.symbols := by
  intro haccepted
  refine add_eq_add_of_part (t.symbols_addStatic f) ?_
  obtain ⟨thunk, hthunk, hsymbol, hname⟩ := FunctionDecl.toThunk?_eq_some hf
  rw [FunctionDecl.symbols_of_bare hbare]
  rcases addStatic_cases (t := t) (f := f) (fun g hg => honly.isStatic hg) with
    ⟨-, -, hrefused⟩ | ⟨-, -, -, hnamed⟩ | ⟨c, hc, hcthunk, -, hnamed⟩ |
    ⟨_, _, -, -, -, -, hrefused⟩ | ⟨c, g, hc, -, hfind, hother, -, hnamed⟩
  · simp [hrefused] at haccepted
  · simp [hnamed, FunctionDecl.symbols_of_bare hbare]
  · -- written over its thunk, which has no thunk of its own and becomes the link
    obtain ⟨hmem, -⟩ := counterpart?_eq_some hc
    obtain ⟨g, hfind⟩ := exists_find?_of_mem hmem
    obtain rfl := honly.find?_counterpart hid hc hfind
    obtain ⟨link, hlink, hlinkSymbol, -⟩ :=
      FunctionDecl.toThunk?_eq_some (honly.isStatic hmem)
    have hgbare := honly.thunk?_of_isThunk hmem hcthunk
    rw [find?_eq_find?_named] at hfind
    have hreplace := OverloadSet.functionSymbols_replaceFirst (f.withThunk (some link)) hfind
    rw [FunctionDecl.symbols_of_bare hgbare, FunctionDecl.symbols_withThunk hf, hlinkSymbol,
      ← add_assoc] at hreplace
    rw [hnamed, OverloadSet.displacedThunks_replaceFirst _ hfind, hlink]
    simpa [displacedThunk?, hgbare] using add_right_cancel hreplace
  · simp [hrefused] at haccepted
  · -- linked to `g` in place of the thunk that is linked there, if one is
    obtain ⟨hmem, -⟩ := counterpart?_eq_some hc
    obtain rfl := honly.find?_counterpart hid hc hfind
    have hgstatic := honly.isStatic hmem
    rw [find?_eq_find?_named] at hfind
    have hlost : displacedThunk? g (g.withThunk f.toThunk?) = g.thunk? := by
      rw [hthunk, displacedThunk?, FunctionDecl.thunk?_withThunk _ _ hgstatic]
      cases hlink : g.thunk? with
      | none => rfl
      | some old =>
          have hne : old.mangledName ≠ thunk.mangledName := by
            rw [hname]
            simpa [hlink] using hother
          simp [hne]
    have hreplace := OverloadSet.functionSymbols_replaceFirst (g.withThunk (some thunk)) hfind
    rw [FunctionDecl.symbols, FunctionDecl.symbols_withThunk hgstatic, hsymbol] at hreplace
    rw [hnamed, OverloadSet.displacedThunks_replaceFirst _ hfind, hlost, hthunk]
    refine add_right_cancel (b := {g.symbol}) ?_
    simpa only [add_assoc, add_comm, add_left_comm] using hreplace

end FunctionTable

/-! ## Types -/

theorem Declaration.symbols_of_bare {d : Declaration}
    (hbare : ∀ f, d.static? = some f → f.thunk? = none) : d.symbols = {d.symbol} := by
  cases d with
  | function f | methodDescriptor f =>
      refine FunctionDecl.symbols_of_bare ?_
      cases hf : f.isStatic with
      | true => exact hbare f (by simp [static?, function?, hf])
      | false => simp_all [FunctionDecl.isStatic, FunctionDecl.thunk?]
  | _ => rfl

namespace TypeSurface

variable {c : TypeSurface} {d : Declaration} {fs : List FunctionDecl}

/-- The static functions of the name of this declaration. -/
def siblings (c : TypeSurface) (d : Declaration) : List FunctionDecl :=
  match d.name? with
  | some name => c.staticFunctions.named name
  | none => []

theorem siblings_of_static? {f : FunctionDecl} (c : TypeSurface) (h : d.static? = some f) :
    c.siblings d = c.staticFunctions.named f.name := by
  cases d with
  | function g | methodDescriptor g =>
      obtain rfl : g = f := Option.some.inj (Option.filter_eq_some_iff.1 h).1
      rfl
  | _ => simp [Declaration.static?, Declaration.function?] at h

/-- The thunks that give way when this declaration is filed. -/
def displacedBy (c : TypeSurface) (d : Declaration) : List Thunk :=
  displacedThunks (c.siblings d) ((c.add d).after.siblings d)

/-- What is no static function displaces no thunk. -/
theorem displacedBy_of_static?_eq_none (c : TypeSurface) (h : d.static? = none) :
    c.displacedBy d = [] := by
  rw [displacedBy, siblings, siblings, staticFunctions_add c h]
  exact displacedThunks_self _

/-- Filing in a type neither loses the declaration nor counts it twice. -/
theorem add_balances (honly : c.staticFunctions.HoldsOnly fs) (hid : FunctionDecl.Identified fs)
    (hbare : ∀ f, d.static? = some f → f.thunk? = none) :
    (c.add d).Balances symbols c ((c.displacedBy d).map Thunk.symbol : List Symbol) d.symbols := by
  cases hd : d.static? with
  | some f =>
      obtain ⟨hrejection, hafter⟩ := add_of_static? c hd
      have hsymbols : d.symbols = f.symbols := by
        rw [Declaration.static?, Option.filter_eq_some_iff] at hd
        simp [Declaration.symbols, hd.1]
      have htable := (FunctionTable.addStatic_balances honly hid
        (Declaration.isStatic_of_static? hd) (hbare f hd)).within
        (c.symbols_withFunctions .staticFunctions)
      rw [displacedBy, siblings_of_static? _ hd, siblings_of_static? _ hd, hafter, hsymbols]
      refine htable.congr ?_
      rw [Filed.outcome_eq_iff]
      exact ⟨hafter, hrejection⟩
  | none =>
      rw [c.displacedBy_of_static?_eq_none hd]
      cases d with
      | function f | methodDescriptor f =>
          refine addAt_balances c f _ fun hat => ?_
          have hstatic := (destination_eq_staticFunctions_iff c.name f _).1 hat
          simp [Declaration.static?, Declaration.function?, hstatic] at hd
      | record kind r =>
          rw [add, addRecord]
          split
          case h_1 => exact Filed.refused_balances _
          case h_2 hfree =>
              intro _
              simp [symbols_withRecord r hfree]
      | _ =>
          intro _
          simp only [add, symbols, recordSymbols, record?, VariableTable.symbols_add,
            List.map_append, List.map_cons, List.map_nil, declarationSymbols_append,
            declarationSymbols_singleton, Multiset.coe_nil]
          abel

end TypeSurface

/-! ## Modules and inventories -/

/-- The static functions of the name of this declaration, in the type that owns it. -/
def Inventory.siblings (i : Inventory) (d : Declaration) : List FunctionDecl :=
  ((i.ownerOf? d).map (·.siblings d)).getD []

/-- The thunks that give way when this declaration is filed. -/
def Inventory.displacedBy (i : Inventory) (d : Declaration) : List Thunk :=
  displacedThunks (i.siblings d) ((i.add d).after.siblings d)

/-- The thunks that give way during a run, in order. -/
def Inventory.displaced (i : Inventory) : List Declaration → List Thunk
  | [] => []
  | d :: ds => i.displacedBy d ++ (i.add d).after.displaced ds

theorem ModuleSurface.symbols_withFamily (m : ModuleSurface) (kind : NominalKind)
    (types : Table String TypeSurface) :
    (m.withFamily kind types).symbols + (m.family kind).total TypeSurface.symbols =
      m.symbols + types.total TypeSurface.symbols := by
  cases kind <;> simp only [symbols, withFamily, family] <;> abel

/-- A declaration without an owner is held by the module. -/
theorem ModuleSurface.addFree_balances (m : ModuleSurface) (d : Declaration) :
    (m.addFree d).Balances symbols m 0 d.symbols := by
  cases d with
  | function f =>
      refine (m.functions.add_balances f).within fun t => ?_
      simp only [symbols]
      abel
  | _ =>
      intro _
      simp only [addFree, symbols, VariableTable.symbols_add, declarationSymbols_append,
        declarationSymbols_singleton, add_zero]
      abel

namespace Inventory

variable {i : Inventory} {d : Declaration} {ds : List Declaration} {fs : List FunctionDecl}
  {owner : NominalName}

/-- A type that is not there has no static functions, just as contents that were just made. -/
theorem siblings_of_owner (howner : d.owner = some owner) :
    i.siblings d = ((i.moduleOrMade d).ownerOrMade owner).siblings d := by
  have hempty : (TypeSurface.empty owner).siblings d = [] := by
    unfold TypeSurface.siblings
    cases d.name? <;> rfl
  unfold siblings ownerOf? moduleOrMade ModuleSurface.ownerOf? ModuleSurface.ownerOrMade
  cases hmodule : i.modules.get? d.module with
  | none =>
      have hget : (ModuleSurface.family { name := d.module } owner.kind).get? owner.fullName =
          none := by
        cases owner.kind <;> rfl
      simp [hget, hempty]
  | some m => cases hget : (m.family owner.kind).get? owner.fullName <;> simp [howner, hget, hempty]

theorem displacedBy_of_owner (howner : d.owner = some owner) :
    i.displacedBy d = ((i.moduleOrMade d).ownerOrMade owner).displacedBy d := by
  have hafter : (i.add d).after.siblings d =
      (((i.moduleOrMade d).ownerOrMade owner).add d).after.siblings d := by
    simp only [siblings, ownerOf?, get?_module_add, Option.bind_some,
      ModuleSurface.ownerOf?_add howner, Option.map_some, Option.getD_some]
  rw [displacedBy, siblings_of_owner howner, hafter]
  rfl

theorem displacedBy_of_free (howner : d.owner = none) : i.displacedBy d = [] := by
  have hnone (j : Inventory) : j.siblings d = [] := by
    cases hmodule : j.modules.get? d.module <;>
      simp [siblings, ownerOf?, ModuleSurface.ownerOf?, howner, hmodule]
  rw [displacedBy, hnone i, hnone (i.add d).after]
  rfl

/-- Do all types hold no static functions but these, with a thunk linked to them or not? -/
def HoldsOnlyStatic (i : Inventory) (fs : List FunctionDecl) : Prop :=
  i.Every fun _ c => c.staticFunctions.HoldsOnly fs

/-- Filing a declaration neither loses it nor counts it twice, and no symbol leaves but that of the
thunk that gives way. -/
theorem add_balances (honly : i.HoldsOnlyStatic fs) (hid : FunctionDecl.Identified fs)
    (hbare : ∀ f, d.static? = some f → f.thunk? = none) :
    (i.add d).Balances symbols i ((i.displacedBy d).map Thunk.symbol : List Symbol) d.symbols := by
  suffices hmodule : ((i.moduleOrMade d).add d).Balances ModuleSurface.symbols (i.moduleOrMade d)
      ((i.displacedBy d).map Thunk.symbol : List Symbol) d.symbols by
    have hmodules : (i.modules.fileAt d.module { name := d.module } (·.add d)).Balances
        (Table.total · ModuleSurface.symbols) i.modules
        ((i.displacedBy d).map Thunk.symbol : List Symbol) d.symbols :=
      Filed.fileAt_balances hmodule rfl
    refine Filed.Balances.congr ?_ (i.outcome_add d)
    exact hmodules.within fun _ => add_comm _ _
  cases howner : d.owner with
  | some owner =>
      have hevery : (i.moduleOrMade d).Every fun _ c => c.staticFunctions.HoldsOnly fs := by
        unfold moduleOrMade
        cases hheld : i.modules.get? d.module with
        | none => exact ModuleSurface.made_every _
        | some m => exact honly _ _ hheld
      have htype : ((i.moduleOrMade d).ownerOrMade owner).staticFunctions.HoldsOnly fs := by
        refine hevery.getD owner fun name g hg => ?_
        simp [TypeSurface.empty] at hg
      have htypes : (((i.moduleOrMade d).family owner.kind).fileAt owner.fullName (.empty owner)
          (·.add d)).Balances (Table.total · TypeSurface.symbols)
          ((i.moduleOrMade d).family owner.kind)
          ((i.displacedBy d).map Thunk.symbol : List Symbol) d.symbols := by
        rw [displacedBy_of_owner howner]
        exact Filed.fileAt_balances (TypeSurface.add_balances htype hid hbare) rfl
      refine Filed.Balances.congr ?_ (ModuleSurface.add_of_owner howner)
      exact htypes.within ((i.moduleOrMade d).symbols_withFamily owner.kind)
  | none =>
      rw [displacedBy_of_free howner, ModuleSurface.add, howner]
      exact (i.moduleOrMade d).addFree_balances d

/-! ## Runs -/

theorem HoldsOnlyStatic.add (h : i.HoldsOnlyStatic fs) (hid : FunctionDecl.Identified fs)
    (hbare : ∀ f, d.static? = some f → f.thunk? = none) :
    (i.add d).after.HoldsOnlyStatic (fs ++ d.static?.toList) := by
  refine Inventory.Every.add h ?_ ?_ ?_
  · intro owner _ name g hg
    simp [TypeSurface.empty] at hg
  · intro _ c hc name g hg
    obtain ⟨f, hf, hrest⟩ := hc name g hg
    exact ⟨f, List.mem_append_left _ hf, hrest⟩
  · intro _ c hc
    cases hd : d.static? with
    | none => simpa [TypeSurface.staticFunctions_add c hd] using hc
    | some f =>
        rw [(TypeSurface.add_of_static? c hd).2]
        exact hc.addStatic hid (Declaration.isStatic_of_static? hd) (hbare f hd)

/-- The account of a run from a state that holds only what was filed before. -/
theorem symbols_addAll (honly : i.HoldsOnlyStatic fs)
    (hid : FunctionDecl.Identified (fs ++ ds.filterMap Declaration.static?))
    (hbare : ∀ f ∈ ds.filterMap Declaration.static?, f.thunk? = none) :
    (i.addAll ds).symbols + ((i.displaced ds).map Thunk.symbol : List Symbol) =
      i.symbols + ((i.accepted ds).map Declaration.symbol : List Symbol) := by
  induction ds generalizing i fs with
  | nil => rfl
  | cons d ds ih =>
      have hbareHead : ∀ f, d.static? = some f → f.thunk? = none := by
        intro f hf
        exact hbare f (by simp [hf])
      have hbareTail : ∀ f ∈ ds.filterMap Declaration.static?, f.thunk? = none := by
        intro f hf
        refine hbare f ?_
        cases hd : d.static? <;> simp_all
      have hfs : fs ++ (d :: ds).filterMap Declaration.static? =
          fs ++ d.static?.toList ++ ds.filterMap Declaration.static? := by
        cases hd : d.static? <;> simp [hd]
      rw [hfs] at hid
      have hidHere : FunctionDecl.Identified fs := hid.of_subset (by simp)
      have hrest := ih (honly.add hidHere hbareHead) hid hbareTail
      have hstep := i.add_balances honly hidHere hbareHead
      rw [addAll_cons, displaced, accepted]
      cases hrefused : (i.add d).rejection with
      | some refusal =>
          -- nothing changes, so no thunk gives way either
          have hkept := i.add_keeps d (by simp [hrefused])
          have hlost : i.displacedBy d = [] := by rw [displacedBy, hkept, displacedThunks_self]
          simpa [hlost, hkept] using hrest
      | none =>
          have hgained := hstep hrefused
          rw [Declaration.symbols_of_bare hbareHead] at hgained
          simp only [Option.isSome_none, Bool.false_eq_true, if_false, List.map_append,
            List.map_cons, ← Multiset.coe_add, ← Multiset.cons_coe, ← Multiset.singleton_add]
          calc _ = ((i.add d).after.addAll ds).symbols +
                (((i.add d).after.displaced ds).map Thunk.symbol : List Symbol) +
                ((i.displacedBy d).map Thunk.symbol : List Symbol) := by
                rw [add_comm (((i.displacedBy d).map Thunk.symbol : List Symbol) : Multiset Symbol),
                  add_assoc]
            _ = _ := by rw [hrest, add_right_comm, hgained, add_assoc]

/-- In every run from nothing where mangled names identify the static functions and none comes with
a thunk linked to it, what the inventory holds in all its places, together with the linked thunks
that gave way to other thunks, is what was accepted, each symbol as often as it was. -/
theorem symbols_addAll_empty (architecture : Architecture) (ds : List Declaration)
    (hid : FunctionDecl.Identified (ds.filterMap Declaration.static?))
    (hbare : ∀ f ∈ ds.filterMap Declaration.static?, f.thunk? = none) :
    (addAll { architecture } ds).symbols +
        ((displaced { architecture } ds).map Thunk.symbol : List Symbol) =
      ((accepted { architecture } ds).map Declaration.symbol : List Symbol) := by
  have hempty : HoldsOnlyStatic { architecture } [] := Inventory.empty_every architecture
  have hrun := symbols_addAll hempty hid hbare
  rwa [show symbols { architecture } = 0 from rfl, zero_add] at hrun

/-- Two thunks wait, their function comes twice and a third thunk comes: the first one gives way, and
everything else is held. -/
theorem symbols_addAll_empty_third_thunk :
    let f := Sample.staticFunction "M" "Foo" "baz" "f" false
    let thunk (mangledName : String) (offset : UInt64) : FunctionDecl :=
      { Sample.staticFunction "M" "Foo" "baz" mangledName true with offset }
    let ds := [thunk "t1" 1, thunk "t2" 2, f, f, thunk "t3" 3].map Declaration.function
    FunctionDecl.Identified (ds.filterMap Declaration.static?) ∧
      (∀ g ∈ ds.filterMap Declaration.static?, g.thunk? = none) ∧
      (addAll { architecture := .arm64 } ds).symbols + {⟨"t1", 1⟩} =
        {⟨"t1", 1⟩, ⟨"t2", 2⟩, ⟨"f", 0⟩, ⟨"f", 0⟩, ⟨"t3", 3⟩} := by
  intro f thunk ds
  have hid : FunctionDecl.Identified (ds.filterMap Declaration.static?) := by
    unfold FunctionDecl.Identified
    decide
  have hbare : ∀ g ∈ ds.filterMap Declaration.static?, g.thunk? = none := by decide
  have hdisplaced : (displaced { architecture := .arm64 } ds).map Thunk.symbol = [⟨"t1", 1⟩] := by
    decide
  have haccepted : accepted { architecture := .arm64 } ds = ds := by decide
  have hrun := symbols_addAll_empty .arm64 ds hid hbare
  rw [hdisplaced, haccepted] at hrun
  exact ⟨hid, hbare, hrun⟩

end Inventory

end SwiftSurface
