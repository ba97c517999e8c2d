import SwiftSurface.Declaration.Sample
import SwiftSurface.Proofs.Inventory.Conservation
import SwiftSurface.Proofs.Inventory.Representation

/-!
# Filing never falls back

Filing asks twice. A symbol that is routed to the witness table is handed to a table that looks at
its signature again; the counterpart that is found for a static function is looked for again, by its
mangled name, before it is written over or linked. For the case that the second answer is no, filing
falls back: it keeps the symbol elsewhere, appends the function, or drops it and reports success.

`TypeSurface.add?` is filing with nothing to fall back on. After every run it has an outcome, which
is that of filing, so no static function gets lost (`TypeSurface.add_neverFallsBack`).

A counterpart is found again in the overload set that it came from, but perhaps another function of
its mangled name is found there; mangled names need not identify the functions. What matters is that
this one can carry a thunk, and the invariant is that the table holds static functions only
(`TypeSurface.staticFunctions_keeps_addAll`).
-/

namespace SwiftSurface

/-! ## Looking again -/

namespace FunctionTable

variable {t : FunctionTable} {f c : FunctionDecl}

/-- Under the mangled name of a counterpart a function is found, be it the counterpart or not. -/
theorem find?_of_counterpart? (h : t.counterpart? f = some c) :
    ∃ first ∈ t.named f.name, t.find? f.name c.mangledName = some first := by
  obtain ⟨hmem, -⟩ := counterpart?_eq_some h
  obtain ⟨first, hfirst⟩ := exists_find?_of_mem hmem
  have hfound := hfirst
  rw [find?_eq_find?_named] at hfound
  exact ⟨first, List.mem_of_find?_eq_some hfound, hfirst⟩

theorem replace?_of_counterpart? (h : t.counterpart? f = some c) (new : FunctionDecl) :
    ∃ after, t.replace? f.name c.mangledName new = some after := by
  obtain ⟨first, -, hfirst⟩ := find?_of_counterpart? h
  exact replace?_of_find? hfirst new

end FunctionTable

/-! ## Filing with nothing to fall back on -/

namespace FunctionTable

/-- Files a canonical function in place of its thunk. There is no outcome if nothing is found to be
written over. -/
def addCanonical? (t : FunctionTable) (thunk canonical : FunctionDecl) :
    Option (Filed FunctionTable) := do
  let after ← t.replace? canonical.name thunk.mangledName (canonical.withThunk thunk.toThunk?)
  return Filed.following { after } (.linked thunk.mangledName canonical.mangledName)

/-- Links a thunk to the canonical function of this mangled name, unless it is linked already. There
is no outcome if no such function is found, or none that can carry a thunk. -/
def addThunk? (t : FunctionTable) (canonicalName : String) (thunk : FunctionDecl) :
    Option (Filed FunctionTable) := do
  let canonical ← t.find? thunk.name canonicalName
  let s ← canonical.signature.static?
  let after ← t.replace? thunk.name canonicalName (canonical.withThunk thunk.toThunk?)
  match s.thunk with
  | none => return Filed.following { after } (.linked thunk.mangledName canonicalName)
  | some old =>
    if old.mangledName == thunk.mangledName then
      return .refused t (repeated thunk)
    else
      return Filed.following { after }
        (.relinked old.mangledName canonicalName thunk.mangledName)

/-- Files a static function, linked with its counterpart if that is there, and has no outcome where
`addStatic` falls back. -/
def addStatic? (t : FunctionTable) (f : FunctionDecl) : Option (Filed FunctionTable) :=
  match t.counterpart? f with
  | none => some (t.add f)
  | some counterpart =>
    if counterpart.isThunk then t.addCanonical? counterpart f
    else t.addThunk? counterpart.mangledName f

variable {t : FunctionTable} {f c : FunctionDecl}

theorem addCanonical?_eq_some (h : t.counterpart? f = some c) :
    t.addCanonical? c f = some (t.addCanonical c f) := by
  obtain ⟨after, hafter⟩ := replace?_of_counterpart? h (f.withThunk c.toThunk?)
  simp [addCanonical?, addCanonical, hafter]

theorem addThunk?_eq_some (hstatic : t.Keeps (·.isStatic)) (h : t.counterpart? f = some c) :
    t.addThunk? c.mangledName f = some (t.addThunk c.mangledName f) := by
  obtain ⟨canonical, hmem, hcanonical⟩ := find?_of_counterpart? h
  have hisStatic : canonical.isStatic := hstatic.of_mem hmem
  obtain ⟨s, hs⟩ := Option.isSome_iff_exists.1 hisStatic
  obtain ⟨after, hafter⟩ := replace?_of_counterpart? h (canonical.withThunk f.toThunk?)
  simp only [addThunk?, addThunk, hcanonical, hs, hafter, Option.bind_eq_bind, Option.bind_some,
    Option.getD_some]
  cases s.thunk with
  | none => rfl
  | some old =>
      dsimp only
      split <;> rfl

/-- In a table of static functions filing one does not fall back. -/
theorem addStatic?_eq_some (hstatic : t.Keeps (·.isStatic)) (f : FunctionDecl) :
    t.addStatic? f = some (t.addStatic f) := by
  rw [addStatic?, addStatic]
  cases h : t.counterpart? f with
  | none => rfl
  | some c =>
      dsimp only
      split
      · exact addCanonical?_eq_some h
      · exact addThunk?_eq_some hstatic h

/-- In another table a thunk can be lost: it is neither held nor refused if a method is found under
the mangled name of its function. -/
example :
    let method := Sample.method "M" "Foo" "baz" "f"
    let f := Sample.staticFunction "M" "Foo" "baz" "f" false
    let t : FunctionTable := ⟨Table.empty.insert "baz" ⟨"baz", [method, f]⟩⟩
    let filed := t.addStatic (Sample.staticFunction "M" "Foo" "baz" "t" true)
    filed.after = t ∧ filed.rejection = none := by
  decide

end FunctionTable

namespace TypeSurface

/-- Files a function at this destination, and has no outcome where `addAt` falls back. -/
def addAt? (c : TypeSurface) (f : FunctionDecl) (isDescriptor : Bool) :
    Destination → Option (Filed TypeSurface)
  | .staticFunctions =>
    (c.staticFunctions.addStatic? f).map
      (·.within fun staticFunctions => { c with staticFunctions })
  | .witnessTable =>
    (c.witnessTable.add? f).map fun witnessTable => { after := { c with witnessTable } }
  | destination => some (c.addAt f isDescriptor destination)

/-- Files a function, which is the descriptor of a method or not, and has no outcome where
`addFunction` falls back. -/
def addFunction? (c : TypeSurface) (f : FunctionDecl) (isDescriptor : Bool) :
    Option (Filed TypeSurface) :=
  let destination := Destination.of c.name f isDescriptor
  (c.addAt? f isDescriptor destination).map
    (·.following (.routed c.name.fullName f.mangledName destination))

/-- Files a declaration, and has no outcome where `add` falls back. -/
def add? (c : TypeSurface) : Declaration → Option (Filed TypeSurface)
  | .function f => c.addFunction? f false
  | .methodDescriptor f => c.addFunction? f true
  | d => some (c.add d)

variable {c : TypeSurface} {f : FunctionDecl} {isDescriptor : Bool}

theorem addAt?_eq_some (hstatic : c.staticFunctions.Keeps (·.isStatic))
    {destination : Destination} (hof : Destination.of c.name f isDescriptor = destination) :
    c.addAt? f isDescriptor destination = some (c.addAt f isDescriptor destination) := by
  cases destination with
  | staticFunctions =>
      rw [addAt?, FunctionTable.addStatic?_eq_some hstatic f, Option.map_some, addAt]
  | witnessTable =>
      obtain ⟨after, hafter⟩ := WitnessTable.add?_of_destination hof c.witnessTable
      rw [addAt?, addAt, hafter, Option.map_some]
  | _ => rfl

theorem addFunction?_eq_some (hstatic : c.staticFunctions.Keeps (·.isStatic)) (f : FunctionDecl)
    (isDescriptor : Bool) :
    c.addFunction? f isDescriptor = some (c.addFunction f isDescriptor) := by
  rw [addFunction?, addAt?_eq_some hstatic rfl]
  rfl

/-- Filing in contents whose static functions are static functions does not fall back. -/
theorem add?_eq_some (hstatic : c.staticFunctions.Keeps (·.isStatic)) (d : Declaration) :
    c.add? d = some (c.add d) := by
  cases d with
  | function f => exact addFunction?_eq_some hstatic f false
  | methodDescriptor f => exact addFunction?_eq_some hstatic f true
  | _ => rfl

end TypeSurface

/-! ## What is filed is held -/

/-- Does the overload set of the name of `f` hold the symbol of `f`, its mangled name and offset, as
that of a function or of the thunk linked to one? -/
def FunctionTable.HoldsSymbol (t : FunctionTable) (f : FunctionDecl) : Prop :=
  ∃ g ∈ t.named f.name, g.symbol = f.symbol ∨ g.thunk?.map Thunk.symbol = some f.symbol

/-- A static function that is accepted is held. -/
theorem FunctionTable.addStatic_holdsSymbol {t : FunctionTable} {f : FunctionDecl}
    (hstatic : t.Keeps (·.isStatic)) (hf : f.isStatic)
    (haccepted : (t.addStatic f).rejection = none) : (t.addStatic f).after.HoldsSymbol f := by
  -- what is written over the counterpart is held, and it is `f` or has `f` linked to it
  have hwritten {c : FunctionDecl} (hc : t.counterpart? f = some c) (new : FunctionDecl) :
      new ∈ OverloadSet.replaceFirst c.mangledName new (t.named f.name) :=
    OverloadSet.mem_replaceFirst_self (List.mem_map_of_mem (counterpart?_eq_some hc).1)
  unfold HoldsSymbol
  rcases addStatic_cases (t := t) (f := f) (fun g hg => hstatic.of_mem hg) with
    ⟨-, -, hrefused⟩ | ⟨-, -, -, hnamed⟩ | ⟨c, hc, -, -, hnamed⟩ |
    ⟨c, g, -, -, -, -, hrefused⟩ | ⟨c, g, hc, -, hfind, -, -, hnamed⟩
  · simp [hrefused] at haccepted
  · exact ⟨f, by simp [hnamed], .inl rfl⟩
  · rw [hnamed]
    exact ⟨_, hwritten hc _, .inl (f.symbol_withThunk _)⟩
  · simp [hrefused] at haccepted
  · rw [find?_eq_find?_named] at hfind
    have hg : g.isStatic := hstatic.of_mem (List.mem_of_find?_eq_some hfind)
    obtain ⟨thunk, hthunk, hsymbol, -⟩ := FunctionDecl.toThunk?_eq_some hf
    rw [hnamed]
    refine ⟨_, hwritten hc _, .inr ?_⟩
    rw [FunctionDecl.thunk?_withThunk _ _ hg, hthunk, Option.map_some, hsymbol]

/-- A static function that is refused was held already, at whatever offset. -/
theorem FunctionTable.holdsSymbol_of_refused {t : FunctionTable} {f : FunctionDecl}
    (hstatic : t.Keeps (·.isStatic)) (hrefused : (t.addStatic f).rejection.isSome) :
    ∃ offset, t.HoldsSymbol { f with offset } := by
  rcases addStatic_cases (t := t) (f := f) (fun g hg => hstatic.of_mem hg) with
    ⟨-, hmem, -⟩ | ⟨-, -, haccepted, -⟩ | ⟨_, -, -, haccepted, -⟩ |
    ⟨c, g, -, -, hfind, hlinked, -⟩ | ⟨_, _, -, -, -, -, haccepted, -⟩
  · obtain ⟨g, hg, hname⟩ := List.mem_map.1 hmem
    exact ⟨g.offset, g, hg, .inl (by simp [FunctionDecl.symbol, hname])⟩
  · simp [haccepted] at hrefused
  · simp [haccepted] at hrefused
  · rw [find?_eq_find?_named] at hfind
    obtain ⟨thunk, hthunk, hname⟩ := Option.map_eq_some_iff.1 hlinked
    refine ⟨thunk.offset, g, List.mem_of_find?_eq_some hfind, .inr ?_⟩
    simp [hthunk, Thunk.symbol, FunctionDecl.symbol, hname]
  · simp [haccepted] at hrefused

/-! ## Runs -/

namespace TypeSurface

/-- Whatever is filed, a table of static functions stays one: a static function comes in as it is or
with another thunk linked to it, and nothing else comes in. -/
theorem staticFunctions_keeps_add {c : TypeSurface}
    (hstatic : c.staticFunctions.Keeps (·.isStatic)) (d : Declaration) :
    (c.add d).after.staticFunctions.Keeps (·.isStatic) := by
  cases hd : d.static? with
  | none => rwa [staticFunctions_add c hd]
  | some f =>
      rw [(add_of_static? c hd).2]
      refine hstatic.fileIn .staticFunctions (Declaration.isStatic_of_static? hd) ?_
      intro g thunk hg
      rwa [FunctionDecl.isStatic_withThunk]

/-- After every run the table of static functions holds static functions only. -/
theorem staticFunctions_keeps_addAll (name : NominalName) (ds : List Declaration) :
    ((empty name).addAll ds).staticFunctions.Keeps (·.isStatic) := by
  induction ds using List.reverseRecOn with
  | nil => exact Table.empty_every
  | append_singleton before d ih =>
      rw [addAll_concat]
      exact staticFunctions_keeps_add ih d

/-- **Filing never falls back.** After every run, whatever its mangled names are, filing a
declaration has the outcome that it has with nothing to fall back on: the witness table takes what
is routed to it, a canonical function is written over the thunk that was found for it, and a thunk
finds a static function that it is linked to. So a static function that is accepted is held right
afterwards in the overload set of its name, as a function or as the thunk linked to one; and one
that is refused was held there before, at whatever offset. -/
theorem add_neverFallsBack (name : NominalName) (ds : List Declaration) (d : Declaration) :
    let c := (empty name).addAll ds
    c.add? d = some (c.add d) ∧
      ∀ f, d.static? = some f →
        ((c.add d).rejection = none → (c.add d).after.staticFunctions.HoldsSymbol f) ∧
        ((c.add d).rejection.isSome →
          ∃ offset, c.staticFunctions.HoldsSymbol { f with offset }) := by
  intro c
  have hstatic : c.staticFunctions.Keeps (·.isStatic) :=
    staticFunctions_keeps_addAll name ds
  refine ⟨add?_eq_some hstatic d, ?_⟩
  intro f hd
  obtain ⟨hrejection, hafter⟩ := add_of_static? c hd
  rw [hrejection, hafter]
  constructor
  · intro haccepted
    exact FunctionTable.addStatic_holdsSymbol hstatic (Declaration.isStatic_of_static? hd) haccepted
  · intro hrefused
    exact FunctionTable.holdsSymbol_of_refused hstatic hrefused

/-- Two functions have one mangled name, and the thunk of the second is linked to the first. It is
held nonetheless, and refused when it comes again. -/
theorem add_neverFallsBack_shared_mangledName :
    let thunk (mangledName : String) (throws : Bool) (offset : UInt64) : FunctionDecl :=
      { Sample.function "M" "Foo" "baz" mangledName
          (.static { parameters := .unit, returns := .unit, throws, isThunk := true }) with offset }
    let function (throws : Bool) : FunctionDecl :=
      Sample.function "M" "Foo" "baz" "f"
        (.static { parameters := .unit, returns := .unit, throws })
    let ds := [thunk "t1" false 1, function true, function false].map Declaration.function
    let d := Declaration.methodDescriptor (thunk "t2" true 2)
    let c := (empty ⟨"M", ["Foo"], .classType⟩).addAll ds
    let later := (empty ⟨"M", ["Foo"], .classType⟩).addAll (ds ++ [d])
    d.static? = some (thunk "t2" true 2) ∧
      (c.add? d = some (c.add d) ∧ (c.add d).rejection = none ∧
        (c.add d).after.staticFunctions.named "baz" =
          [(function false).withThunk (thunk "t2" true 2).toThunk?, function true] ∧
        (c.add d).after.staticFunctions.HoldsSymbol (thunk "t2" true 2)) ∧
      later.add? d = some (later.add d) ∧ (later.add d).rejection.isSome ∧
        ∃ offset, later.staticFunctions.HoldsSymbol (thunk "t2" true offset) := by
  intro thunk function ds d c later
  have hstatic : d.static? = some (thunk "t2" true 2) := rfl
  obtain ⟨hsame, hheld⟩ := add_neverFallsBack ⟨"M", ["Foo"], .classType⟩ ds d
  obtain ⟨hsameLater, hheldLater⟩ := add_neverFallsBack ⟨"M", ["Foo"], .classType⟩ (ds ++ [d]) d
  have haccepted : (c.add d).rejection = none := by decide
  have hrefused : (later.add d).rejection.isSome := by decide
  exact ⟨hstatic, ⟨hsame, haccepted, by decide, (hheld _ hstatic).1 haccepted⟩, hsameLater,
    hrefused, (hheldLater _ hstatic).2 hrefused⟩

end TypeSurface

end SwiftSurface
