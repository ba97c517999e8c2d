import SwiftSurface.Proofs.Inventory.Slots
import SwiftSurface.Proofs.TypeExpr.Names

/-!
# Finding the types of an inventory

A declaration is filed by its own module and the full name of its owner. A type is looked up by its
full name alone, in the module that the text before the first dot names. So what a name finds is
what the declarations of that one module have made of the type (`Inventory.find?_addAll`), and the
contents that a declaration is filed in are found just if it is one of them
(`Inventory.find?_of_filed`). A member that another module declares for a type is not
(`Inventory.find?_extension`).
-/

namespace SwiftSurface

/-- The module that a type of this name is looked up in: what stands before the first dot of the
full name. -/
def NominalName.lookupModule? (n : NominalName) : Option String :=
  (NamedType.splitModule n.fullName).map Prod.fst

/-- The type of this name, among the protocols if it is one and among the other types if not. -/
def Inventory.find? (i : Inventory) (n : NominalName) : Option TypeSurface :=
  match n.kind with
  | .protocolType => i.protocolNamed? n.fullName
  | .classType | .structType | .enumType => i.classNamed? n.fullName

/-- Is the declaration filed in the contents that this module keeps for the type `n`? -/
def Declaration.isFiledIn (module : String) (n : NominalName) (d : Declaration) : Bool :=
  (d.module, d.modulePlace) = (module, ModuleSurface.Place.type n.kind.isProtocol n.fullName)

/-- The contents of a type after filing its declarations in order. The first one makes them if they
are not there. -/
def TypeSurface.fileAll (held : Option TypeSurface) (ds : List Declaration) : Option TypeSurface :=
  ds.foldl (fun held d => d.owner.map fun owner => ((held.getD (.empty owner)).add d).after) held

/-! ## The module that a name leads to -/

namespace NominalName

variable {n : NominalName}

theorem fullName_of_path {part : String} {parts : List String} (h : n.path = part :: parts) :
    n.fullName.toList =
      n.module.toList ++ '.' :: (".".intercalate (part :: parts)).toList := by
  rw [fullName, h, String.intercalate_cons_cons]
  simp

/-- A name leads to its own module just if there is no dot in the module and the path is not
empty. -/
theorem lookupModule?_eq_module_iff :
    n.lookupModule? = some n.module ↔ '.' ∉ n.module.toList ∧ n.path ≠ [] := by
  constructor
  · intro h
    rcases NamedType.unqualifiedName_cases n.fullName with ⟨-, hnone, -⟩ | ⟨first, hdot, hsome, hname⟩
    · exact absurd (h.symm.trans hnone) (by simp)
    · have hfirst : n.module.toList = first := by
        simpa using congrArg String.toList (Option.some.inj (h.symm.trans hsome))
      refine ⟨hfirst ▸ hdot, fun hpath => ?_⟩
      -- without a path the full name is the module, and nothing follows it
      have hlength := congrArg List.length hname
      rw [fullName, hpath, ← hfirst] at hlength
      simp at hlength
  · rintro ⟨hdot, hpath⟩
    obtain ⟨part, parts, hparts⟩ := List.exists_cons_of_ne_nil hpath
    rw [lookupModule?, NamedType.splitModule_of_dot hdot (fullName_of_path hparts)]
    simp

end NominalName

/-! ## What an address holds after a run -/

namespace Declaration

variable {d : Declaration} {module : String} {owner n : NominalName}

theorem isFiledIn_iff :
    d.isFiledIn module n ↔
      (module, ModuleSurface.Place.type n.kind.isProtocol n.fullName) = (d.module, d.modulePlace) := by
  rw [isFiledIn, decide_eq_true_iff, eq_comm]

theorem isFiledIn_owner (howner : d.owner = some owner) :
    d.isFiledIn module owner ↔ module = d.module := by
  rw [isFiledIn_iff, modulePlace_of_owner howner]
  simp

/-- The owner of a declaration leads to the contents that it is filed in. -/
theorem owner_of_isFiledIn (h : d.isFiledIn module n) :
    d.module = module ∧ ∃ owner, d.owner = some owner ∧
      owner.kind.isProtocol = n.kind.isProtocol ∧ owner.fullName = n.fullName := by
  obtain ⟨hmodule, hplace⟩ := Prod.mk.inj (isFiledIn_iff.1 h)
  exact ⟨hmodule.symm, owner_of_modulePlace hplace.symm⟩

end Declaration

namespace TypeSurface

theorem fileAll_append (held : Option TypeSurface) (ds es : List Declaration) :
    fileAll held (ds ++ es) = fileAll (fileAll held ds) es := by
  simp [fileAll]

theorem fileAll_cons {d : Declaration} {owner : NominalName} (howner : d.owner = some owner)
    (held : Option TypeSurface) (ds : List Declaration) :
    fileAll held (d :: ds) = fileAll (some ((held.getD (.empty owner)).add d).after) ds := by
  simp [fileAll, howner]

/-- Contents that are there stay, and each declaration that has an owner is filed in them. -/
theorem fileAll_some {ds : List Declaration} (howned : ∀ d ∈ ds, d.owner.isSome) (c : TypeSurface) :
    fileAll (some c) ds = some (c.addAll ds) := by
  induction ds generalizing c with
  | nil => rfl
  | cons d ds ih =>
      obtain ⟨owner, howner⟩ := Option.isSome_iff_exists.1 (howned d (by simp))
      rw [fileAll_cons howner]
      exact ih (fun e he => howned e (by simp [he])) _

end TypeSurface

namespace Inventory

variable {i : Inventory} {d : Declaration} {owner n : NominalName}

theorem ownerOf?_eq_typeAt? (howner : d.owner = some owner) :
    i.ownerOf? d = i.typeAt? d.module owner.kind.isProtocol owner.fullName := by
  simp only [ownerOf?, ModuleSurface.ownerOf?, howner, Option.bind_some, typeAt?, module?,
    ModuleSurface.read_type]

/-- The contents that a declaration comes to are those at its address, made if none are there. -/
theorem ownerOrMade_eq (i : Inventory) (d : Declaration) (owner : NominalName) :
    (i.moduleOrMade d).ownerOrMade owner =
      (i.typeAt? d.module owner.kind.isProtocol owner.fullName).getD (.empty owner) := by
  rw [typeAt?_eq_moduleOrMade, ModuleSurface.read_type, ModuleSurface.ownerOrMade]

theorem ownerOf?_add (howner : d.owner = some owner) :
    (i.add d).after.ownerOf? d = some (((i.moduleOrMade d).ownerOrMade owner).add d).after := by
  rw [ownerOf?, get?_module_add, Option.bind_some]
  exact ModuleSurface.ownerOf?_add howner

theorem typeAt?_add_of_isFiledIn {module : String} (h : d.isFiledIn module n) :
    (i.add d).after.typeAt? module n.kind.isProtocol n.fullName =
      TypeSurface.fileAll (i.typeAt? module n.kind.isProtocol n.fullName) [d] := by
  obtain ⟨rfl, owner, howner, hfamily, hname⟩ := Declaration.owner_of_isFiledIn h
  rw [← hfamily, ← hname, ← ownerOf?_eq_typeAt? howner, ownerOf?_add howner, ownerOrMade_eq,
    TypeSurface.fileAll_cons howner]
  rfl

/-- After a run, an address holds what the declarations filed there have made of it. -/
theorem typeAt?_addAll (i : Inventory) (ds : List Declaration) (module : String) (n : NominalName) :
    (i.addAll ds).typeAt? module n.kind.isProtocol n.fullName =
      TypeSurface.fileAll (i.typeAt? module n.kind.isProtocol n.fullName)
        (ds.filter (·.isFiledIn module n)) := by
  induction ds generalizing i with
  | nil => rfl
  | cons d ds ih =>
      rw [addAll_cons, ih, List.filter_cons]
      split
      case isTrue hfiled =>
          rw [typeAt?_add_of_isFiledIn hfiled, ← TypeSurface.fileAll_append]
          rfl
      case isFalse hfiled =>
          rw [typeAt?_add_of_ne fun hsame => hfiled (Declaration.isFiledIn_iff.2 hsame)]

/-! ## What a name finds -/

theorem find?_eq_typeAt? (i : Inventory) (n : NominalName) :
    i.find? n = n.lookupModule?.bind fun module =>
      i.typeAt? module n.kind.isProtocol n.fullName := by
  rw [find?, NominalName.lookupModule?]
  cases n.kind <;> rfl

/-- A name finds what the declarations of the module it leads to have made of the type. -/
theorem find?_addAll (architecture : Architecture) (ds : List Declaration) (n : NominalName) :
    (addAll { architecture } ds).find? n = n.lookupModule?.bind fun module =>
      TypeSurface.fileAll none (ds.filter (·.isFiledIn module n)) := by
  rw [find?_eq_typeAt?]
  refine congrArg n.lookupModule?.bind (funext fun module => ?_)
  exact typeAt?_addAll _ ds module n

/-- **What is filed is found in the module that its owner's name begins with.** At every later point
of every run, the contents that an owned declaration was filed in are there, with the declarations
that were filed in them since. The name of the owner finds them if it leads to the module of the
declaration; an owner of that module leads there just if the module has no dot in its name and the
path of the owner is not empty. If the name leads elsewhere, or nowhere, it finds what it would find
without the declaration. -/
theorem find?_of_filed (architecture : Architecture) (history later : List Declaration)
    (howner : d.owner = some owner) :
    let before := addAll { architecture } history
    let i := addAll { architecture } (history ++ d :: later)
    let contents := (((before.moduleOrMade d).ownerOrMade owner).add d).after.addAll
      (later.filter (·.isFiledIn d.module owner))
    i.ownerOf? d = some contents ∧
      (owner.lookupModule? = some d.module → i.find? owner = some contents) ∧
      (owner.module = d.module →
        (owner.lookupModule? = some d.module ↔ '.' ∉ d.module.toList ∧ owner.path ≠ [])) ∧
      (owner.lookupModule? ≠ some d.module →
        i.find? owner = (addAll { architecture } (history ++ later)).find? owner) := by
  intro before i contents
  have hi : i = (before.add d).after.addAll later := by simp [i, before, addAll]
  have hheld : i.ownerOf? d = some contents := by
    rw [hi, ownerOf?_eq_typeAt? howner, typeAt?_addAll, ← ownerOf?_eq_typeAt? howner,
      ownerOf?_add howner, TypeSurface.fileAll_some]
    intro e he
    obtain ⟨-, other, hother, -⟩ := Declaration.owner_of_isFiledIn (List.mem_filter.1 he).2
    simp [hother]
  refine ⟨hheld, fun hmodule => ?_, fun hown => ?_, fun hmodule => ?_⟩
  · rw [find?_eq_typeAt?, hmodule, Option.bind_some, ← ownerOf?_eq_typeAt? howner, hheld]
  · rw [← hown]
    exact NominalName.lookupModule?_eq_module_iff
  · rw [find?_addAll, find?_addAll]
    cases hlookup : owner.lookupModule? with
    | none => rfl
    | some module =>
        have hne : ¬ d.isFiledIn module owner := fun hfiled => by
          rw [Declaration.isFiledIn_owner howner] at hfiled
          exact hmodule (hfiled ▸ hlookup)
        simp [List.filter_append, hne]

/-- The class `M.Foo` is found with the method that its own module declares, as it would be without
the method that another module declares for it. -/
theorem find?_of_filed_two_modules :
    let owner : NominalName := ⟨"M", ["Foo"], .classType⟩
    let own := Declaration.function (Sample.method "M" "Foo" "bar" "s1")
    let foreign := Declaration.function { Sample.method "M" "Foo" "baz" "s2" with module := "N" }
    let i := addAll { architecture := .arm64 } [foreign, own]
    owner.lookupModule? = some own.module ∧
      i.find? owner = some ((TypeSurface.empty owner).add own).after ∧
      i.find? owner = (addAll { architecture := .arm64 } [own]).find? owner ∧
      i.ownerOf? foreign = some ((TypeSurface.empty owner).add foreign).after := by
  intro owner own foreign i
  have hown : own.owner = some owner := rfl
  have hforeign : foreign.owner = some owner := rfl
  obtain ⟨-, hfound, hmodule, -⟩ := find?_of_filed .arm64 [foreign] [] hown
  obtain ⟨hheld, -, -, hwithout⟩ := find?_of_filed .arm64 [] [own] hforeign
  have hleads : owner.lookupModule? = some own.module :=
    (hmodule rfl).2 ⟨by decide, by decide⟩
  have hapart : owner.lookupModule? ≠ some foreign.module := by
    rw [hleads]
    decide
  have hmade : ((addAll { architecture := .arm64 } [foreign]).moduleOrMade own).ownerOrMade owner =
      .empty owner := by decide
  have hlater : [own].filter (·.isFiledIn foreign.module owner) = [] := by decide
  rw [hlater] at hheld
  refine ⟨hleads, (hfound hleads).trans ?_, hwithout hapart, hheld⟩
  rw [hmade]
  rfl

/-- The name of a type does not find a member that another module declares for it: the member is
filed with the module that declares it. -/
theorem find?_extension :
    let owner : NominalName := ⟨"M", ["Foo"], .classType⟩
    let d := Declaration.function { Sample.method "M" "Foo" "bar" "s" with module := "N" }
    let empty : Inventory := { architecture := .arm64 }
    d.owner = some owner ∧ (empty.add d).rejection = none ∧
      ((empty.add d).after.ownerOf? d).isSome ∧
      (empty.add d).after.classNamed? owner.fullName = none := by
  decide

end Inventory

end SwiftSurface
