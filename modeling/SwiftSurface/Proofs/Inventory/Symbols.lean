import Mathlib.Algebra.BigOperators.Group.Multiset.Basic
import Mathlib.Tactic.Abel
import SwiftSurface.Image.Symbols
import SwiftSurface.Proofs.Inventory.Containers

/-!
# The symbols that an inventory holds

A declaration is held as an entry of some list, slot or overload set, or as the thunk that is linked
to its canonical function. `symbols` counts all of these, with their multiplicity, in every part of
an inventory.

`Filed.Balances` is the account of one step: what is held afterwards and what was lost make up what
was held before and what was gained. It is carried from a part to the whole by `Balances.within`,
which asks only that replacing the part changes the count of the whole by as much.
-/

namespace SwiftSurface

/-! ## What counts -/

/-- The symbol of a linked thunk. -/
def Thunk.symbol (t : Thunk) : Symbol :=
  ⟨t.mangledName, t.offset⟩

/-- The symbol that a declaration was decoded from. -/
def Declaration.symbol (d : Declaration) : Symbol :=
  ⟨d.mangledName, d.offset⟩

/-- The symbol of a function. -/
def FunctionDecl.symbol (f : FunctionDecl) : Symbol :=
  ⟨f.mangledName, f.offset⟩

/-- The symbol of a function, and that of the thunk linked to it. -/
def FunctionDecl.symbols (f : FunctionDecl) : Multiset Symbol :=
  {f.symbol} + (f.thunk?.toList.map Thunk.symbol : List Symbol)

/-- The symbol of a declaration, and that of the thunk linked to it. -/
def Declaration.symbols (d : Declaration) : Multiset Symbol :=
  match d.function? with
  | some f => f.symbols
  | none => {d.symbol}

/-- The symbols of these functions. -/
def functionSymbols (fs : List FunctionDecl) : Multiset Symbol :=
  (fs.map FunctionDecl.symbols).sum

@[simp] theorem functionSymbols_nil : functionSymbols [] = 0 := rfl

@[simp] theorem functionSymbols_cons (f : FunctionDecl) (fs : List FunctionDecl) :
    functionSymbols (f :: fs) = f.symbols + functionSymbols fs := by
  simp [functionSymbols]

@[simp] theorem functionSymbols_append (fs gs : List FunctionDecl) :
    functionSymbols (fs ++ gs) = functionSymbols fs + functionSymbols gs := by
  simp [functionSymbols]

/-- The symbols of these declarations. -/
def declarationSymbols (ds : List Declaration) : Multiset Symbol :=
  (ds.map Declaration.symbols).sum

@[simp] theorem declarationSymbols_append (ds es : List Declaration) :
    declarationSymbols (ds ++ es) = declarationSymbols ds + declarationSymbols es := by
  simp [declarationSymbols]

@[simp] theorem declarationSymbols_singleton (d : Declaration) :
    declarationSymbols [d] = d.symbols := by
  simp [declarationSymbols]

/-- The symbols of the functions of this overload set. -/
def OverloadSet.symbols (set : OverloadSet) : Multiset Symbol :=
  functionSymbols set.functions

/-- The symbols of the functions of all overload sets. -/
def FunctionTable.symbols (t : FunctionTable) : Multiset Symbol :=
  t.overloads.total OverloadSet.symbols

/-- The symbols in the slots of an accessor table. -/
def AccessorTable.symbols (t : AccessorTable) : Multiset Symbol :=
  (AccessorKind.all.map fun kind => functionSymbols (t.get kind).toList).sum

/-- The symbols of the accessors of a property, descriptors included. -/
def PropertyEntry.symbols (r : PropertyEntry) : Multiset Symbol :=
  r.accessors.symbols + r.descriptors.symbols

/-- The symbols of the accessors of all properties. -/
def PropertyTable.symbols (t : PropertyTable) : Multiset Symbol :=
  t.entries.total PropertyEntry.symbols

/-- The symbols of witness tables. -/
def WitnessTable.symbols (t : WitnessTable) : Multiset Symbol :=
  t.groups.total functionSymbols

/-- The symbols of variables. -/
def VariableTable.symbols (t : VariableTable) : Multiset Symbol :=
  t.groups.total fun vs => declarationSymbols (vs.map Declaration.variable)

/-- The symbol in the slot of this kind of record. -/
def TypeSurface.recordSymbols (c : TypeSurface) (kind : RecordKind) : Multiset Symbol :=
  declarationSymbols ((c.record? kind).toList.map (Declaration.record kind))

/-- The symbols in all places of a type. -/
def TypeSurface.symbols (c : TypeSurface) : Multiset Symbol :=
  c.constructors.symbols + functionSymbols c.classConstructor.toList + c.destructors.symbols +
    c.properties.symbols + c.staticProperties.symbols + c.privateProperties.symbols +
    c.staticPrivateProperties.symbols + functionSymbols c.subscripts +
    functionSymbols c.privateSubscripts + c.methods.symbols + c.methodDescriptors.symbols +
    c.staticFunctions.symbols + c.witnessTable.symbols + c.initializers.symbols +
    c.storedVariables.symbols +
    declarationSymbols (c.propertyDescriptors.map Declaration.propertyDescriptor) +
    declarationSymbols (c.conformances.map Declaration.conformance) +
    c.recordSymbols .directMetadata + c.recordSymbols .lazyCacheVariable +
    c.recordSymbols .metaclass + c.recordSymbols .nominalTypeDescriptor +
    functionSymbols c.functionsOfUnknownDestination

/-- The symbols in all types of a module and in the module itself. -/
def ModuleSurface.symbols (m : ModuleSurface) : Multiset Symbol :=
  m.classes.total TypeSurface.symbols + m.protocols.total TypeSurface.symbols +
    m.functions.symbols + m.storedVariables.symbols +
    declarationSymbols m.definitionsOfUnknownDestination

/-- The symbols in all modules. -/
def Inventory.symbols (i : Inventory) : Multiset Symbol :=
  i.modules.total ModuleSurface.symbols

/-! ## The account of one step -/

/-- If the whole changes by as much as a part, then an account of the part is one of the whole. -/
theorem add_eq_add_of_part {whole whole' part part' lost gained : Multiset Symbol}
    (hpart : whole' + part = whole + part') (h : part' + lost = part + gained) :
    whole' + lost = whole + gained := by
  refine add_right_cancel (b := part) ?_
  calc whole' + lost + part
      = whole' + part + lost := add_right_comm _ _ _
    _ = whole + (part' + lost) := by rw [hpart, add_assoc]
    _ = whole + gained + part := by rw [h, add_comm part, add_assoc]

namespace Filed

variable {σ τ : Type}

/-- If the declaration is not refused, the symbols that are held afterwards and the lost ones are
those held before and the gained ones. -/
def Balances (filed : Filed σ) (count : σ → Multiset Symbol) (before : σ)
    (lost gained : Multiset Symbol) : Prop :=
  filed.rejection = none → count filed.after + lost = count before + gained

variable {count : σ → Multiset Symbol} {before : σ} {lost gained : Multiset Symbol}

theorem Balances.congr {a b : Filed σ} (h : a.Balances count before lost gained)
    (hsame : b.outcome = a.outcome) : b.Balances count before lost gained := by
  obtain ⟨hafter, hrejection⟩ := outcome_eq_iff.1 hsame
  intro haccepted
  rw [hafter]
  exact h (hrejection ▸ haccepted)

theorem refused_balances (rejection : SlotTaken) :
    (refused before rejection).Balances count before lost gained := by
  intro haccepted
  simp at haccepted

/-- A part that balances makes the whole balance, if the count of the whole changes by as much as
that of the part. -/
theorem Balances.within {part : Filed σ} (h : part.Balances count before lost gained)
    {countWhole : τ → Multiset Symbol} {rebuild : σ → τ} {whole : τ}
    (hpart : ∀ s, countWhole (rebuild s) + count before = countWhole whole + count s) :
    (part.within rebuild).Balances countWhole whole lost gained := by
  intro haccepted
  exact add_eq_add_of_part (hpart part.after) (h haccepted)

/-- The get-or-make step balances if filing in the container does and what is made holds nothing. -/
theorem fileAt_balances {κ : Type} [Ord κ] [Std.TransOrd κ] [Std.LawfulEqOrd κ] {t : Table κ σ}
    {key : κ} {made : σ} {file : σ → Filed σ}
    (h : (file ((t.get? key).getD made)).Balances count ((t.get? key).getD made) lost gained)
    (hmade : count made = 0) :
    (t.fileAt key made file).Balances (Table.total · count) t lost gained := by
  refine h.within fun s => ?_
  have hinsert := t.total_insert key s count
  cases hget : t.get? key <;> simpa [hget, hmade] using hinsert

end Filed

open Filed

/-! ## Overload sets, properties, witnesses and variables -/

theorem OverloadSet.add_balances (set : OverloadSet) (f : FunctionDecl) :
    (set.add f).Balances symbols set 0 f.symbols := by
  rw [add]
  split
  · exact refused_balances _
  · intro _
    simp [symbols]

theorem FunctionTable.add_balances (t : FunctionTable) (f : FunctionDecl) :
    (t.add f).Balances symbols t 0 f.symbols := by
  have hset : (t.overloads.fileAt f.name (.empty f.name) (·.add f)).Balances
      (Table.total · OverloadSet.symbols) t.overloads 0 f.symbols :=
    fileAt_balances (OverloadSet.add_balances _ f) rfl
  refine Balances.congr ?_ (t.outcome_add f)
  exact hset.within fun _ => add_comm _ _

theorem AccessorTable.symbols_set {t : AccessorTable} {kind : AccessorKind} (f : FunctionDecl)
    (hfree : t.get kind = none) : (t.set kind f).symbols = t.symbols + f.symbols := by
  cases kind <;> simp only [get] at hfree <;>
    simp [symbols, AccessorKind.all, set, get, hfree] <;> abel

theorem PropertyEntry.add_balances (r : PropertyEntry) (f : FunctionDecl) (kind : AccessorKind)
    (isDescriptor : Bool) : (r.add f kind isDescriptor).Balances symbols r 0 f.symbols := by
  rw [add]
  split
  case isTrue =>
      split
      case h_1 => exact refused_balances _
      case h_2 hfree =>
          intro _
          simp [symbols, AccessorTable.symbols_set f hfree, add_assoc]
  case isFalse =>
      split
      case h_1 => exact refused_balances _
      case h_2 hfree =>
          intro _
          simp [symbols, AccessorTable.symbols_set f hfree, add_right_comm]

theorem PropertyTable.add_balances (t : PropertyTable) (f : FunctionDecl) (kind : AccessorKind)
    (isDescriptor : Bool) : (t.add f kind isDescriptor).Balances symbols t 0 f.symbols := by
  have hentry : (t.entries.fileAt f.name { owner := f.ownerName, name := f.name }
      (·.add f kind isDescriptor)).Balances (Table.total · PropertyEntry.symbols) t.entries 0
      f.symbols :=
    fileAt_balances (PropertyEntry.add_balances _ f kind isDescriptor) rfl
  refine Balances.congr ?_ (t.outcome_add f kind isDescriptor)
  exact hentry.within fun _ => add_comm _ _

/-- What is appended to the list of a key adds to the sum of all lists. -/
theorem total_push {κ α : Type} [Ord κ] [Std.TransOrd κ] [Std.LawfulEqOrd κ]
    (t : Table κ (List α)) (key : κ) (x : α) (count : List α → Multiset Symbol)
    (happend : ∀ xs, count (xs ++ [x]) = count xs + count [x]) (hnil : count [] = 0) :
    (t.insert key ((t.get? key).getD [] ++ [x])).total count = t.total count + count [x] := by
  have hinsert := t.total_insert key ((t.get? key).getD [] ++ [x]) count
  rw [happend, ← add_assoc, add_right_comm] at hinsert
  cases hget : t.get? key with
  | none => simpa [hget, hnil] using hinsert
  | some xs => exact add_right_cancel (b := count xs) (by simpa [hget] using hinsert)

theorem WitnessTable.symbols_add? {t after : WitnessTable} {f : FunctionDecl}
    (h : t.add? f = some after) : after.symbols = t.symbols + f.symbols := by
  rw [add?] at h
  split at h
  · obtain rfl := Option.some.inj h
    simpa [symbols] using total_push t.groups _ f functionSymbols (by simp) (by simp)
  · exact absurd h (by simp)

theorem VariableTable.symbols_add (t : VariableTable) (v : VariableDecl) :
    (t.add v).symbols = t.symbols + (Declaration.variable v).symbols := by
  simpa [symbols, add] using total_push t.groups v.name v
    (fun vs => declarationSymbols (vs.map Declaration.variable)) (by simp) rfl

/-! ## Types -/

namespace TypeSurface

theorem symbols_withFunctions (c : TypeSurface) (group : FunctionGroup) (t : FunctionTable) :
    (c.withFunctions group t).symbols + (c.functions group).symbols = c.symbols + t.symbols := by
  cases group <;> simp only [symbols, recordSymbols, record?, withFunctions, functions] <;> abel

theorem symbols_withGroup (c : TypeSurface) (group : PropertyGroup) (t : PropertyTable) :
    (c.withGroup group t).symbols + (c.group group).symbols = c.symbols + t.symbols := by
  cases group <;> simp only [symbols, recordSymbols, record?, withGroup, TypeSurface.group] <;> abel

theorem symbols_withRecord {c : TypeSurface} {kind : RecordKind} (r : MetadataRecord)
    (hfree : c.record? kind = none) :
    (c.withRecord kind r).symbols = c.symbols + (Declaration.record kind r).symbols := by
  cases kind <;> simp only [record?] at hfree <;>
    simp [symbols, recordSymbols, record?, withRecord, hfree] <;> abel

theorem symbols_addUnknown (c : TypeSurface) (f : FunctionDecl) :
    (c.addUnknown f).symbols = c.symbols + f.symbols := by
  simp [symbols, recordSymbols, record?, addUnknown, add_assoc]

/-- A function that is not filed with the static functions is neither lost nor counted twice. -/
theorem addAt_balances (c : TypeSurface) (f : FunctionDecl) (isDescriptor : Bool)
    {destination : Destination} (h : destination ≠ .staticFunctions) :
    (c.addAt f isDescriptor destination).Balances symbols c 0 f.symbols := by
  rcases destination_cases destination with ⟨group, rfl⟩ | rfl | ⟨isPrivate, rfl⟩ |
    ⟨group, accessor, rfl⟩ | rfl | rfl
  · have htable : ((c.functions group).fileIn group f).Balances FunctionTable.symbols
        (c.functions group) 0 f.symbols := by
      cases group with
      | staticFunctions => exact absurd rfl h
      | _ => exact FunctionTable.add_balances _ f
    rw [addAt_destination]
    exact htable.within (c.symbols_withFunctions group)
  · rw [addAt, addClassConstructor]
    split
    case h_1 => exact refused_balances _
    case h_2 hfree =>
        intro _
        simp [symbols, recordSymbols, record?, hfree]
        abel
  · cases isPrivate <;> intro _ <;> simp [addAt, symbols, recordSymbols, record?] <;> abel
  · exact ((c.group group).add_balances f accessor isDescriptor).within (c.symbols_withGroup group)
  · rw [addAt]
    split
    case h_1 after hadd =>
        intro _
        simp [symbols, recordSymbols, record?, WitnessTable.symbols_add? hadd]
        abel
    case h_2 =>
        intro _
        simp [symbols_addUnknown]
  · intro _
    simp [addAt, symbols_addUnknown]

end TypeSurface

end SwiftSurface
