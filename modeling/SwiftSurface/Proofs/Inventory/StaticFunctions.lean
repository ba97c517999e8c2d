import SwiftSurface.Proofs.Inventory.Atomicity

/-!
# What filing a static function does

`FunctionTable.addStatic` appends a static function to the functions of its name, writes it over the
thunk that waited for it, or links it as a thunk. `addStatic_cases` says once what each step can do;
everything about runs is derived from it.

Two facts carry a run. The table holds nothing but what was filed, up to linked thunks
(`HoldsOnly`); and linking a thunk changes neither what identifies a function nor what it is
equivalent to.
-/

namespace SwiftSurface

/-! ## Linking a thunk -/

namespace FunctionDecl

/-- Is this a static function or the thunk of one? -/
def isStatic (f : FunctionDecl) : Bool :=
  f.signature.static?.isSome

/-- The thunk that is linked to a static function. -/
def thunk? (f : FunctionDecl) : Option Thunk :=
  f.signature.static?.bind (·.thunk)

variable (f g : FunctionDecl) (thunk : Option Thunk)

@[simp] theorem mangledName_withThunk : (f.withThunk thunk).mangledName = f.mangledName := by
  rw [withThunk]
  split <;> rfl

@[simp] theorem name_withThunk : (f.withThunk thunk).name = f.name := by
  rw [withThunk]
  split <;> rfl

theorem isStatic_iff : f.isStatic ↔ ∃ s, f.signature = .static s := by
  cases hf : f.signature <;> simp [isStatic, Signature.static?, hf]

@[simp] theorem isStatic_withThunk : (f.withThunk thunk).isStatic = f.isStatic := by
  cases hf : f.signature <;> simp [withThunk, isStatic, Signature.static?, hf]

@[simp] theorem isThunk_withThunk : (f.withThunk thunk).isThunk = f.isThunk := by
  cases hf : f.signature <;> simp [withThunk, isThunk, Signature.static?, hf]

/-- Only the thunk linked last is kept. -/
@[simp] theorem withThunk_withThunk (later : Option Thunk) :
    (f.withThunk thunk).withThunk later = f.withThunk later := by
  cases hf : f.signature <;> simp [withThunk, hf]

@[simp] theorem thunk?_withThunk (h : f.isStatic) : (f.withThunk thunk).thunk? = thunk := by
  cases hf : f.signature <;> simp_all [withThunk, thunk?, isStatic, Signature.static?]

/-- Linking what is linked already changes nothing. -/
theorem withThunk_thunk? : f.withThunk f.thunk? = f := by
  cases f with
  | mk module owner name mangledName offset signature =>
      cases signature with
      | static s => cases s; rfl
      | _ => rfl

/-- What linking a bare thunk writes: its mangled name, its offset and its signature. -/
theorem withThunk_toThunk? {f g : FunctionDecl} {a b : StaticSignature}
    (hf : f.signature = .static a) (hg : g.signature = .static b) (hbare : g.thunk? = none) :
    f.withThunk g.toThunk? =
      { f with
        signature := .static { a with
          thunk := some {
            mangledName := g.mangledName
            offset := g.offset
            signature := b } } } := by
  have hnone : b.thunk = none := by simpa [thunk?, Signature.static?, hg] using hbare
  have hb : { b with thunk := none } = b := by
    cases b
    simpa using hnone.symm
  have hthunk : g.toThunk? =
      some { mangledName := g.mangledName, offset := g.offset, signature := b } := by
    rw [toThunk?, hg, Signature.static?, Option.map_some, hb]
  rw [hthunk, withThunk, hf]

/-- Equivalence looks past the linked thunk. -/
@[simp] theorem isCounterpartOf_withThunk_left :
    (f.withThunk thunk).isCounterpartOf g = f.isCounterpartOf g := by
  cases hf : f.signature <;> cases hg : g.signature <;>
    simp [withThunk, isCounterpartOf, StaticSignature.pairsWith, hf, hg]

/-- Of two counterparts just one is a thunk. -/
theorem isThunk_of_isCounterpartOf {f g : FunctionDecl} (h : f.isCounterpartOf g) :
    f.isThunk = !g.isThunk := by
  cases hf : f.signature <;> cases hg : g.signature <;>
    simp_all [isCounterpartOf, isThunk, StaticSignature.pairsWith, Signature.static?,
      Bool.eq_not]

end FunctionDecl

/-! ## Functions that mangled names identify -/

theorem StaticSignature.of_erase_eq {a b : StaticSignature} (h : a.erase = b.erase) :
    a.parameters.erase = b.parameters.erase ∧ a.returns.erase = b.returns.erase ∧
      a.throws = b.throws ∧ a.isThunk = b.isThunk := by
  obtain ⟨_, _, _, _, _ | ⟨_, _, _⟩⟩ := a <;> obtain ⟨_, _, _, _, _ | ⟨_, _, _⟩⟩ := b <;>
    simp_all [erase]

namespace FunctionDecl

/-- In these declarations the mangled name is the identity: of two functions with one mangled name
the owner, the name and the signature are the same, types compared as types. -/
def Identified (fs : List FunctionDecl) : Prop :=
  ∀ f ∈ fs, ∀ g ∈ fs, f.mangledName = g.mangledName →
    f.owner = g.owner ∧ f.name = g.name ∧ f.signature.erase = g.signature.erase

theorem isThunk_of_erase_eq {f g : FunctionDecl} (h : f.signature.erase = g.signature.erase) :
    f.isThunk = g.isThunk := by
  cases hf : f.signature <;> cases hg : g.signature <;>
    simp_all [Signature.erase, isThunk, Signature.static?]
  case static.static => exact (StaticSignature.of_erase_eq h).2.2.2

/-- What identifies a function decides what it is equivalent to. -/
theorem isCounterpartOf_of_identified {f g : FunctionDecl} (howner : f.owner = g.owner)
    (hname : f.name = g.name) (h : f.signature.erase = g.signature.erase) (k : FunctionDecl) :
    f.isCounterpartOf k = g.isCounterpartOf k := by
  cases hf : f.signature <;> cases hg : g.signature <;> cases hk : k.signature <;>
    simp_all [Signature.erase, isCounterpartOf]
  case static.static.static =>
      obtain ⟨hparameters, hreturns, hthrows, hthunk⟩ := StaticSignature.of_erase_eq h
      simp [StaticSignature.pairsWith, TypeExpr.same, hparameters, hreturns, hthrows, hthunk]

end FunctionDecl

/-! ## Writing over one function of a list -/

namespace OverloadSet

variable {mangledName : String} {new : FunctionDecl} {fs : List FunctionDecl}

theorem mem_replaceFirst {g : FunctionDecl} (h : g ∈ replaceFirst mangledName new fs) :
    g = new ∨ g ∈ fs := by
  induction fs with
  | nil => simp [replaceFirst] at h
  | cons f rest ih =>
      simp only [replaceFirst] at h
      split at h
      · rcases List.mem_cons.1 h with rfl | hrest
        · exact .inl rfl
        · exact .inr (List.mem_cons_of_mem _ hrest)
      · rcases List.mem_cons.1 h with rfl | hrest
        · exact .inr (by simp)
        · exact (ih hrest).imp_right (List.mem_cons_of_mem _)

/-- What is written over a function of the list is there afterwards. -/
theorem mem_replaceFirst_self (h : mangledName ∈ fs.map (·.mangledName)) :
    new ∈ replaceFirst mangledName new fs := by
  induction fs with
  | nil => simp at h
  | cons f rest ih =>
      rw [replaceFirst]
      split
      case isTrue => exact List.mem_cons_self
      case isFalse hother =>
          have hother : f.mangledName ≠ mangledName := by simpa using hother
          exact List.mem_cons_of_mem _ (ih (by simpa [hother.symm] using h))

/-- A function written over one of its own mangled name changes no mangled name. -/
theorem map_mangledName_replaceFirst_self (h : new.mangledName = mangledName) :
    (replaceFirst mangledName new fs).map (·.mangledName) = fs.map (·.mangledName) := by
  induction fs with
  | nil => rfl
  | cons f rest ih =>
      simp only [replaceFirst]
      split
      case isTrue heq => simp_all
      case isFalse => simp [ih]

/-- Writing over a function takes away one occurrence of its mangled name. -/
theorem map_mangledName_replaceFirst_perm (hmem : mangledName ∈ fs.map (·.mangledName)) :
    ((replaceFirst mangledName new fs).map (·.mangledName)).Perm
      (new.mangledName :: (fs.map (·.mangledName)).erase mangledName) := by
  induction fs with
  | nil => simp at hmem
  | cons f rest ih =>
      simp only [replaceFirst]
      split
      case isTrue heq =>
          obtain rfl : f.mangledName = mangledName := by simpa using heq
          simp
      case isFalse hother =>
          have hother : f.mangledName ≠ mangledName := by simpa using hother
          have hrest : mangledName ∈ rest.map (·.mangledName) := by
            simpa [hother.symm] using hmem
          rw [List.map_cons, List.map_cons, List.erase_cons_tail (by simpa using hother)]
          exact ((ih hrest).cons _).trans (List.Perm.swap ..)

/-- If each mangled name occurs once, then writing `new` over the function of another mangled name
keeps it so just if that of `new` was not there. -/
theorem nodup_replaceFirst_iff (hnodup : (fs.map (·.mangledName)).Nodup)
    (hmem : mangledName ∈ fs.map (·.mangledName)) (hne : new.mangledName ≠ mangledName) :
    ((replaceFirst mangledName new fs).map (·.mangledName)).Nodup ↔
      new.mangledName ∉ fs.map (·.mangledName) := by
  rw [(map_mangledName_replaceFirst_perm hmem).nodup_iff, List.nodup_cons,
    hnodup.mem_erase_iff]
  simp [hne, hnodup.erase]

end OverloadSet

/-! ## The functions of one name -/

namespace FunctionTable

theorem named_insert (overloads : Table String OverloadSet) (name other : String)
    (set : OverloadSet) :
    (FunctionTable.mk (overloads.insert name set)).named other =
      if name = other then set.functions else (FunctionTable.mk overloads).named other := by
  by_cases h : name = other
  · subst h
    simp [named, Table.get?_insert_self]
  · simp [named, Table.get?_insert_of_ne _ h, h]

@[simp] theorem named_empty (name : String) : FunctionTable.empty.named name = [] := rfl

theorem find?_eq_find?_named (t : FunctionTable) (name mangledName : String) :
    t.find? name mangledName = (t.named name).find? (·.mangledName == mangledName) := by
  rw [find?, named]
  cases t.overloads.get? name <;> rfl

/-- Is a function of this mangled name held, under whatever name? -/
def Holds (t : FunctionTable) (mangledName : String) : Prop :=
  ∃ name, ∃ g ∈ t.named name, g.mangledName = mangledName

/-- Does each name have at most one function of a mangled name? -/
def NamesOnce (t : FunctionTable) : Prop :=
  ∀ name, ((t.named name).map (·.mangledName)).Nodup

/-! ## One step -/

/-- The refusal of a function whose mangled name is taken. -/
def repeated (f : FunctionDecl) : SlotTaken :=
  { slot := .overload, owner := f.ownerName, member := some f.mangledName }

theorem add_of_mem {t : FunctionTable} {f : FunctionDecl}
    (h : f.mangledName ∈ (t.named f.name).map (·.mangledName)) :
    (t.add f).rejection = some (repeated f) := by
  rw [named] at h
  cases hget : t.overloads.get? f.name with
  | none => simp [hget] at h
  | some set =>
      have hfind : (set.find? f.mangledName).isSome := by
        simpa [hget, OverloadSet.find?, List.find?_isSome] using h
      simp [add, hget, OverloadSet.add, hfind, repeated]

theorem add_of_not_mem {t : FunctionTable} {f : FunctionDecl}
    (h : f.mangledName ∉ (t.named f.name).map (·.mangledName)) :
    (t.add f).rejection = none ∧ (t.add f).after.named f.name = t.named f.name ++ [f] := by
  have hfind : (((t.overloads.get? f.name).getD (.empty f.name)).find? f.mangledName).isSome =
      false := by
    rw [named] at h
    cases hget : t.overloads.get? f.name with
    | none => rfl
    | some set => simpa [hget, OverloadSet.find?, List.find?_isSome] using h
  have hset : ((t.overloads.get? f.name).getD (.empty f.name)).functions = t.named f.name := by
    rw [named]
    cases t.overloads.get? f.name <;> rfl
  simp [add, OverloadSet.add, hfind, named_insert, hset]

theorem named_replace? {t after : FunctionTable} {name mangledName : String} {new : FunctionDecl}
    (h : t.replace? name mangledName new = some after) (other : String) :
    after.named other = if name = other then
      OverloadSet.replaceFirst mangledName new (t.named name) else t.named other := by
  rw [replace?] at h
  split at h
  · exact absurd h (by simp)
  · rename_i set hget
    split at h
    · obtain rfl := Option.some.inj h
      rw [named_insert]
      simp [OverloadSet.replace, named, hget]
    · exact absurd h (by simp)

theorem named_replace?_of_ne (t : FunctionTable) {name other : String} (mangledName : String)
    (new : FunctionDecl) (h : name ≠ other) :
    ((t.replace? name mangledName new).getD t).named other = t.named other := by
  cases hreplace : t.replace? name mangledName new with
  | none => rfl
  | some after => simp [named_replace? hreplace, h]

/-- A function that is found can be written over. -/
theorem replace?_of_find? {t : FunctionTable} {name mangledName : String} {g : FunctionDecl}
    (h : t.find? name mangledName = some g) (new : FunctionDecl) :
    ∃ after, t.replace? name mangledName new = some after := by
  rw [find?] at h
  obtain ⟨set, hget, hfind⟩ := Option.bind_eq_some_iff.1 h
  refine ⟨⟨t.overloads.insert name (set.replace mangledName new)⟩, ?_⟩
  simp [replace?, hget, hfind]

variable {t : FunctionTable} {f : FunctionDecl}

theorem counterpart?_eq_some {c : FunctionDecl} (h : t.counterpart? f = some c) :
    c ∈ t.named f.name ∧ c.isCounterpartOf f := by
  rw [counterpart?] at h
  exact ⟨List.mem_of_find?_eq_some h, by simpa using List.find?_some h⟩

theorem exists_find?_of_mem {name : String} {g : FunctionDecl} (h : g ∈ t.named name) :
    ∃ first, t.find? name g.mangledName = some first := by
  rw [← Option.isSome_iff_exists, find?_eq_find?_named, List.find?_isSome]
  exact ⟨g, h, by simp⟩

/-- **What filing a static function does.** It is refused, appended, written over the thunk that
waited for it, or linked as the thunk of its canonical function. -/
theorem addStatic_cases (hstatic : ∀ g ∈ t.named f.name, g.isStatic) :
    (t.counterpart? f = none ∧ f.mangledName ∈ (t.named f.name).map (·.mangledName) ∧
      (t.addStatic f).rejection = some (repeated f)) ∨
    (t.counterpart? f = none ∧ f.mangledName ∉ (t.named f.name).map (·.mangledName) ∧
      (t.addStatic f).rejection = none ∧
      (t.addStatic f).after.named f.name = t.named f.name ++ [f]) ∨
    (∃ c, t.counterpart? f = some c ∧ c.isThunk = true ∧
      (t.addStatic f).rejection = none ∧
      (t.addStatic f).after.named f.name =
        OverloadSet.replaceFirst c.mangledName (f.withThunk c.toThunk?) (t.named f.name)) ∨
    (∃ c g, t.counterpart? f = some c ∧ c.isThunk = false ∧
      t.find? f.name c.mangledName = some g ∧
      g.thunk?.map (·.mangledName) = some f.mangledName ∧
      (t.addStatic f).rejection = some (repeated f)) ∨
    (∃ c g, t.counterpart? f = some c ∧ c.isThunk = false ∧
      t.find? f.name c.mangledName = some g ∧
      g.thunk?.map (·.mangledName) ≠ some f.mangledName ∧
      (t.addStatic f).rejection = none ∧
      (t.addStatic f).after.named f.name =
        OverloadSet.replaceFirst c.mangledName (g.withThunk f.toThunk?) (t.named f.name)) := by
  rw [addStatic]
  cases hc : t.counterpart? f with
  | none =>
      by_cases hmem : f.mangledName ∈ (t.named f.name).map (·.mangledName)
      · exact .inl ⟨rfl, hmem, add_of_mem hmem⟩
      · exact .inr (.inl ⟨rfl, hmem, add_of_not_mem hmem⟩)
  | some c =>
      -- what is written over is the first function of the counterpart's mangled name
      obtain ⟨hmem, -⟩ := counterpart?_eq_some hc
      obtain ⟨g, hg⟩ := exists_find?_of_mem hmem
      dsimp only
      cases hthunk : c.isThunk with
      | true =>
          obtain ⟨after, hafter⟩ := replace?_of_find? hg (f.withThunk c.toThunk?)
          refine .inr (.inr (.inl ⟨c, rfl, hthunk, ?_⟩))
          simp [addCanonical, hafter, named_replace? hafter]
      | false =>
          -- only a function that is no static one could not be linked to
          have hgstatic : g.isStatic := by
            rw [find?_eq_find?_named] at hg
            exact hstatic g (List.mem_of_find?_eq_some hg)
          obtain ⟨s, hs⟩ := Option.isSome_iff_exists.1 hgstatic
          obtain ⟨after, hafter⟩ := replace?_of_find? hg (g.withThunk f.toThunk?)
          have hnamed := named_replace? hafter f.name
          rw [if_pos rfl] at hnamed
          cases hlinked : s.thunk with
          | none =>
              refine .inr (.inr (.inr (.inr ⟨c, g, rfl, hthunk, hg, ?_, ?_⟩)))
              · simp [FunctionDecl.thunk?, hs, hlinked]
              · simp [addThunk, hg, hs, hlinked, hafter, hnamed]
          | some old =>
              by_cases hold : old.mangledName = f.mangledName
              · refine .inr (.inr (.inr (.inl ⟨c, g, rfl, hthunk, hg, ?_, ?_⟩)))
                · simp [FunctionDecl.thunk?, hs, hlinked, hold]
                · simp [addThunk, hg, hs, hlinked, hold, repeated]
              · refine .inr (.inr (.inr (.inr ⟨c, g, rfl, hthunk, hg, ?_, ?_⟩)))
                · simp [FunctionDecl.thunk?, hs, hlinked, hold]
                · simp [addThunk, hg, hs, hlinked, hold, hafter, hnamed]

theorem named_add_of_ne {other : String} (h : f.name ≠ other) :
    (t.add f).after.named other = t.named other := by
  simp [add, named_insert, h]

/-- The functions of other names are left alone. -/
theorem named_addStatic_of_ne {other : String} (h : f.name ≠ other) :
    (t.addStatic f).after.named other = t.named other := by
  rw [addStatic]
  split
  · exact named_add_of_ne h
  · split
    · rw [addCanonical, Filed.after_following]
      split
      case h_1 hreplace => simp [named_replace? hreplace, h]
      case h_2 => exact named_add_of_ne (by simpa using h)
    · rw [addThunk]
      split
      · rfl
      · split
        · rfl
        · dsimp only
          split
          · exact named_replace?_of_ne t _ _ h
          · split
            · rfl
            · exact named_replace?_of_ne t _ _ h

/-! ## What a table holds -/

/-- The table holds nothing but these static functions, each with a thunk linked to it or not. A
thunk is held as it came. -/
def HoldsOnly (t : FunctionTable) (fs : List FunctionDecl) : Prop :=
  ∀ name, ∀ g ∈ t.named name, ∃ f ∈ fs, f.name = name ∧ f.isStatic ∧
    ∃ thunk, g = f.withThunk thunk ∧ (f.isThunk → thunk = none)

variable {fs : List FunctionDecl}

theorem empty_holdsOnly : FunctionTable.empty.HoldsOnly [] := by
  intro name g hg
  simp at hg

theorem HoldsOnly.isStatic (h : t.HoldsOnly fs) {name : String} {g : FunctionDecl}
    (hg : g ∈ t.named name) : g.isStatic := by
  obtain ⟨f, -, -, hf, thunk, rfl, -⟩ := h name g hg
  simpa using hf

/-- A function that is held under a mangled name is what was filed under it. -/
theorem HoldsOnly.identifies (h : t.HoldsOnly fs) (hid : FunctionDecl.Identified (fs ++ [f]))
    {name : String} {g : FunctionDecl} (hg : g ∈ t.named name)
    (hmangled : g.mangledName = f.mangledName) :
    name = f.name ∧ g.isThunk = f.isThunk := by
  obtain ⟨filed, hfiled, hname, -, thunk, rfl, -⟩ := h name g hg
  obtain ⟨-, hsame, herase⟩ := hid filed (by simp [hfiled]) f (by simp) (by simpa using hmangled)
  exact ⟨hname ▸ hsame, by simpa using FunctionDecl.isThunk_of_erase_eq herase⟩

/-- Functions held under one mangled name have the same counterparts. -/
theorem HoldsOnly.isCounterpartOf_congr (h : t.HoldsOnly fs) (hid : FunctionDecl.Identified fs)
    {name : String} {a b : FunctionDecl} (ha : a ∈ t.named name) (hb : b ∈ t.named name)
    (hmangled : a.mangledName = b.mangledName) (k : FunctionDecl) :
    a.isCounterpartOf k = b.isCounterpartOf k := by
  obtain ⟨a, hfa, -, -, _, rfl, -⟩ := h name a ha
  obtain ⟨b, hfb, -, -, _, rfl, -⟩ := h name b hb
  obtain ⟨howner, hname, herase⟩ := hid a hfa b hfb (by simpa using hmangled)
  simp [FunctionDecl.isCounterpartOf_of_identified howner hname herase k]

/-- The first element that has a property is the first of a weaker property too, if that one has
the stronger property. -/
theorem find?_eq_of_imp {α : Type} {p q : α → Bool} {l : List α} {a b : α}
    (ha : l.find? p = some a) (hb : l.find? q = some b) (hqa : q a)
    (himp : ∀ x ∈ l, q x → p x) : b = a := by
  induction l with
  | nil => simp at ha
  | cons x rest ih =>
      by_cases hqx : q x
      · have hpx := himp x (by simp) hqx
        rw [List.find?_cons_of_pos hpx] at ha
        rw [List.find?_cons_of_pos hqx] at hb
        exact Option.some.inj (hb.symm.trans ha)
      · have hpx : ¬ p x := by
          intro hpx
          rw [List.find?_cons_of_pos hpx] at ha
          exact hqx (Option.some.inj ha ▸ hqa)
        rw [List.find?_cons_of_neg hpx] at ha
        rw [List.find?_cons_of_neg hqx] at hb
        exact ih ha hb fun y hy => himp y (List.mem_cons_of_mem _ hy)

/-- The counterpart that is found for a function is found again by its mangled name. -/
theorem HoldsOnly.find?_counterpart (h : t.HoldsOnly fs) (hid : FunctionDecl.Identified fs)
    {c g : FunctionDecl} (hc : t.counterpart? f = some c)
    (hg : t.find? f.name c.mangledName = some g) : g = c := by
  obtain ⟨hmem, hcounterpart⟩ := counterpart?_eq_some hc
  rw [find?_eq_find?_named] at hg
  refine find?_eq_of_imp hc hg (by simp) fun x hx hmangled => ?_
  rw [h.isCounterpartOf_congr hid hx hmem (by simpa using hmangled)]
  exact hcounterpart

/-- What is held after filing a static function was held before, or it is that function, alone or
with the thunk that waited for it, or it is the canonical function that was found for a thunk, with
that thunk linked to it. -/
theorem HoldsOnly.mem_addStatic (h : t.HoldsOnly fs) (hid : FunctionDecl.Identified fs)
    {name : String} {g : FunctionDecl} (hg : g ∈ (t.addStatic f).after.named name) :
    g ∈ t.named name ∨ name = f.name ∧ (g = f ∨
      ∃ c ∈ t.named f.name, c.isCounterpartOf f ∧
        (c.isThunk = true ∧ g = f.withThunk c.toThunk? ∨
          c.isThunk = false ∧ g = c.withThunk f.toThunk?)) := by
  by_cases hname : f.name = name
  case neg =>
      rw [named_addStatic_of_ne hname] at hg
      exact .inl hg
  subst hname
  rcases addStatic_cases (t := t) (f := f) (fun g hg => h.isStatic hg) with
    ⟨-, -, hrefused⟩ | ⟨-, -, -, hnamed⟩ | ⟨c, hc, hthunk, -, hnamed⟩ |
    ⟨_, _, -, -, -, -, hrefused⟩ | ⟨c, linked, hc, hthunk, hfind, -, -, hnamed⟩
  · rw [t.addStatic_keeps f (by simp [hrefused])] at hg
    exact .inl hg
  · rw [hnamed] at hg
    refine (List.mem_append.1 hg).imp_right fun hnew => ⟨rfl, .inl ?_⟩
    exact List.mem_singleton.1 hnew
  · obtain ⟨hmem, hcounterpart⟩ := counterpart?_eq_some hc
    rw [hnamed] at hg
    refine (OverloadSet.mem_replaceFirst hg).symm.imp_right fun hnew => ⟨rfl, .inr ?_⟩
    exact ⟨c, hmem, hcounterpart, .inl ⟨hthunk, hnew⟩⟩
  · rw [t.addStatic_keeps f (by simp [hrefused])] at hg
    exact .inl hg
  · -- what is found by the mangled name of the counterpart is the counterpart
    obtain rfl := h.find?_counterpart hid hc hfind
    obtain ⟨hmem, hcounterpart⟩ := counterpart?_eq_some hc
    rw [hnamed] at hg
    refine (OverloadSet.mem_replaceFirst hg).symm.imp_right fun hnew => ⟨rfl, .inr ?_⟩
    exact ⟨linked, hmem, hcounterpart, .inr ⟨hthunk, hnew⟩⟩

/-- Filing a bare static function keeps the table to what was filed. -/
theorem HoldsOnly.addStatic (h : t.HoldsOnly fs) (hid : FunctionDecl.Identified fs)
    (hf : f.isStatic) (hbare : f.thunk? = none) :
    (t.addStatic f).after.HoldsOnly (fs ++ [f]) := by
  have hkeep : t.HoldsOnly (fs ++ [f]) := by
    intro name g hg
    obtain ⟨filed, hfiled, hrest⟩ := h name g hg
    exact ⟨filed, by simp [hfiled], hrest⟩
  intro name g hg
  rcases h.mem_addStatic hid hg with
    hold | ⟨rfl, rfl | ⟨c, hc, hcounterpart, ⟨hthunk, rfl⟩ | ⟨hthunk, rfl⟩⟩⟩
  · exact hkeep name g hold
  · refine ⟨g, by simp, rfl, hf, none, ?_, fun _ => rfl⟩
    rw [← hbare, FunctionDecl.withThunk_thunk?]
  · have hcanonical : f.isThunk = false := by
      simpa [hthunk] using FunctionDecl.isThunk_of_isCounterpartOf hcounterpart
    exact ⟨f, by simp, rfl, hf, _, rfl, by simp [hcanonical]⟩
  · -- the link changes, the function below it is still the one that was filed
    obtain ⟨filed, hfiled, hsame, hstatic, _, rfl, -⟩ := hkeep f.name c hc
    have hcanonical : filed.isThunk = false := by simpa using hthunk
    exact ⟨filed, hfiled, hsame, hstatic, f.toThunk?, by simp, by simp [hcanonical]⟩

/-- What is held under the mangled name of `f` is held under the name of `f`. -/
theorem HoldsOnly.holds_iff (h : t.HoldsOnly fs) (hid : FunctionDecl.Identified (fs ++ [f])) :
    t.Holds f.mangledName ↔ f.mangledName ∈ (t.named f.name).map (·.mangledName) := by
  constructor
  · rintro ⟨name, g, hg, hmangled⟩
    obtain ⟨rfl, -⟩ := h.identifies hid hg hmangled
    exact List.mem_map.2 ⟨g, hg, hmangled⟩
  · intro hmem
    obtain ⟨g, hg, hmangled⟩ := List.mem_map.1 hmem
    exact ⟨f.name, g, hg, hmangled⟩

/-- A thunk that is held has no thunk of its own. -/
theorem HoldsOnly.thunk?_of_isThunk (h : t.HoldsOnly fs) {name : String} {g : FunctionDecl}
    (hg : g ∈ t.named name) (hthunk : g.isThunk) : g.thunk? = none := by
  obtain ⟨filed, -, -, hstatic, thunk, rfl, hnone⟩ := h name g hg
  rw [FunctionDecl.thunk?_withThunk _ _ hstatic]
  exact hnone (by simpa using hthunk)

end FunctionTable

end SwiftSurface
