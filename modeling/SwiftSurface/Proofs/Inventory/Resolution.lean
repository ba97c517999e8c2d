import SwiftSurface.Proofs.Inventory.Callables

/-!
# Runs of one callable

In a run of one callable every function meets every other one: all of them are its thunks or its
canonical functions. `Resolution` says what a step of such a run can do, `resolution_addStatic` that
every step is one of these; what is said about runs of one callable follows by induction on the run,
with a case for each constructor.
-/

namespace SwiftSurface

open FunctionDecl

variable {f g : FunctionDecl} {fs : List FunctionDecl} {k : Callable}

/-- What a static function can do to the functions of its callable, and whether it is refused. -/
inductive Resolution (f : FunctionDecl) : List FunctionDecl → Bool → List FunctionDecl → Prop where
  /-- There is no counterpart, and the mangled name is there. -/
  | repeats {fs : List FunctionDecl} (hsame : ∀ g ∈ fs, g.isThunk = f.isThunk)
      (hheld : f.mangledName ∈ fs.map (·.mangledName)) : Resolution f fs true fs
  /-- There is no counterpart, and the mangled name is new. -/
  | waits {fs : List FunctionDecl} (hsame : ∀ g ∈ fs, g.isThunk = f.isThunk)
      (hnew : f.mangledName ∉ fs.map (·.mangledName)) : Resolution f fs false (fs ++ [f])
  /-- A canonical function takes the place of the first thunk and carries it. -/
  | replaces {before after : List FunctionDecl} {c : FunctionDecl}
      (hcanonical : f.isThunk = false) (hc : c.isThunk = true)
      (hbefore : ∀ g ∈ before, g.isThunk = false) :
      Resolution f (before ++ c :: after) false (before ++ f.withThunk c.toThunk? :: after)
  /-- The first canonical function carries this thunk already. -/
  | isLinked {before after : List FunctionDecl} {c : FunctionDecl}
      (hthunk : f.isThunk = true) (hc : c.isThunk = false)
      (hbefore : ∀ g ∈ before, g.isThunk = true)
      (hlink : c.thunk?.map (·.mangledName) = some f.mangledName) :
      Resolution f (before ++ c :: after) true (before ++ c :: after)
  /-- A thunk is linked to the first canonical function. -/
  | links {before after : List FunctionDecl} {c : FunctionDecl}
      (hthunk : f.isThunk = true) (hc : c.isThunk = false)
      (hbefore : ∀ g ∈ before, g.isThunk = true)
      (hlink : c.thunk?.map (·.mangledName) ≠ some f.mangledName) :
      Resolution f (before ++ c :: after) false (before ++ c.withThunk f.toThunk? :: after)

/-- Apart from linked thunks, a step holds what was there and the function that was filed. -/
theorem Resolution.of_mem {fs' : List FunctionDecl} {refused : Bool}
    (h : Resolution f fs refused fs') (hg : g ∈ fs') :
    ∃ f' ∈ fs ++ [f], ∃ thunk, g = f'.withThunk thunk := by
  have hkept (hg : g ∈ fs ++ [f]) : ∃ f' ∈ fs ++ [f], ∃ thunk, g = f'.withThunk thunk :=
    ⟨g, hg, g.thunk?, g.withThunk_thunk?.symm⟩
  cases h with
  | repeats => exact hkept (List.mem_append_left _ hg)
  | waits => exact hkept hg
  | isLinked => exact hkept (List.mem_append_left _ hg)
  | @replaces before after c =>
      rcases List.mem_append.1 hg with hb | ha
      · exact hkept (by simp [hb])
      · rcases List.mem_cons.1 ha with rfl | ha
        · exact ⟨f, by simp, _, rfl⟩
        · exact hkept (by simp [ha])
  | @links before after c =>
      rcases List.mem_append.1 hg with hb | ha
      · exact hkept (by simp [hb])
      · rcases List.mem_cons.1 ha with rfl | ha
        · exact ⟨c, by simp, _, rfl⟩
        · exact hkept (by simp [ha])

/-! ## Steps from at most one function -/

namespace Resolution

variable {e : FunctionDecl} {held after : List FunctionDecl} {refused : Bool}

/-- The place that a step in a single function is about is this function. -/
theorem eq_of_singleton {before after : List FunctionDecl} {c : FunctionDecl}
    (h : [e] = before ++ c :: after) : before = [] ∧ c = e ∧ after = [] := by
  cases before with
  | nil => simp_all
  | cons => simp at h

theorem of_nil (h : Resolution f held refused after) (hheld : held = []) :
    after = [f] ∧ refused = false := by
  cases h <;> simp_all

/-- A function that meets its counterpart alone is not refused: the canonical one of the two stays
and carries the other, unless it carries it already. -/
theorem of_counterpart (h : Resolution f held refused after) (hheld : held = [e])
    (hother : e.isThunk ≠ f.isThunk) :
    (f.isThunk = false ∧ after = [f.withThunk e.toThunk?] ∧ refused = false) ∨
      (f.isThunk = true ∧ after = [e.withThunk f.toThunk?] ∧ refused = false) ∨
      (f.isThunk = true ∧ after = [e] ∧ e.thunk?.map (·.mangledName) = some f.mangledName) := by
  cases h with
  | repeats hsame | waits hsame => exact absurd (hsame e (by simp [hheld])) hother
  | replaces hcanonical =>
      obtain ⟨rfl, rfl, rfl⟩ := eq_of_singleton hheld.symm
      exact .inl ⟨hcanonical, rfl, rfl⟩
  | isLinked hthunk _ _ hlink =>
      obtain ⟨rfl, rfl, rfl⟩ := eq_of_singleton hheld.symm
      exact .inr (.inr ⟨hthunk, rfl, hlink⟩)
  | links hthunk =>
      obtain ⟨rfl, rfl, rfl⟩ := eq_of_singleton hheld.symm
      exact .inr (.inl ⟨hthunk, rfl, rfl⟩)

/-- A function that comes again without a counterpart changes nothing. -/
theorem of_repeated (h : Resolution f held refused after)
    (hsame : ∀ g ∈ held, g.isThunk = f.isThunk)
    (hheld : f.mangledName ∈ held.map (·.mangledName)) : after = held := by
  cases h with
  | repeats | isLinked => rfl
  | waits _ hnew => exact absurd hheld hnew
  | replaces hcanonical hc => simp [hsame, hcanonical] at hc
  | links hthunk hc => simp [hsame, hthunk] at hc

end Resolution

/-! ## Every step is one of these -/

/-- In these declarations of one callable the mangled name tells thunks from canonical functions. -/
structure Callable.Declares (k : Callable) (fs : List FunctionDecl) : Prop where
  callable : ∀ f ∈ fs, f.callable? = some k
  isThunk : ∀ f ∈ fs, ∀ g ∈ fs, f.mangledName = g.mangledName → f.isThunk = g.isThunk

theorem Callable.Declares.of_subset {gs : List FunctionDecl} (h : k.Declares gs) (hsub : fs ⊆ gs) :
    k.Declares fs :=
  ⟨fun f hf => h.callable f (hsub hf), fun f hf g hg => h.isThunk f (hsub hf) g (hsub hg)⟩

theorem Callable.Declares.isStatic (h : k.Declares fs) (hf : f ∈ fs) : f.isStatic := by
  rw [← isSome_callable?, h.callable f hf]
  rfl

/-- Linking thunks keeps what tells thunks from canonical functions. -/
theorem Callable.Declares.of_linked {gs : List FunctionDecl} (h : k.Declares fs)
    (hgs : ∀ g ∈ gs, ∃ f ∈ fs, ∃ thunk, g = f.withThunk thunk) : k.Declares gs := by
  constructor
  · intro g hg
    obtain ⟨f, hf, thunk, rfl⟩ := hgs g hg
    simpa using h.callable f hf
  · intro g hg g' hg' hmangled
    obtain ⟨f, hf, thunk, rfl⟩ := hgs g hg
    obtain ⟨f', hf', thunk', rfl⟩ := hgs g' hg'
    simpa using h.isThunk f hf f' hf' (by simpa using hmangled)

namespace OverloadSet

/-- The first function of a mangled name is written over where it stands. -/
theorem replaceFirst_append {before after : List FunctionDecl} {c : FunctionDecl}
    (new : FunctionDecl) (h : ∀ g ∈ before, g.mangledName ≠ c.mangledName) :
    replaceFirst c.mangledName new (before ++ c :: after) = before ++ new :: after := by
  induction before with
  | nil => simp [replaceFirst]
  | cons g before ih =>
      have hg := h g (by simp)
      simp [replaceFirst, hg, ih fun x hx => h x (List.mem_cons_of_mem _ hx)]

variable {set : OverloadSet}

/-- Filing a static function in a list of its callable is one of the steps of `Resolution`. -/
theorem resolution_addStatic (h : k.Declares (set.functions ++ [f])) :
    Resolution f set.functions (set.addStatic f).rejection.isSome
      (set.addStatic f).after.functions := by
  have hcounterpart {g : FunctionDecl} (hg : g ∈ set.functions) :
      g.isCounterpartOf f ↔ g.isThunk ≠ f.isThunk := by
    rw [isCounterpartOf_iff (h.callable f (by simp))]
    simp [h.callable g (by simp [hg])]
  rw [addStatic]
  cases hfind : set.functions.find? (·.isCounterpartOf f) with
  | none =>
      have hsame : ∀ g ∈ set.functions, g.isThunk = f.isThunk := by
        intro g hg
        have hnone := List.find?_eq_none.1 hfind g hg
        rw [hcounterpart hg] at hnone
        exact not_not.1 hnone
      simp only [add]
      split
      case isTrue hheld =>
          refine .repeats hsame ?_
          simpa [find?, List.find?_isSome] using hheld
      case isFalse hnew =>
          refine .waits hsame ?_
          simpa [find?, List.find?_isSome] using hnew
  | some c =>
      obtain ⟨hc, before, after, hsplit, hbefore⟩ := List.find?_eq_some_iff_append.1 hfind
      have hmem : c ∈ set.functions := List.mem_of_find?_eq_some hfind
      have hcthunk := (hcounterpart hmem).1 hc
      have hsame : ∀ g ∈ before, g.isThunk = f.isThunk := by
        intro g hg
        have hnone := hbefore g hg
        rw [Bool.not_eq_true', ← Bool.not_eq_true, hcounterpart (by simp [hsplit, hg])] at hnone
        exact not_not.1 hnone
      -- so no function before the counterpart has its mangled name
      have hother : ∀ g ∈ before, g.mangledName ≠ c.mangledName := by
        intro g hg hmangled
        have := h.isThunk g (by simp [hsplit, hg]) c (by simp [hmem]) hmangled
        exact hcthunk (this.symm.trans (hsame g hg))
      have hheld : set.find? c.mangledName = some c := by
        rw [find?, hsplit, List.find?_append, List.find?_eq_none.2 (by simpa using hother)]
        simp
      have hreplace (new : FunctionDecl) :
          (set.replace c.mangledName new).functions = before ++ new :: after := by
        rw [replace, hsplit, replaceFirst_append new hother]
      dsimp only
      cases hthunk : f.isThunk with
      | false =>
          have hc : c.isThunk = true := by simpa [hthunk] using hcthunk
          simp only [hc, if_true, hreplace]
          rw [hsplit]
          exact .replaces hthunk hc (by simpa [hthunk] using hsame)
      | true =>
          have hc : c.isThunk = false := by simpa [hthunk] using hcthunk
          have hthunks : ∀ g ∈ before, g.isThunk = true := by simpa [hthunk] using hsame
          have hstatic : c.isStatic := h.isStatic (by simp [hmem])
          obtain ⟨s, hs⟩ := Option.isSome_iff_exists.1 hstatic
          simp only [hc, Bool.false_eq_true, if_false, hheld, hs]
          split
          case isTrue hlink =>
              show Resolution f set.functions true set.functions
              rw [hsplit]
              exact .isLinked hthunk hc hthunks (by simpa [thunk?, hs] using hlink)
          case isFalse hlink =>
              rw [hreplace, hsplit]
              exact .links hthunk hc hthunks (by simpa [thunk?, hs] using hlink)

end OverloadSet

/-! ## Runs -/

namespace Callable

/-- What a run holds, and the next function, are linked from what was filed. -/
theorem linked_concat (h : ∀ g ∈ (k.resolve fs).functions, ∃ f ∈ fs, ∃ thunk, g = f.withThunk thunk)
    (f : FunctionDecl) :
    ∀ g ∈ (k.resolve fs).functions ++ [f], ∃ f' ∈ fs ++ [f], ∃ thunk, g = f'.withThunk thunk := by
  intro g hg
  rcases List.mem_append.1 hg with hold | hnew
  · obtain ⟨f', hf', hlinked⟩ := h g hold
    exact ⟨f', by simp [hf'], hlinked⟩
  · exact ⟨g, List.mem_append_right _ hnew, g.thunk?, g.withThunk_thunk?.symm⟩

/-- Apart from linked thunks, a run holds only what was filed. -/
theorem of_mem_resolve (h : k.Declares fs) :
    ∀ g ∈ (k.resolve fs).functions, ∃ f ∈ fs, ∃ thunk, g = f.withThunk thunk := by
  induction fs using List.reverseRecOn with
  | nil => simp [resolve, OverloadSet.empty]
  | append_singleton fs f ih =>
      intro g hg
      have hlinked := linked_concat (ih (h.of_subset (by simp))) f
      have hstep := OverloadSet.resolution_addStatic (h.of_linked hlinked)
      rw [resolve_concat] at hg
      obtain ⟨g', hg', thunk, rfl⟩ := hstep.of_mem hg
      obtain ⟨f', hf', thunk', rfl⟩ := hlinked g' hg'
      exact ⟨f', hf', thunk, by simp⟩

/-- The step of a run that files `f`. -/
theorem resolution_resolve (h : k.Declares (fs ++ [f])) :
    Resolution f (k.resolve fs).functions ((k.resolve fs).addStatic f).rejection.isSome
      (k.resolve (fs ++ [f])).functions := by
  have hbefore := h.of_subset (List.subset_append_left fs [f])
  have hlinked := linked_concat (of_mem_resolve hbefore) f
  rw [resolve_concat]
  exact OverloadSet.resolution_addStatic (h.of_linked hlinked)

end Callable

end SwiftSurface
