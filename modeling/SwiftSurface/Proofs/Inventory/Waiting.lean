import Mathlib.Data.List.Dedup
import Mathlib.Data.List.TakeWhile
import SwiftSurface.Declaration.Sample
import SwiftSurface.Proofs.Inventory.Resolution

/-!
# Thunks that wait

A thunk that comes before the canonical function of its callable waits as an entry of its own. When
a canonical function comes, the first waiting thunk gives way to it, and only this one; thunks that
come later are linked. So after a run as many thunks still wait as waited when the first canonical
function came, less one for each canonical function that came (`countP_isThunk_resolve`).

A canonical function and its thunks are therefore one entry just if at most one thunk waited when it
came (`staticFunctions_resolved_iff`).
-/

namespace SwiftSurface

variable {f g : FunctionDecl} {fs held after : List FunctionDecl} {k : Callable} {refused : Bool}

/-! ## Counting arrivals -/

namespace FunctionDecl

/-- How many thunks wait when the first canonical function of the list comes: the mangled names of
the thunks before it. -/
def waiting (fs : List FunctionDecl) : Nat :=
  ((fs.takeWhile (·.isThunk)).map (·.mangledName)).dedup.length

/-- How many canonical functions the list has. -/
def canonicals (fs : List FunctionDecl) : Nat :=
  fs.countP (!·.isThunk)

theorem waiting_of_thunks (h : ∀ g ∈ fs, g.isThunk = true) :
    waiting fs = (fs.map (·.mangledName)).dedup.length := by
  rw [waiting, List.takeWhile_eq_self_iff.2 h]

/-- Without a canonical function before it, the last function is the first canonical one. -/
theorem canonical_of_concat (h : ∃ g ∈ fs ++ [f], g.isThunk = false)
    (hearlier : ¬ ∃ g ∈ fs, g.isThunk = false) : f.isThunk = false := by
  obtain ⟨g, hg, hgcanonical⟩ := h
  rcases List.mem_append.1 hg with hold | hnew
  · exact absurd ⟨g, hold, hgcanonical⟩ hearlier
  · exact List.mem_singleton.1 hnew ▸ hgcanonical

/-- No thunk comes to wait once a canonical function is there. -/
theorem waiting_concat (f : FunctionDecl) (h : ∃ g ∈ fs, g.isThunk = false) :
    waiting (fs ++ [f]) = waiting fs := by
  suffices htake : (fs ++ [f]).takeWhile (·.isThunk) = fs.takeWhile (·.isThunk) by
    rw [waiting, waiting, htake]
  induction fs with
  | nil => simp at h
  | cons g rest ih =>
      cases hg : g.isThunk with
      | false => simp [hg]
      | true =>
          have hrest : ∃ g ∈ rest, g.isThunk = false := by simpa [hg] using h
          simp [hg, ih hrest]

theorem waiting_concat_canonical (fs : List FunctionDecl) (h : f.isThunk = false) :
    waiting (fs ++ [f]) = waiting fs := by
  by_cases hcanonical : ∃ g ∈ fs, g.isThunk = false
  · exact waiting_concat f hcanonical
  · have hthunks : ∀ g ∈ fs, g.isThunk = true := by simpa using hcanonical
    rw [waiting_of_thunks hthunks, waiting, List.takeWhile_append_of_pos hthunks]
    simp [h]

end FunctionDecl

open FunctionDecl

/-! ## Steps -/

namespace Resolution

/-- There is a canonical function once one has come. -/
theorem exists_canonical_iff (h : Resolution f held refused after) :
    (∃ g ∈ after, g.isThunk = false) ↔ f.isThunk = false ∨ ∃ g ∈ held, g.isThunk = false := by
  cases h with
  | repeats hsame hheld =>
      obtain ⟨g, hg, -⟩ := List.mem_map.1 hheld
      refine ⟨.inr, fun h => h.elim (fun hf => ⟨g, hg, ?_⟩) id⟩
      rw [hsame g hg, hf]
  | waits => simp [or_and_right, exists_or, or_comm]
  | @replaces before after c hcanonical =>
      exact iff_of_true ⟨f.withThunk c.toThunk?, by simp, by simpa using hcanonical⟩
        (.inl hcanonical)
  | isLinked hthunk => simp [hthunk]
  | @links before after c hthunk hc =>
      exact iff_of_true ⟨c.withThunk f.toThunk?, by simp, by simpa using hc⟩
        (.inr ⟨c, by simp, hc⟩)

/-- A thunk that comes to thunks waits with them, unless it waits already. -/
theorem mangledNames_of_thunks (h : Resolution f held refused after) (hf : f.isThunk = true)
    (hheld : ∀ g ∈ held, g.isThunk = true) (hnodup : (held.map (·.mangledName)).Nodup) :
    (after.map (·.mangledName)).Nodup ∧
      ∀ n, n ∈ after.map (·.mangledName) ↔ n ∈ held.map (·.mangledName) ∨ n = f.mangledName := by
  cases h with
  | repeats _ hmem =>
      refine ⟨hnodup, fun n => ⟨.inl, fun hn => hn.elim id ?_⟩⟩
      rintro rfl
      exact hmem
  | waits _ hnew =>
      refine ⟨?_, fun n => by simp⟩
      rw [List.map_append, List.nodup_append]
      simpa [hnodup] using hnew
  | replaces hcanonical => simp [hf] at hcanonical
  | isLinked _ hc => simp [hheld] at hc
  | links _ hc => simp [hheld] at hc

/-- A canonical function takes the place of one thunk, if one waits. -/
theorem countP_of_canonical (h : Resolution f held refused after) (hf : f.isThunk = false) :
    after.countP (·.isThunk) = held.countP (·.isThunk) - 1 := by
  have hnone (hsame : ∀ g ∈ held, g.isThunk = f.isThunk) : held.countP (·.isThunk) = 0 := by
    simpa [List.countP_eq_zero, hf] using hsame
  cases h with
  | repeats hsame => simp [hnone hsame]
  | waits hsame => simp [hnone hsame, hf]
  | replaces _ hc => simp [hf, hc, ← Nat.add_assoc]
  | isLinked hthunk | links hthunk => simp [hf] at hthunk

/-- A thunk that comes to a canonical function does not wait. -/
theorem countP_of_thunk (h : Resolution f held refused after) (hf : f.isThunk = true)
    (hcanonical : ∃ g ∈ held, g.isThunk = false) :
    after.countP (·.isThunk) = held.countP (·.isThunk) := by
  obtain ⟨g, hg, hgcanonical⟩ := hcanonical
  cases h with
  | repeats => rfl
  | waits hsame => simp [hsame g hg, hf] at hgcanonical
  | replaces hcanonical => simp [hf] at hcanonical
  | isLinked => rfl
  | links _ hc => simp [hc]

theorem length_le (h : Resolution f held refused after) : held.length ≤ after.length := by
  cases h <;> simp

end Resolution

/-! ## Runs -/

namespace Callable

theorem exists_canonical_resolve_iff (h : k.Declares fs) :
    (∃ g ∈ (k.resolve fs).functions, g.isThunk = false) ↔ ∃ f ∈ fs, f.isThunk = false := by
  induction fs using List.reverseRecOn with
  | nil => simp [resolve, OverloadSet.empty]
  | append_singleton fs f ih =>
      rw [(resolution_resolve h).exists_canonical_iff, ih (h.of_subset (by simp))]
      simp [or_and_right, exists_or, or_comm]

/-- Until a canonical function comes, each thunk that came waits once. -/
theorem mangledNames_resolve_of_thunks (h : k.Declares fs) (hthunks : ∀ f ∈ fs, f.isThunk = true) :
    ((k.resolve fs).functions.map (·.mangledName)).Nodup ∧
      ∀ n, n ∈ (k.resolve fs).functions.map (·.mangledName) ↔ n ∈ fs.map (·.mangledName) := by
  induction fs using List.reverseRecOn with
  | nil => simp [resolve, OverloadSet.empty]
  | append_singleton fs f ih =>
      have hbefore := h.of_subset (List.subset_append_left fs [f])
      obtain ⟨hnodup, hmem⟩ := ih hbefore fun g hg => hthunks g (by simp [hg])
      have hheld : ∀ g ∈ (k.resolve fs).functions, g.isThunk = true := by
        intro g hg
        obtain ⟨f', hf', thunk, rfl⟩ := of_mem_resolve hbefore g hg
        simpa using hthunks f' (by simp [hf'])
      obtain ⟨hnodup', hmem'⟩ :=
        (resolution_resolve h).mangledNames_of_thunks (hthunks f (by simp)) hheld hnodup
      refine ⟨hnodup', fun n => ?_⟩
      rw [hmem' n, hmem n]
      simp

theorem length_resolve_of_thunks (h : k.Declares fs) (hthunks : ∀ f ∈ fs, f.isThunk = true) :
    (k.resolve fs).functions.length = waiting fs := by
  obtain ⟨hnodup, hmem⟩ := mangledNames_resolve_of_thunks h hthunks
  have hperm : ((k.resolve fs).functions.map (·.mangledName)).Perm
      (fs.map (·.mangledName)).dedup := by
    rw [List.perm_ext_iff_of_nodup hnodup (List.nodup_dedup _)]
    simpa using hmem
  rw [waiting_of_thunks hthunks, ← hperm.length_eq, List.length_map]

/-- As many thunks wait after a run as waited when the first canonical function came, less one for
each canonical function that came. -/
theorem countP_isThunk_resolve (h : k.Declares fs) :
    (k.resolve fs).functions.countP (·.isThunk) = waiting fs - canonicals fs := by
  induction fs using List.reverseRecOn with
  | nil => rfl
  | append_singleton fs f ih =>
      have hbefore := h.of_subset (List.subset_append_left fs [f])
      have hstep := resolution_resolve h
      cases hf : f.isThunk with
      | false =>
          rw [hstep.countP_of_canonical hf, ih hbefore, waiting_concat_canonical fs hf]
          simp [canonicals, hf]
          omega
      | true =>
          by_cases hcanonical : ∃ g ∈ fs, g.isThunk = false
          · have hheld := (exists_canonical_resolve_iff hbefore).2 hcanonical
            rw [hstep.countP_of_thunk hf hheld, ih hbefore, waiting_concat f hcanonical]
            simp [canonicals, hf]
          · have hthunks : ∀ g ∈ fs ++ [f], g.isThunk = true := by
              simpa [or_imp, forall_and, hf] using hcanonical
            have hnone : canonicals (fs ++ [f]) = 0 := by
              rw [canonicals, List.countP_eq_zero]
              simpa using hthunks
            rw [hnone, Nat.sub_zero, ← length_resolve_of_thunks h hthunks,
              List.countP_eq_length]
            intro g hg
            obtain ⟨f', hf', thunk, rfl⟩ := of_mem_resolve h g hg
            simpa using hthunks f' hf'

/-- The result has at least one entry for each thunk that waited. -/
theorem waiting_le_length_resolve (h : k.Declares fs) :
    waiting fs ≤ (k.resolve fs).functions.length := by
  by_cases hcanonical : ∃ f ∈ fs, f.isThunk = false
  case neg => exact (length_resolve_of_thunks h (by simpa using hcanonical)).ge
  induction fs using List.reverseRecOn with
  | nil => simp at hcanonical
  | append_singleton fs f ih =>
      have hbefore := h.of_subset (List.subset_append_left fs [f])
      have hlonger := (resolution_resolve h).length_le
      by_cases hearlier : ∃ g ∈ fs, g.isThunk = false
      · rw [waiting_concat f hearlier]
        exact (ih hbefore hearlier).trans hlonger
      · have hf := canonical_of_concat hcanonical hearlier
        rw [waiting_concat_canonical fs hf,
          ← length_resolve_of_thunks hbefore (by simpa using hearlier)]
        exact hlonger

/-! ### One entry for a function and its thunks -/

/-- Of the functions that were filed there is one entry, the canonical function of this mangled
name, which carries a thunk just if one came. -/
def ResolvesTo (mangledName : String) (filed entries : List FunctionDecl) : Prop :=
  ∃ e, entries = [e] ∧ e.mangledName = mangledName ∧ e.isThunk = false ∧
    (e.thunk?.isSome ↔ ∃ g ∈ filed, g.isThunk = true)

/-- The first canonical function is the only entry if at most one thunk waits for it. -/
theorem resolvesTo_of_first (h : k.Declares (fs ++ [f])) (hbare : f.thunk? = none)
    (hthunks : ∀ g ∈ fs, g.isThunk = true) (hf : f.isThunk = false) (hwaiting : waiting fs ≤ 1) :
    ResolvesTo f.mangledName (fs ++ [f]) (k.resolve (fs ++ [f])).functions := by
  have hbefore := h.of_subset (List.subset_append_left fs [f])
  have hstep := resolution_resolve h
  rw [← length_resolve_of_thunks hbefore hthunks] at hwaiting
  cases hheld : (k.resolve fs).functions with
  | nil =>
      have hnone : ¬ ∃ g ∈ fs ++ [f], g.isThunk = true := by
        rintro ⟨g, hg, hgthunk⟩
        rcases List.mem_append.1 hg with hold | hnew
        · -- a thunk that came would wait
          have hwaits := (mangledNames_resolve_of_thunks hbefore hthunks).2 g.mangledName
          rw [hheld] at hwaits
          simpa using hwaits.2 (List.mem_map_of_mem hold)
        · simp [List.mem_singleton.1 hnew, hf] at hgthunk
      refine ⟨f, (hstep.of_nil hheld).1, rfl, hf, iff_of_false ?_ hnone⟩
      simp [hbare]
  | cons c rest =>
      obtain rfl : rest = [] := by simpa [hheld] using hwaiting
      obtain ⟨c', hc', thunk, hlinked⟩ := of_mem_resolve hbefore c (by simp [hheld])
      have hc : c.isThunk = true := by
        rw [hlinked, isThunk_withThunk]
        exact hthunks c' hc'
      have hcstatic : c.isStatic := by
        rw [hlinked, isStatic_withThunk]
        exact h.isStatic (by simp [hc'])
      rcases hstep.of_counterpart hheld (by simp [hc, hf]) with
        ⟨-, hafter, -⟩ | ⟨hthunk, -⟩ | ⟨hthunk, -⟩
      · have hcame : ∃ g ∈ fs ++ [f], g.isThunk = true := ⟨c', by simp [hc'], hthunks c' hc'⟩
        refine ⟨_, hafter, by simp, by simpa using hf, iff_of_true ?_ hcame⟩
        rw [thunk?_withThunk _ _ (h.isStatic (by simp)), isSome_toThunk?]
        exact hcstatic
      · simp [hf] at hthunk
      · simp [hf] at hthunk

/-- The only entry stays the only one: thunks are linked to it, and it is refused when it comes
again. -/
theorem ResolvesTo.concat {mangledName : String} (h : k.Declares (fs ++ [f]))
    (hheld : ResolvesTo mangledName fs (k.resolve fs).functions)
    (hname : f.isThunk = false → f.mangledName = mangledName) :
    ResolvesTo mangledName (fs ++ [f]) (k.resolve (fs ++ [f])).functions := by
  obtain ⟨e, he, rfl, hecanonical, hethunk⟩ := hheld
  have hstep := resolution_resolve h
  cases hf : f.isThunk with
  | false =>
      rw [hstep.of_repeated (by simp [he, hecanonical, hf]) (by simp [he, hname hf]), he]
      exact ⟨e, rfl, rfl, hecanonical, by simpa [hf] using hethunk⟩
  | true =>
      obtain ⟨e', he', thunk, hlinked⟩ :=
        of_mem_resolve (h.of_subset (List.subset_append_left fs [f])) e (by simp [he])
      have hestatic : e.isStatic := by
        rw [hlinked, isStatic_withThunk]
        exact h.isStatic (by simp [he'])
      have hcame : ∃ g ∈ fs ++ [f], g.isThunk = true := ⟨f, by simp, hf⟩
      rcases hstep.of_counterpart he (by simp [hecanonical, hf]) with
        ⟨hcanonical, -⟩ | ⟨-, hafter, -⟩ | ⟨-, hafter, hlink⟩
      · simp [hf] at hcanonical
      · refine ⟨_, hafter, by simp, by simpa using hecanonical, iff_of_true ?_ hcame⟩
        rw [thunk?_withThunk _ _ hestatic, isSome_toThunk?]
        exact h.isStatic (by simp)
      · refine ⟨e, hafter, rfl, hecanonical, iff_of_true ?_ hcame⟩
        cases hthunk : e.thunk? <;> simp [hthunk] at hlink ⊢

/-- A canonical function and its thunks are one entry after a run, just if at most one thunk waited
when it came first. -/
theorem resolvesTo_iff {mangledName : String} (h : k.Declares fs)
    (hbare : ∀ f ∈ fs, f.thunk? = none) (hcanonical : ∃ f ∈ fs, f.isThunk = false)
    (hname : ∀ f ∈ fs, f.isThunk = false → f.mangledName = mangledName) :
    ResolvesTo mangledName fs (k.resolve fs).functions ↔ waiting fs ≤ 1 := by
  constructor
  · rintro ⟨e, he, -⟩
    simpa [he] using waiting_le_length_resolve h
  intro hwaiting
  induction fs using List.reverseRecOn with
  | nil => simp at hcanonical
  | append_singleton fs f ih =>
      have hbefore := h.of_subset (List.subset_append_left fs [f])
      by_cases hearlier : ∃ g ∈ fs, g.isThunk = false
      · rw [waiting_concat f hearlier] at hwaiting
        have hheld := ih hbefore (fun g hg => hbare g (by simp [hg])) hearlier
          (fun g hg => hname g (by simp [hg])) hwaiting
        exact hheld.concat h (hname f (by simp))
      · have hf := canonical_of_concat hcanonical hearlier
        rw [waiting_concat_canonical fs hf] at hwaiting
        rw [← hname f (by simp) hf]
        exact resolvesTo_of_first h (hbare f (by simp)) (by simpa using hearlier) hf hwaiting

end Callable

/-! ## Types -/

/-- No overload set holds a canonical function and a thunk of it. -/
def FunctionTable.Resolved (t : FunctionTable) : Prop :=
  ∀ name, ∀ f ∈ t.named name, ∀ g ∈ t.named name, ¬ g.isCounterpartOf f

theorem Callable.declares_among {gs : List FunctionDecl} (k : Callable) (hid : Identified gs) :
    k.Declares (k.among gs) := by
  constructor
  · intro f hf
    simpa [among] using (List.mem_filter.1 hf).2
  · intro f hf g hg hmangled
    have hsame := hid f (List.mem_filter.1 hf).1 g (List.mem_filter.1 hg).1 hmangled
    exact isThunk_of_erase_eq hsame.2.2

/-- The functions of one callable are resolved if no thunk of them waits, or no canonical function
is there. -/
theorem FunctionTable.resolved_iff {t : FunctionTable} (honly : t.HoldsOnly fs) :
    t.Resolved ↔ ∀ k, (∃ g ∈ (t.entries k).functions, g.isThunk = false) →
      (t.entries k).functions.countP (·.isThunk) = 0 := by
  constructor
  · rintro hresolved k ⟨f, hf, hcanonical⟩
    rw [List.countP_eq_zero]
    intro g hg hthunk
    rw [mem_entries] at hf hg
    refine hresolved k.name f hf.1 g hg.1 ((isCounterpartOf_iff hf.2).2 ⟨hg.2, ?_⟩)
    simp [hcanonical, hthunk]
  · intro hnone name f hf g hg hcounterpart
    obtain ⟨k, hk⟩ := Option.isSome_iff_exists.1 (f.isSome_callable?.trans (honly.isStatic hf))
    obtain ⟨hgk, hthunk⟩ := (isCounterpartOf_iff hk).1 hcounterpart
    have hname : name = k.name := by
      obtain ⟨f', -, rfl, -, thunk, rfl, -⟩ := honly name f hf
      exact name_of_callable? (by simpa using hk)
    subst hname
    have hfentry : f ∈ (t.entries k).functions := mem_entries.2 ⟨hf, hk⟩
    have hgentry : g ∈ (t.entries k).functions := mem_entries.2 ⟨hg, hgk⟩
    -- one of the two is canonical and the other one waits
    cases hfthunk : f.isThunk with
    | false =>
        have hgthunk : g.isThunk = true := by simpa [hfthunk] using hthunk
        exact List.countP_eq_zero.1 (hnone k ⟨f, hfentry, hfthunk⟩) g hgentry hgthunk
    | true =>
        have hgthunk : g.isThunk = false := by simpa [hfthunk] using hthunk
        exact List.countP_eq_zero.1 (hnone k ⟨g, hgentry, hgthunk⟩) f hfentry hfthunk

namespace TypeSurface

/-- In every run where mangled names identify the static functions and none comes with a thunk
linked to it, no overload set holds both a canonical function and a thunk of it, just if of each
callable at least as many canonical functions came as thunks waited for the first of them. And if
the canonical functions of a callable have one mangled name, then this function is its only entry,
with a thunk just if one came, just if at most one thunk waited for it. -/
theorem staticFunctions_resolved_iff (name : NominalName) (ds : List Declaration)
    (hid : Identified (ds.filterMap Declaration.static?))
    (hbare : ∀ f ∈ ds.filterMap Declaration.static?, f.thunk? = none) :
    (((empty name).addAll ds).staticFunctions.Resolved ↔
      ∀ k : Callable, 0 < canonicals (k.among (ds.filterMap Declaration.static?)) →
        waiting (k.among (ds.filterMap Declaration.static?)) ≤
          canonicals (k.among (ds.filterMap Declaration.static?))) ∧
    ∀ (k : Callable), ∀ f ∈ k.among (ds.filterMap Declaration.static?), f.isThunk = false →
      (∀ g ∈ k.among (ds.filterMap Declaration.static?), g.isThunk = false →
        g.mangledName = f.mangledName) →
      (Callable.ResolvesTo f.mangledName (k.among (ds.filterMap Declaration.static?))
          (((empty name).addAll ds).staticFunctions.entries k).functions ↔
        waiting (k.among (ds.filterMap Declaration.static?)) ≤ 1) := by
  have honly : ((empty name).addAll ds).staticFunctions.HoldsOnly
      (ds.filterMap Declaration.static?) := staticFunctions_holdsOnly hid hbare
  constructor
  · rw [FunctionTable.resolved_iff honly]
    refine forall_congr' fun k => ?_
    have hdeclares := k.declares_among hid
    rw [entries_addAll name k hid hbare, Callable.exists_canonical_resolve_iff hdeclares,
      Callable.countP_isThunk_resolve hdeclares, canonicals, List.countP_pos_iff,
      Nat.sub_eq_zero_iff_le]
    simp
  · intro k f hf hcanonical hname
    rw [entries_addAll name k hid hbare]
    refine Callable.resolvesTo_iff (k.declares_among hid) (fun g hg => ?_) ⟨f, hf, hcanonical⟩ hname
    exact hbare g (List.mem_filter.1 hg).1

/-- Of two thunks that wait for a function one is left when it comes: the overload set holds the
function and a thunk of it, and so two entries of one callable. -/
theorem staticFunctions_resolved_iff_second_thunk :
    let f := Sample.staticFunction "M" "Foo" "baz" "f" false
    let ds := [Sample.staticFunction "M" "Foo" "baz" "t1" true,
      Sample.staticFunction "M" "Foo" "baz" "t2" true, f].map Declaration.function
    let k := f.callable?.get rfl
    Identified (ds.filterMap Declaration.static?) ∧
      (∀ g ∈ ds.filterMap Declaration.static?, g.thunk? = none) ∧
      ¬ ((empty ⟨"M", ["Foo"], .classType⟩).addAll ds).staticFunctions.Resolved ∧
      ¬ Callable.ResolvesTo "f" (k.among (ds.filterMap Declaration.static?))
        (((empty ⟨"M", ["Foo"], .classType⟩).addAll ds).staticFunctions.entries k).functions := by
  intro f ds k
  have hid : Identified (ds.filterMap Declaration.static?) := by
    unfold Identified
    decide
  have hbare : ∀ g ∈ ds.filterMap Declaration.static?, g.thunk? = none := by decide
  obtain ⟨hresolved, hone⟩ := staticFunctions_resolved_iff ⟨"M", ["Foo"], .classType⟩ ds hid hbare
  refine ⟨hid, hbare, fun h => ?_, fun h => ?_⟩
  · exact absurd (hresolved.1 h k (by decide)) (by decide)
  · exact absurd ((hone k f (by decide) rfl (by decide)).1 h) (by decide)

end TypeSurface

end SwiftSurface
