import Mathlib.Data.List.Nodup
import SwiftSurface.Declaration.Sample
import SwiftSurface.Proofs.Inventory.Resolution

/-!
# Batches of static functions

In a batch every callable has one canonical function at most and one thunk at most. Then the order
in which the functions are filed does not matter: nothing is refused, a canonical function and its
thunk become one entry, the function with the mangled name, offset and signature of the thunk, and
every other function is an entry as it came (`staticFunctions_of_batch`).

A callable has at most two functions in a batch, so a run of it is one of two steps at most.
-/

namespace SwiftSurface

open FunctionDecl

variable {f g : FunctionDecl} {fs gs : List FunctionDecl} {k : Callable}

/-! ## Batches -/

/-- Each of these functions has a mangled name of its own and comes without a linked thunk, and of
each callable there is one canonical function at most and one thunk at most. -/
structure FunctionDecl.Batch (fs : List FunctionDecl) : Prop where
  nodup : (fs.map (·.mangledName)).Nodup
  bare : ∀ f ∈ fs, f.thunk? = none
  pair : ∀ f ∈ fs, ∀ g ∈ fs, f.callable? = g.callable? → f.isThunk = g.isThunk → f = g

namespace FunctionDecl.Batch

theorem perm (h : Batch fs) (hperm : gs.Perm fs) : Batch gs where
  nodup := (hperm.map _).nodup_iff.2 h.nodup
  bare f hf := h.bare f (hperm.subset hf)
  pair f hf g hg := h.pair f (hperm.subset hf) g (hperm.subset hg)

theorem sublist (h : Batch fs) (hsub : gs.Sublist fs) : Batch gs where
  nodup := h.nodup.sublist (hsub.map _)
  bare f hf := h.bare f (hsub.subset hf)
  pair f hf g hg := h.pair f (hsub.subset hf) g (hsub.subset hg)

theorem eq_of_mangledName (h : Batch fs) (hf : f ∈ fs) (hg : g ∈ fs)
    (hmangled : f.mangledName = g.mangledName) : f = g :=
  List.inj_on_of_nodup_map h.nodup hf hg hmangled

theorem identified (h : Batch fs) : Identified fs := by
  intro f hf g hg hmangled
  obtain rfl := h.eq_of_mangledName hf hg hmangled
  exact ⟨rfl, rfl, rfl⟩

theorem declares (h : Batch fs) (hk : ∀ f ∈ fs, f.callable? = some k) : k.Declares fs where
  callable := hk
  isThunk f hf g hg hmangled := by rw [h.eq_of_mangledName hf hg hmangled]

/-- Two functions of one callable are a canonical function and its thunk. -/
theorem isThunk_ne (h : Batch [f, g]) (hk : f.callable? = g.callable?) : f.isThunk ≠ g.isThunk := by
  intro hsame
  obtain rfl := h.pair f (by simp) g (by simp) hk hsame
  simpa using h.nodup

/-- A third function of one callable would be a second canonical function or a second thunk. -/
theorem length_le (h : Batch fs) (hk : ∀ f ∈ fs, f.callable? = some k) : fs.length ≤ 2 := by
  match fs with
  | [] | [_] | [_, _] => simp
  | f :: g :: e :: rest =>
      have hpair {a b : FunctionDecl} (hsub : [a, b].Sublist (f :: g :: e :: rest)) :
          a.isThunk ≠ b.isThunk :=
        (h.sublist hsub).isThunk_ne
          ((hk a (hsub.subset (by simp))).trans (hk b (hsub.subset (by simp))).symm)
      have hfg := hpair (a := f) (b := g) (by simp)
      have hge := hpair (a := g) (b := e) (by simp)
      have hfe := hpair (a := f) (b := e) (by simp)
      cases hf : f.isThunk <;> cases hg : g.isThunk <;> cases he : e.isThunk <;> simp_all

end FunctionDecl.Batch

/-! ## Runs of one callable -/

/-- The canonical function of the two, with the other one linked to it. -/
def FunctionDecl.joined (f g : FunctionDecl) : FunctionDecl :=
  if f.isThunk then g.withThunk f.toThunk? else f.withThunk g.toThunk?

namespace Callable

/-- A function that is alone is an entry as it came. -/
theorem resolve_single (h : Batch [f]) (hf : f.callable? = some k) :
    (k.resolve [f]).functions = [f] ∧ ((k.resolve []).addStatic f).rejection = none := by
  have hdeclares : k.Declares ([] ++ [f]) := h.declares (by simpa using hf)
  simpa using (resolution_resolve hdeclares).of_nil rfl

/-- Two functions are one entry, whichever comes first. -/
theorem resolve_pair (h : Batch [f, g]) (hf : f.callable? = some k) (hg : g.callable? = some k) :
    (k.resolve [f, g]).functions = [f.joined g] ∧
      ((k.resolve [f]).addStatic g).rejection = none := by
  have hdeclares : k.Declares ([f] ++ [g]) := h.declares (by simp [hf, hg])
  have hfirst := (resolve_single (h.sublist (by simp)) hf).1
  have hne := h.isThunk_ne (hf.trans hg.symm)
  rcases (resolution_resolve hdeclares).of_counterpart hfirst hne with
    ⟨hcanonical, hafter, haccepted⟩ | ⟨hthunk, hafter, haccepted⟩ | ⟨-, -, hlink⟩
  · have hfthunk : f.isThunk = true := by simpa [hcanonical] using hne
    simpa [joined, hfthunk] using And.intro hafter haccepted
  · have hfcanonical : f.isThunk = false := by simpa [hthunk] using hne
    simpa [joined, hfcanonical] using And.intro hafter haccepted
  · simp [h.bare f (by simp)] at hlink

theorem eq_or_eq_swap_of_perm (h : gs.Perm [f, g]) : gs = [f, g] ∨ gs = [g, f] := by
  obtain ⟨a, b, rfl⟩ := List.length_eq_two.1 h.length_eq
  have hmem : a ∈ [f, g] := h.subset (by simp)
  rcases List.mem_pair.1 hmem with rfl | rfl
  · have hrest : [b].Perm [g] := h.cons_inv
    exact .inl (by rw [List.perm_singleton.1 hrest])
  · have hrest : [b].Perm [f] := (h.trans (.swap ..)).cons_inv
    exact .inr (by rw [List.perm_singleton.1 hrest])

theorem joined_comm (hne : f.isThunk ≠ g.isThunk) : f.joined g = g.joined f := by
  cases hf : f.isThunk <;> cases hg : g.isThunk <;> simp_all [joined]

/-- The order of a batch of one callable does not matter. -/
theorem resolve_of_perm (h : Batch fs) (hk : ∀ f ∈ fs, f.callable? = some k) (hperm : gs.Perm fs) :
    (k.resolve gs).functions = (k.resolve fs).functions := by
  have hlength := h.length_le hk
  match fs, hlength with
  | [], _ => rw [hperm.eq_nil]
  | [f], _ => rw [List.perm_singleton.1 hperm]
  | [f, g], _ =>
      have hf := hk f (by simp)
      have hg := hk g (by simp)
      rcases eq_or_eq_swap_of_perm hperm with rfl | rfl
      · rfl
      · rw [(resolve_pair h hf hg).1, (resolve_pair (h.perm (.swap ..)) hg hf).1,
          joined_comm (h.isThunk_ne (hf.trans hg.symm))]
  | _ :: _ :: _ :: _, hlength => simp at hlength

/-- In a batch of one callable a canonical function carries its thunk. -/
theorem resolve_of_mem (h : Batch fs) (hk : ∀ f ∈ fs, f.callable? = some k) (hf : f ∈ fs)
    (hg : g ∈ fs) (hcanonical : f.isThunk = false) (hthunk : g.isThunk = true) :
    ∃ a b, f.signature = .static a ∧ g.signature = .static b ∧
      (k.resolve fs).functions =
        [{ f with
          signature := .static { a with
            thunk := some {
              mangledName := g.mangledName
              offset := g.offset
              signature := b } } }] := by
  have hdeclares : k.Declares fs := h.declares hk
  obtain ⟨a, ha⟩ := f.isStatic_iff.1 (hdeclares.isStatic hf)
  obtain ⟨b, hb⟩ := g.isStatic_iff.1 (hdeclares.isStatic hg)
  refine ⟨a, b, ha, hb, ?_⟩
  have hne : f ≠ g := by
    rintro rfl
    simp [hcanonical] at hthunk
  have hsub : [f, g].Subperm fs := List.subperm_of_subset (by simpa using hne) (by simp [hf, hg])
  have hperm : [f, g].Perm fs := hsub.perm_of_length_le (h.length_le hk)
  rw [← resolve_of_perm h hk hperm, (resolve_pair (h.perm hperm) (hk f hf) (hk g hg)).1, joined,
    if_neg (by simp [hcanonical]), withThunk_toThunk? ha hb (h.bare g hg)]

/-- No function of a batch of one callable is refused. -/
theorem accepts_of_batch (h : Batch (fs ++ [f])) (hk : ∀ g ∈ fs ++ [f], g.callable? = some k) :
    ((k.resolve fs).addStatic f).rejection = none := by
  have hlength := h.length_le hk
  match fs, hlength with
  | [], _ => exact (resolve_single h (hk f (by simp))).2
  | [g], _ => exact (resolve_pair h (hk g (by simp)) (hk f (by simp))).2
  | _ :: _ :: _, hlength => simp at hlength

end Callable

/-! ## Tables -/

/-- How often a function is held is a matter of the entries of its callable. -/
theorem FunctionTable.HoldsOnly.count_named {t : FunctionTable} (h : t.HoldsOnly fs) (name : String)
    (e : FunctionDecl) :
    (t.named name).count e =
      match e.callable? with
      | some k => if k.name = name then (t.entries k).functions.count e else 0
      | none => 0 := by
  cases hk : e.callable? with
  | none =>
      rw [List.count_eq_zero]
      intro hmem
      have hstatic := e.isSome_callable?.trans (h.isStatic hmem)
      simp [hk] at hstatic
  | some k =>
      dsimp only
      split
      case isTrue hname =>
          subst hname
          simp [entries, OverloadSet.only, functions_overloadsOf, List.count_filter, hk]
      case isFalse hname =>
          rw [List.count_eq_zero]
          intro hmem
          obtain ⟨f, -, rfl, -, thunk, rfl, -⟩ := h name e hmem
          exact hname (name_of_callable? (by simpa using hk)).symm

/-- Tables with the same entries of each callable hold the same functions, up to their order. -/
theorem FunctionTable.HoldsOnly.named_perm {t u : FunctionTable} (ht : t.HoldsOnly fs)
    (hu : u.HoldsOnly gs) (h : ∀ k, (t.entries k).functions = (u.entries k).functions)
    (name : String) : (t.named name).Perm (u.named name) := by
  rw [List.perm_iff_count]
  intro e
  simp only [ht.count_named, hu.count_named, h]

/-! ## Types -/

namespace TypeSurface

/-- The functions of one callable in a batch are a batch. -/
theorem batch_among (h : Batch fs) (k : Callable) :
    Batch (k.among fs) ∧ ∀ f ∈ k.among fs, f.callable? = some k := by
  refine ⟨h.sublist List.filter_sublist, fun f hf => ?_⟩
  simpa [Callable.among] using (List.mem_filter.1 hf).2

variable {batch order order' : List Declaration}

/-- No function of a batch is refused. -/
theorem rejection_of_batch (name : NominalName) (h : Batch (order.filterMap Declaration.static?))
    {before : List Declaration} {d : Declaration} (hd : d.static? = some f)
    (hbefore : before ++ [d] <+: order) :
    (((empty name).addAll before).add d).rejection = none := by
  obtain ⟨k, hk⟩ := Option.isSome_iff_exists.1
    (f.isSome_callable?.trans (Declaration.isStatic_of_static? hd))
  obtain ⟨hamong, hcallable⟩ := batch_among h k
  -- what came before `f` of its callable, and `f` itself, are a part of the batch
  have hpart : (k.among (before.filterMap Declaration.static?) ++ [f]).Sublist
      (k.among (order.filterMap Declaration.static?)) := by
    have hfiltered := (hbefore.filterMap Declaration.static?).sublist.filter (·.callable? = some k)
    simpa [Callable.among, hd, hk] using hfiltered
  rw [rejection_add name h.identified h.bare hd hk hbefore]
  exact Callable.accepts_of_batch (hamong.sublist hpart) fun g hg => hcallable g (hpart.subset hg)

/-- What is left of a callable does not depend on the order. -/
theorem entries_of_batch (name : NominalName) (h : Batch (batch.filterMap Declaration.static?))
    (horder : order.Perm batch) (k : Callable) :
    (((empty name).addAll order).staticFunctions.entries k).functions =
      (k.resolve (k.among (batch.filterMap Declaration.static?))).functions := by
  have hfiled := horder.filterMap Declaration.static?
  have horderBatch := h.perm hfiled
  obtain ⟨hamong, hk⟩ := batch_among h k
  rw [entries_addAll name k horderBatch.identified horderBatch.bare]
  exact Callable.resolve_of_perm hamong hk (hfiled.filter _)

/-- **The order of a batch does not matter.** Whatever the order in which the static functions of a
batch are filed, all of them are accepted. Of each callable there is one entry then: the canonical
function, which carries the mangled name, the offset and the signature of its thunk, if both are in
the batch, or else the one function of the callable as it is. Everything that is held is of a
callable of the batch, under its name, and another order leaves the same functions of each name, up
to their order. -/
theorem staticFunctions_of_batch (name : NominalName)
    (hstatic : ∀ d ∈ batch, d.static?.isSome)
    (hbatch : Batch (batch.filterMap Declaration.static?)) (horder : order.Perm batch)
    (horder' : order'.Perm batch) :
    (∀ before d, before ++ [d] <+: order → (((empty name).addAll before).add d).rejection = none) ∧
    (∀ k : Callable, ∀ f ∈ k.among (batch.filterMap Declaration.static?),
      ∀ g ∈ k.among (batch.filterMap Declaration.static?), f.isThunk = false → g.isThunk = true →
        ∃ a b, f.signature = .static a ∧ g.signature = .static b ∧
          (((empty name).addAll order).staticFunctions.entries k).functions =
            [{ f with
              signature := .static { a with
                thunk := some {
                  mangledName := g.mangledName
                  offset := g.offset
                  signature := b } } }]) ∧
    (∀ (k : Callable) f, k.among (batch.filterMap Declaration.static?) = [f] →
      (((empty name).addAll order).staticFunctions.entries k).functions = [f]) ∧
    (∀ n, ∀ e ∈ ((empty name).addAll order).staticFunctions.named n,
      ∃ f ∈ batch.filterMap Declaration.static?, f.name = n ∧ f.callable? = e.callable?) ∧
    ∀ n, (((empty name).addAll order').staticFunctions.named n).Perm
      (((empty name).addAll order).staticFunctions.named n) := by
  have horderBatch := hbatch.perm (horder.filterMap Declaration.static?)
  have horderBatch' := hbatch.perm (horder'.filterMap Declaration.static?)
  have honly : ((empty name).addAll order).staticFunctions.HoldsOnly
      (order.filterMap Declaration.static?) :=
    staticFunctions_holdsOnly horderBatch.identified horderBatch.bare
  have honly' : ((empty name).addAll order').staticFunctions.HoldsOnly
      (order'.filterMap Declaration.static?) :=
    staticFunctions_holdsOnly horderBatch'.identified horderBatch'.bare
  refine ⟨fun before d hbefore => ?_, fun k f hf g hg hcanonical hthunk => ?_, fun k f hf => ?_,
    fun n e he => ?_, fun n => ?_⟩
  · have hmem : d ∈ batch := horder.subset (hbefore.subset (by simp))
    obtain ⟨f, hd⟩ := Option.isSome_iff_exists.1 (hstatic d hmem)
    exact rejection_of_batch name horderBatch hd hbefore
  · obtain ⟨hamong, hk⟩ := batch_among hbatch k
    rw [entries_of_batch name hbatch horder]
    exact Callable.resolve_of_mem hamong hk hf hg hcanonical hthunk
  · obtain ⟨hamong, hk⟩ := batch_among hbatch k
    rw [hf] at hamong hk
    rw [entries_of_batch name hbatch horder, hf,
      (Callable.resolve_single hamong (hk f (by simp))).1]
  · obtain ⟨f, hf, hname, -, thunk, rfl, -⟩ := honly n e he
    exact ⟨f, (horder.filterMap Declaration.static?).subset hf, hname, by simp⟩
  · refine honly'.named_perm honly (fun k => ?_) n
    rw [entries_of_batch name hbatch horder', entries_of_batch name hbatch horder]

/-- A function, its thunk, and another function of the same name: the thunk may come first, with the
other function in between, and is linked with its name, offset and signature. -/
theorem staticFunctions_of_batch_overloads :
    let f := Sample.staticFunction "M" "Foo" "baz" "f" false
    let thunk := { Sample.staticFunction "M" "Foo" "baz" "t" true with offset := 16 }
    let throwing := Sample.function "M" "Foo" "baz" "g"
      (.static { parameters := .unit, returns := .unit, throws := true })
    let batch := [f, thunk, throwing].map Declaration.function
    let order := [thunk, throwing, f].map Declaration.function
    let t := ((empty ⟨"M", ["Foo"], .classType⟩).addAll order).staticFunctions
    (∀ d ∈ batch, d.static?.isSome) ∧ Batch (batch.filterMap Declaration.static?) ∧
      order.Perm batch ∧
      (t.entries (f.callable?.get rfl)).functions = [Sample.function "M" "Foo" "baz" "f" (.static {
        parameters := .unit
        returns := .unit
        throws := false
        thunk := some {
          mangledName := "t"
          offset := 16
          signature := {
            parameters := .unit
            returns := .unit
            throws := false
            isThunk := true } } })] ∧
      (t.entries (throwing.callable?.get rfl)).functions = [throwing] := by
  intro f thunk throwing batch order t
  have hstatic : ∀ d ∈ batch, d.static?.isSome := by decide
  have hbatch : Batch (batch.filterMap Declaration.static?) :=
    ⟨by decide, by decide, by decide⟩
  have horder : order.Perm batch := by decide
  obtain ⟨-, hpairs, hsingles, -⟩ :=
    staticFunctions_of_batch ⟨"M", ["Foo"], .classType⟩ hstatic hbatch horder horder
  refine ⟨hstatic, hbatch, horder, ?_, ?_⟩
  · obtain ⟨a, b, ha, hb, hentries⟩ :=
      hpairs (f.callable?.get rfl) f (by decide) thunk (by decide) rfl rfl
    obtain rfl := Signature.static.inj ha
    obtain rfl := Signature.static.inj hb
    exact hentries
  · exact hsingles _ throwing (by decide)

end TypeSurface

end SwiftSurface
