import SwiftSurface.Proofs.Inventory.Repeats

/-!
# What linked thunks are

A static function carries its thunk from the moment both were filed, and the link may be rewritten
later by another thunk. Every link that is held is sound (`staticFunctions_links`): a canonical
function carries a bare thunk of the same types, under another mangled name.

The invariant behind this is that a linked thunk was filed itself, as a counterpart of the function
that carries it (`LinksFrom`). Linking looks the canonical function up a second time, by its mangled
name, so a step keeps the invariant only while mangled names identify the functions.
-/

namespace SwiftSurface

/-! ## Counterparts -/

theorem StaticSignature.pairsWith_comm (a b : StaticSignature) : a.pairsWith b = b.pairsWith a := by
  rw [Bool.eq_iff_iff]
  simp only [pairsWith, TypeExpr.same, Bool.and_eq_true, bne_iff_ne, beq_iff_eq, decide_eq_true_eq]
  tauto

namespace FunctionDecl

variable (f g : FunctionDecl) (thunk : Option Thunk)

theorem isCounterpartOf_comm : f.isCounterpartOf g = g.isCounterpartOf f := by
  cases hf : f.signature <;> cases hg : g.signature <;> simp only [isCounterpartOf, hf, hg]
  case static.static a b => simp only [a.pairsWith_comm b, eq_comm, BEq.comm]

/-- Counterparts are static functions whose signatures pair. -/
theorem pairsWith_of_isCounterpartOf {f g : FunctionDecl} (h : f.isCounterpartOf g) :
    ∃ a b, f.signature.static? = some a ∧ g.signature.static? = some b ∧ a.pairsWith b := by
  cases hf : f.signature <;> cases hg : g.signature <;> simp only [isCounterpartOf, hf, hg] at h
  case static.static a b => exact ⟨a, b, rfl, rfl, by simp_all⟩
  all_goals contradiction

@[simp] theorem isCounterpartOf_withThunk_right :
    f.isCounterpartOf (g.withThunk thunk) = f.isCounterpartOf g := by
  rw [isCounterpartOf_comm, isCounterpartOf_withThunk_left, isCounterpartOf_comm]

@[simp] theorem toThunk?_withThunk : (f.withThunk thunk).toThunk? = f.toThunk? := by
  cases hf : f.signature <;> simp [withThunk, toThunk?, Signature.static?, hf]

/-- Is this the thunk of `f`, as `f` may carry it? Neither is what the other is, the thunk has no
thunk of its own, the types are the same and the mangled names are not. -/
structure LinksSoundly (f : FunctionDecl) (link : Thunk) : Prop where
  canonical : f.isThunk = false
  isThunk : link.signature.isThunk = true
  bare : link.signature.thunk = none
  pairs : ∃ s, f.signature.static? = some s ∧ s.pairsWith link.signature
  mangledName_ne : link.mangledName ≠ f.mangledName

end FunctionDecl

namespace FunctionTable

variable {t : FunctionTable} {f : FunctionDecl} {fs : List FunctionDecl}

/-! ## One step -/

/-- Is every linked thunk of the table one of these functions, and a counterpart of the function
that carries it? -/
def LinksFrom (t : FunctionTable) (fs : List FunctionDecl) : Prop :=
  ∀ name, ∀ g ∈ t.named name, ∀ link, g.thunk? = some link →
    ∃ filed ∈ fs, filed.toThunk? = some link ∧ filed.isThunk ∧ filed.isCounterpartOf g

theorem empty_linksFrom : FunctionTable.empty.LinksFrom [] := by
  intro name g hg
  simp at hg

/-- Filing a bare static function links nothing but what was filed. -/
theorem LinksFrom.addStatic (h : t.LinksFrom fs) (honly : t.HoldsOnly fs)
    (hid : FunctionDecl.Identified fs) (hf : f.isStatic) (hbare : f.thunk? = none) :
    (t.addStatic f).after.LinksFrom (fs ++ [f]) := by
  have hkeep : t.LinksFrom (fs ++ [f]) := by
    intro name g hg link hlink
    obtain ⟨filed, hfiled, hrest⟩ := h name g hg link hlink
    exact ⟨filed, List.mem_append_left _ hfiled, hrest⟩
  intro name g hg link hlink
  rcases honly.mem_addStatic hid hg with
    hold | ⟨rfl, rfl | ⟨c, hc, hcounterpart, ⟨hthunk, rfl⟩ | ⟨hthunk, rfl⟩⟩⟩
  · exact hkeep name g hold link hlink
  · simp [hbare] at hlink
  · -- `f` carries the thunk `c` that waited, which is held as it was filed
    obtain ⟨filed, hfiled, -, -, _, rfl, -⟩ := honly f.name c hc
    rw [FunctionDecl.thunk?_withThunk _ _ hf, FunctionDecl.toThunk?_withThunk] at hlink
    exact ⟨filed, by simp [hfiled], hlink, by simpa using hthunk, by simpa using hcounterpart⟩
  · -- the thunk `f` is what is linked now, whatever was linked before
    rw [FunctionDecl.thunk?_withThunk _ _ (honly.isStatic hc)] at hlink
    have hisThunk : f.isThunk = true := by
      simpa [hthunk] using FunctionDecl.isThunk_of_isCounterpartOf hcounterpart
    rw [FunctionDecl.isCounterpartOf_comm] at hcounterpart
    exact ⟨f, by simp, hlink, hisThunk, by simpa using hcounterpart⟩

/-! ## What a link is -/

/-- If mangled names identify the functions, then what is linked to a function is its thunk. -/
theorem LinksFrom.linksSoundly (h : t.LinksFrom fs) (honly : t.HoldsOnly fs)
    (hid : FunctionDecl.Identified fs) {name : String} {g : FunctionDecl} (hg : g ∈ t.named name)
    {link : Thunk} (hlink : g.thunk? = some link) : g.LinksSoundly link := by
  obtain ⟨filed, hfiled, hthunk, hisThunk, hcounterpart⟩ := h name g hg link hlink
  obtain ⟨s, hs, rfl⟩ := Option.map_eq_some_iff.1 hthunk
  have hcanonical : g.isThunk = false := by
    simpa [hisThunk] using FunctionDecl.isThunk_of_isCounterpartOf hcounterpart
  refine ⟨hcanonical, ?_, rfl, ?_, ?_⟩
  · simpa [FunctionDecl.isThunk, hs] using hisThunk
  · obtain ⟨a, b, ha, hb, hpairs⟩ := FunctionDecl.pairsWith_of_isCounterpartOf hcounterpart
    obtain rfl := Option.some.inj (ha.symm.trans hs)
    rw [StaticSignature.pairsWith_comm] at hpairs
    exact ⟨b, hb, hpairs⟩
  · -- a function is filed as a thunk or not, so no thunk has the mangled name of its function
    intro heq
    obtain ⟨canonical, hmem, -, -, _, rfl, -⟩ := honly name g hg
    obtain ⟨-, -, herase⟩ := hid filed hfiled canonical hmem (by simpa using heq)
    have hsame := FunctionDecl.isThunk_of_erase_eq herase
    simp_all

end FunctionTable

/-! ## Runs -/

namespace TypeSurface

variable {name : NominalName} {ds : List Declaration}

/-- After a run every linked thunk is one that was filed. -/
theorem staticFunctions_linksFrom
    (hid : FunctionDecl.Identified (ds.filterMap Declaration.static?))
    (hbare : ∀ f ∈ ds.filterMap Declaration.static?, f.thunk? = none) :
    ((empty name).addAll ds).staticFunctions.LinksFrom (ds.filterMap Declaration.static?) := by
  induction ds using List.reverseRecOn with
  | nil => exact FunctionTable.empty_linksFrom
  | append_singleton before d ih =>
      have hsub : before.filterMap Declaration.static? ⊆
          (before ++ [d]).filterMap Declaration.static? := by
        simp
      have hid' := hid.of_subset hsub
      have hbare' : ∀ f ∈ before.filterMap Declaration.static?, f.thunk? = none :=
        fun f hf => hbare f (hsub hf)
      have hbefore := ih hid' hbare'
      rw [addAll_concat]
      cases hd : d.static? with
      | none => simpa [staticFunctions_add _ hd, hd] using hbefore
      | some f =>
          have hf : f ∈ (before ++ [d]).filterMap Declaration.static? := by simp [hd]
          rw [(add_of_static? _ hd).2, List.filterMap_append]
          simpa [hd] using hbefore.addStatic (staticFunctions_holdsOnly hid' hbare') hid'
            (Declaration.isStatic_of_static? hd) (hbare f hf)

/-- **Links are sound.** In every run where mangled names identify the static functions and none
comes with a thunk linked to it, whatever thunk a static function carries afterwards is its thunk,
bare and under another mangled name, and a thunk carries none. -/
theorem staticFunctions_links (name : NominalName) (ds : List Declaration)
    (hid : FunctionDecl.Identified (ds.filterMap Declaration.static?))
    (hbare : ∀ f ∈ ds.filterMap Declaration.static?, f.thunk? = none) :
    ∀ overload, ∀ f ∈ ((empty name).addAll ds).staticFunctions.named overload,
      (∀ link, f.thunk? = some link → f.LinksSoundly link) ∧ (f.isThunk → f.thunk? = none) := by
  intro overload f hf
  have honly : ((empty name).addAll ds).staticFunctions.HoldsOnly _ :=
    staticFunctions_holdsOnly hid hbare
  refine ⟨?_, honly.thunk?_of_isThunk hf⟩
  intro link hlink
  exact (staticFunctions_linksFrom hid hbare).linksSoundly honly hid hf hlink

/-- A thunk waits for the function, is linked to it, and gives way to a second one. -/
theorem staticFunctions_links_relinked :
    let t := Sample.staticFunction "M" "Foo" "baz" "t2" true
    let ds := [Sample.staticFunction "M" "Foo" "baz" "t1" true,
      Sample.staticFunction "M" "Foo" "baz" "f" false, t].map Declaration.function
    FunctionDecl.Identified (ds.filterMap Declaration.static?) ∧
      (∀ g ∈ ds.filterMap Declaration.static?, g.thunk? = none) ∧
      ∃ f ∈ ((empty ⟨"M", ["Foo"], .classType⟩).addAll ds).staticFunctions.named "baz",
        ∃ link, t.toThunk? = some link ∧ f.thunk? = some link ∧ f.LinksSoundly link := by
  intro t ds
  have hid : FunctionDecl.Identified (ds.filterMap Declaration.static?) := by
    unfold FunctionDecl.Identified
    decide
  have hbare : ∀ g ∈ ds.filterMap Declaration.static?, g.thunk? = none := by decide
  have hheld : (Sample.staticFunction "M" "Foo" "baz" "f" false).withThunk t.toThunk? ∈
      ((empty ⟨"M", ["Foo"], .classType⟩).addAll ds).staticFunctions.named "baz" := by
    decide
  have hlinks := (staticFunctions_links _ ds hid hbare "baz" _ hheld).1
  exact ⟨hid, hbare, _, hheld, _, rfl, rfl, hlinks _ rfl⟩

end TypeSurface

end SwiftSurface
