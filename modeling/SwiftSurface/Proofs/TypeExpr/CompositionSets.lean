import Mathlib.Data.Finset.Dedup
import SwiftSurface.Proofs.TypeExpr.Composition
import SwiftSurface.Proofs.TypeExpr.Equivalence

/-!
# Compositions as sets of names

A composition of plain constituents is the set of their names: it holds each name once, in ascending
order (`NamedType.names_sortByName`), and two compositions are the same if they have the same names.
Without modules the constituents are sorted again, and names that differed may be alike, so that the
compositions are compared as multisets of what is left of their names
(`TypeExpr.composition_sets`).
-/

namespace SwiftSurface

/-! ## Sorted names -/

namespace NamedType

/-- The order of constituents by their names without modules. -/
def NotBehind (a b : String) : Prop := compare a b ≠ .gt

instance : DecidableRel NotBehind := fun _ _ => inferInstanceAs (Decidable (_ ≠ _))

instance : Std.Total NotBehind where
  total a b := by
    by_cases h : compare a b = .gt
    · exact .inr (by rw [NotBehind, Std.OrientedCmp.gt_iff_lt.1 h]; simp)
    · exact .inl h

instance : IsTrans String NotBehind where
  trans a b c h h' := by
    have hle : (compare a c).isLE := Std.TransCmp.isLE_trans (Ordering.isLE_iff_ne_gt.2 h)
      (Ordering.isLE_iff_ne_gt.2 h')
    exact Ordering.isLE_iff_ne_gt.1 hle

theorem eq_of_notBehind {a b : String} (h : NotBehind a b) (h' : NotBehind b a) : a = b := by
  cases hab : compare a b with
  | eq => exact Std.LawfulEqCmp.eq_of_compare hab
  | lt => exact absurd (Std.OrientedCmp.gt_iff_lt.2 hab) h'
  | gt => exact absurd hab h

/-- Sorted lists of names are equal if they hold the same names. -/
theorem insertionSort_eq_iff {names names' : List String} :
    names.insertionSort NotBehind = names'.insertionSort NotBehind ↔ names.Perm names' := by
  constructor
  · intro h
    exact (List.perm_insertionSort NotBehind names).symm.trans
      (h ▸ List.perm_insertionSort NotBehind names')
  · intro h
    refine List.Perm.eq_of_pairwise (fun a b _ _ => eq_of_notBehind)
      (List.pairwise_insertionSort NotBehind names)
      (List.pairwise_insertionSort NotBehind names') ?_
    exact ((List.perm_insertionSort NotBehind names).trans h).trans
      (List.perm_insertionSort NotBehind names').symm

/-! ## Sorted constituents -/

theorem eq_mk_of_inner {type : NamedType} (h : type.inner = none) : type = ⟨type.name, none⟩ := by
  cases type
  exact congrArg _ h

section Plain

variable {types : List NamedType} (h : ∀ type ∈ types, type.inner = none)
include h

theorem inner_of_mem_sortByName : ∀ type ∈ sortByName types, type.inner = none :=
  fun type htype => h type ((sortByName_spec types).2.1 type htype)

/-- No plain constituent is lost and none is new. -/
theorem mem_sortByName_iff (type : NamedType) : type ∈ sortByName types ↔ type ∈ types := by
  refine ⟨(sortByName_spec types).2.1 type, fun htype => ?_⟩
  obtain ⟨kept, hkept, hrender⟩ := exists_mem_foldl_insertByName types [] (.inl htype)
  have hinner := inner_of_mem_sortByName h kept hkept
  rw [render_of_inner hinner, render_of_inner (h type htype)] at hrender
  have hkept_eq : kept = type := by
    rw [eq_mk_of_inner hinner, hrender, ← eq_mk_of_inner (h type htype)]
  exact hkept_eq ▸ hkept

theorem mem_names_sortByName (name : String) :
    name ∈ (sortByName types).map (·.name) ↔ name ∈ types.map (·.name) := by
  simp only [List.mem_map, mem_sortByName_iff h]

theorem pairwise_names_sortByName :
    ((sortByName types).map (·.name)).Pairwise fun a b => compare a b = .lt :=
  List.pairwise_map.2 <|
    (ascending_iff_of_inner (inner_of_mem_sortByName h)).1 (sortByName_spec types).1

theorem nodup_names_sortByName : ((sortByName types).map (·.name)).Nodup := by
  refine (pairwise_names_sortByName h).imp fun {a b} hlt heq => ?_
  have hself : compare b b = .eq := Std.ReflCmp.compare_self
  rw [heq, hself] at hlt
  exact absurd hlt (by decide)

/-- The sorted names are the different ones of those given. -/
theorem names_sortByName_perm :
    ((sortByName types).map (·.name)).Perm (types.map (·.name)).dedup := by
  rw [List.perm_ext_iff_of_nodup (nodup_names_sortByName h) (List.nodup_dedup _)]
  simp [mem_names_sortByName h]

/-- The multiset of what is left of the different names without their modules. -/
theorem map_unqualifiedName_sortByName :
    ((sortByName types).map fun type => unqualifiedName type.name : Multiset String) =
      (types.map (·.name)).toFinset.val.map unqualifiedName := by
  have hperm := (names_sortByName_perm h).map unqualifiedName
  rw [List.map_map] at hperm
  rw [List.toFinset_val, Multiset.map_coe]
  exact Multiset.coe_eq_coe.2 hperm

theorem toFinset_names_sortByName :
    ((sortByName types).map (·.name)).toFinset = (types.map (·.name)).toFinset := by
  ext name
  simp [mem_names_sortByName h]

/-- Plain constituents are given by their names. -/
theorem eq_map_names : types = (types.map (·.name)).map fun name => ⟨name, none⟩ := by
  calc types = types.map id := (List.map_id types).symm
    _ = types.map fun type => ⟨type.name, none⟩ :=
        List.map_congr_left fun type htype => eq_mk_of_inner (h type htype)
    _ = (types.map (·.name)).map fun name => ⟨name, none⟩ := by rw [List.map_map]; rfl

end Plain

/-- Plain constituents are sorted alike if and only if they have the same names. -/
theorem sortByName_eq_iff {types types' : List NamedType}
    (h : ∀ type ∈ types, type.inner = none) (h' : ∀ type ∈ types', type.inner = none) :
    sortByName types = sortByName types' ↔
      (types.map (·.name)).toFinset = (types'.map (·.name)).toFinset := by
  constructor
  · intro heq
    rw [← toFinset_names_sortByName h, heq, toFinset_names_sortByName h']
  · intro heq
    have hperm : ((sortByName types).map (·.name)).Perm ((sortByName types').map (·.name)) := by
      refine ((names_sortByName_perm h).trans ?_).trans (names_sortByName_perm h').symm
      exact List.toFinset_eq_iff_perm_dedup.1 heq
    have hnames : (sortByName types).map (·.name) = (sortByName types').map (·.name) := by
      refine hperm.eq_of_pairwise (fun a b _ _ hlt hgt => ?_) (pairwise_names_sortByName h)
        (pairwise_names_sortByName h')
      rw [Std.OrientedCmp.gt_iff_lt.2 hlt] at hgt
      exact absurd hgt (by decide)
    rw [eq_map_names (inner_of_mem_sortByName h), hnames,
      ← eq_map_names (inner_of_mem_sortByName h')]

end NamedType

/-! ## Compositions of plain constituents -/

theorem Shape.standard_composition_iff {types types' : List NamedType}
    (h : ∀ type ∈ types, type.inner = none) (h' : ∀ type ∈ types', type.inner = none) :
    (Shape.composition types).standard .short = (Shape.composition types').standard .short ↔
      (types.map fun type => NamedType.unqualifiedName type.name).Perm
        (types'.map fun type => NamedType.unqualifiedName type.name) := by
  have hstandard {types : List NamedType} (h : ∀ type ∈ types, type.inner = none) :
      (Shape.composition types).standard .short = .composition
        (((types.map fun type => NamedType.unqualifiedName type.name).insertionSort
          NamedType.NotBehind).map fun name => ⟨name, none⟩) := by
    have hsorted : ((types.map fun type => NamedType.unqualifiedName type.name).insertionSort
        NamedType.NotBehind) = (NameStyle.short.order types).map
          fun type => NamedType.unqualifiedName type.name :=
      (List.map_insertionSort _ _ (fun type : NamedType => NamedType.unqualifiedName type.name)
        types fun a _ b _ => Iff.rfl).symm
    rw [standard_composition, hsorted, List.map_map]
    refine congrArg Shape.composition (List.map_congr_left fun type htype => ?_)
    simp [NamedType.standard, NameStyle.spell, h type (TypeExpr.order_subset type htype)]
  have hinjective : Function.Injective fun name => (⟨name, none⟩ : NamedType) :=
    fun a b heq => (NamedType.mk.inj heq).1
  rw [hstandard h, hstandard h', Shape.composition.injEq,
    (List.map_injective_iff.2 hinjective).eq_iff, NamedType.insertionSort_eq_iff]

theorem Shape.standard_composition_of_inner {types : List NamedType}
    (h : ∀ type ∈ types, type.inner = none) :
    (Shape.composition types).standard .full = .composition types := by
  have hstandard : types.map (NamedType.standard .full) = types.map id := by
    refine List.map_congr_left fun type htype => ?_
    rw [NamedType.eq_mk_of_inner (h type htype)]
    simp [NamedType.standard, NameStyle.spell]
  rw [standard_composition, NameStyle.order, hstandard, List.map_id]

namespace TypeExpr

section

variable {types types' : List NamedType} (h : ∀ type ∈ types, type.inner = none)
  (h' : ∀ type ∈ types', type.inner = none)
include h h'

theorem composition_same_iff : (composition types).same (composition types') ↔
    (types.map (·.name)).toFinset = (types'.map (·.name)).toFinset := by
  rw [← NamedType.sortByName_eq_iff h h', same_iff, composition, composition, ofShape, ofShape,
    standard_mk, standard_mk,
    Shape.standard_composition_of_inner (NamedType.inner_of_mem_sortByName h),
    Shape.standard_composition_of_inner (NamedType.inner_of_mem_sortByName h')]
  simp

theorem composition_sameUpToModule_iff : (composition types).sameUpToModule (composition types') ↔
    (types.map (·.name)).toFinset.val.map NamedType.unqualifiedName =
      (types'.map (·.name)).toFinset.val.map NamedType.unqualifiedName := by
  rw [sameUpToModule_iff, composition, composition, ofShape, ofShape, standard_mk, standard_mk,
    mk.injEq, Shape.standard_composition_iff (NamedType.inner_of_mem_sortByName h)
      (NamedType.inner_of_mem_sortByName h'),
    ← NamedType.map_unqualifiedName_sortByName h, ← NamedType.map_unqualifiedName_sortByName h',
    Multiset.coe_eq_coe]
  simp

/-- Compositions of plain constituents are sets. They hold each name once, in ascending order; they
are the same if and only if they have the same set of names, and the same up to modules if and only
if the different names are the same multiset without their modules. -/
theorem composition_sets :
    ((NamedType.sortByName types).Pairwise fun a b => compare a.name b.name = .lt) ∧
    (∀ type, type ∈ NamedType.sortByName types ↔ type ∈ types) ∧
    ((composition types).same (composition types') ↔
      (types.map (·.name)).toFinset = (types'.map (·.name)).toFinset) ∧
    ((composition types).sameUpToModule (composition types') ↔
      (types.map (·.name)).toFinset.val.map NamedType.unqualifiedName =
        (types'.map (·.name)).toFinset.val.map NamedType.unqualifiedName) :=
  ⟨List.pairwise_map.1 (NamedType.pairwise_names_sortByName h), NamedType.mem_sortByName_iff h,
    composition_same_iff h h', composition_sameUpToModule_iff h h'⟩

end

/-- A name that is given twice counts once, and different names count each even where they are alike
without their modules. -/
theorem composition_sets_modules :
    let types : List NamedType := [.ofName "B.X", .ofName "A.X", .ofName "C.Y", .ofName "A.X"]
    let types' : List NamedType := [.ofName "C.X", .ofName "D.Y", .ofName "D.X"]
    (∀ type ∈ types, type.inner = none) ∧ (∀ type ∈ types', type.inner = none) ∧
      ¬ (composition types).same (composition types') ∧
      (composition types).sameUpToModule (composition types') := by
  intro types types'
  have h : ∀ type ∈ types, type.inner = none := by simp [types, NamedType.ofName]
  have h' : ∀ type ∈ types', type.inner = none := by simp [types', NamedType.ofName]
  obtain ⟨-, -, hsame, hmodules⟩ := composition_sets h h'
  refine ⟨h, h', fun heq => absurd (hsame.1 heq) ?_, hmodules.2 ?_⟩
  · decide
  · decide

end TypeExpr

end SwiftSurface
