import Mathlib.Algebra.Order.BigOperators.Group.List
import Mathlib.Algebra.Order.Group.Nat
import SwiftSurface.Proofs.TypeExpr.CompositionSets
import SwiftSurface.Proofs.TypeExpr.Reread
import SwiftSurface.Proofs.TypeExpr.Unqualified

/-!
# Which expressions are recognized without their modules

An expression stripped of its modules and read as a text of its own is compared with the original
up to module qualifiers. They are the same if and only if no name keeps a dot when it loses its
module, and no two constituents of one composition are called alike then
(`reread_sameUpToModule_iff`). A second component is taken for a module otherwise, and of the
constituents called alike one only is read.
-/

namespace SwiftSurface

namespace NamedType

/-! ## Names read again -/

theorem length_unqualifiedName (name : String) :
    (unqualifiedName name).toList.length ≤ name.toList.length ∧
      ('.' ∈ name.toList → (unqualifiedName name).toList.length < name.toList.length) := by
  rcases unqualifiedName_cases name with ⟨hsingle, -, h⟩ | ⟨first, -, -, h⟩
  · exact ⟨by rw [h], fun hdot => absurd hdot hsingle⟩
  · have hlength := congrArg List.length h
    simp only [List.length_append, List.length_cons] at hlength
    exact ⟨by omega, fun _ => by omega⟩

/-- A name read again and stripped again gets no longer, and keeps its length only if it has a
single component. -/
theorem length_unqualifiedName_canonicalName (name : String) :
    (unqualifiedName (canonicalName name)).toList.length ≤ name.toList.length ∧
      ('.' ∈ name.toList →
        (unqualifiedName (canonicalName name)).toList.length < name.toList.length) := by
  unfold canonicalName
  split
  case isTrue h => subst h; exact ⟨by decide, by decide⟩
  case isFalse =>
      split
      case isTrue h => subst h; exact ⟨by decide, by decide⟩
      case isFalse => exact length_unqualifiedName name

theorem unqualifiedName_canonicalName_of_single {name : String} (h : '.' ∉ name.toList) :
    unqualifiedName (canonicalName name) = name := by
  unfold canonicalName
  split
  case isTrue h => subst h; decide
  case isFalse =>
      split
      case isTrue h => subst h; decide
      case isFalse => exact unqualifiedName_of_single h

/-- A name is the same without its module, read again, if it has one component left. -/
theorem unqualifiedName_canonicalName_iff (name : String) :
    unqualifiedName (canonicalName name) = name ↔ '.' ∉ name.toList := by
  refine ⟨fun h hdot => ?_, unqualifiedName_canonicalName_of_single⟩
  have hlt := (length_unqualifiedName_canonicalName name).2 hdot
  rw [h] at hlt
  exact absurd hlt (by simp)

/-! ## Constituents read again -/

/-- The names of constituents that are read again and stripped again are the same names if and only
if they are different names of a single component each. -/
theorem names_sortByName_perm_iff (names : List String) :
    ((sortByName (names.map .ofName)).map fun type => unqualifiedName type.name).Perm names ↔
      names.Nodup ∧ ∀ name ∈ names, '.' ∉ name.toList := by
  have hplain : ∀ type ∈ names.map ofName, type.inner = none := by simp [ofName]
  have hnames : (names.map ofName).map (·.name) = names.map canonicalName := by simp [ofName]
  have hnodup := nodup_names_sortByName hplain
  have hmem := mem_names_sortByName hplain
  rw [hnames] at hmem
  generalize hsorted : (sortByName (names.map .ofName)).map (·.name) = sorted at hnodup hmem
  rw [show ((sortByName (names.map .ofName)).map fun type => unqualifiedName type.name) =
    sorted.map unqualifiedName by rw [← hsorted, List.map_map]; rfl]
  -- as long as no name is given twice
  have hperm (h : names.length ≤ sorted.length) : sorted.Perm (names.map canonicalName) :=
    (List.subperm_of_subset hnodup fun name h => (hmem name).1 h).perm_of_length_le
      (by simpa using h)
  have hstripped (h : names.length ≤ sorted.length) : (sorted.map unqualifiedName).Perm
      (names.map fun name => unqualifiedName (canonicalName name)) := by
    simpa [Function.comp_def] using (hperm h).map unqualifiedName
  constructor
  · intro h
    have hlength : names.length ≤ sorted.length := by simpa using h.length_eq.ge
    refine ⟨((hperm hlength).nodup hnodup).of_map, fun name hname hdot => ?_⟩
    -- a name that is stripped once more makes the names shorter together
    have hsum := List.sum_lt_sum (l := names)
      (fun name => (unqualifiedName (canonicalName name)).toList.length)
      (fun name => name.toList.length)
      (fun name _ => (length_unqualifiedName_canonicalName name).1)
      ⟨name, hname, (length_unqualifiedName_canonicalName name).2 hdot⟩
    have heq := (((hstripped hlength).symm.trans h).map fun name => name.toList.length).sum_eq
    simp only [List.map_map, Function.comp_def] at heq
    exact absurd heq hsum.ne
  · rintro ⟨hdifferent, hsingle⟩
    have hback : (names.map fun name => unqualifiedName (canonicalName name)) = names := by
      simpa using List.map_congr_left fun name hname =>
        unqualifiedName_canonicalName_of_single (hsingle name hname)
    have hcanonical : (names.map canonicalName).Nodup := by
      refine List.Nodup.of_map unqualifiedName ?_
      rwa [List.map_map, show unqualifiedName ∘ canonicalName =
        fun name => unqualifiedName (canonicalName name) from rfl, hback]
    have hlength : names.length ≤ sorted.length := by
      simpa using (List.subperm_of_subset hcanonical fun name h => (hmem name).2 h).length_le
    have h := hstripped hlength
    rw [hback] at h
    exact h

end NamedType

/-! ## Compositions -/

/-- A composition is recognized if its constituents have different names of one component. -/
theorem Shape.tidied_composition_iff {types : List NamedType}
    (h : ∀ type ∈ types, type.inner = none) :
    (Shape.composition types).withoutModules.tidied.standard .short =
        (Shape.composition types).standard .short ↔
      (types.map fun type => NamedType.unqualifiedName type.name).Nodup ∧
        ∀ type ∈ types, '.' ∉ (NamedType.unqualifiedName type.name).toList := by
  have hnames : NamedType.tidied (types.map NamedType.withoutModule) = NamedType.sortByName
      ((types.map fun type => NamedType.unqualifiedName type.name).map .ofName) := by
    simp [NamedType.tidied, NamedType.withoutModule, Function.comp_def]
  rw [withoutModules, renamed, tidied, renamed, standard_composition_iff
    (fun _ => NamedType.inner_of_mem_tidied) h, hnames, NamedType.names_sortByName_perm_iff]
  simp

/-! ## Nodes -/

/-- Without its module each name of the shape has one component, and no two constituents are called
alike. -/
def Shape.Recognizable : Shape → Prop
  | .named type => '.' ∉ (NamedType.unqualifiedName type.name).toList
  | .composition types =>
    (types.map fun type => NamedType.unqualifiedName type.name).Nodup ∧
      ∀ type ∈ types, '.' ∉ (NamedType.unqualifiedName type.name).toList
  | _ => True

namespace TypeExpr

/-- The shape of the node is recognized. -/
def RecognizableNode (t : TypeExpr) : Prop :=
  t.shape.Recognizable

theorem everywhere_iff {p : TypeExpr → Prop} {t : TypeExpr} :
    t.Everywhere p ↔ p t ∧ ∀ u ∈ t.children, u.Everywhere p :=
  ⟨fun h => ⟨h.here, h.child⟩, fun ⟨here, children⟩ => .node here children⟩

/-- Both expressions have the same normal form without modules. -/
def Recognized (t : TypeExpr) : Prop :=
  t.withoutModules.tidied.standard .short = t.standard .short

theorem map_standard_iff {types : List TypeExpr} :
    ((types.map withoutModules).map tidied).map (standard .short) = types.map (standard .short) ↔
      ∀ t ∈ types, t.Recognized := by
  rw [List.map_map, List.map_map, List.map_inj_left]
  rfl

/-- What an induction says of the parts of a shape: as expressions and as arguments of a closure. -/
def PartRecognized (t : TypeExpr) : Prop :=
  (t.Recognized ↔ t.Everywhere RecognizableNode) ∧
    ((∀ u ∈ t.asArguments, u.Recognized) ↔ t.Everywhere RecognizableNode)

/-- A shape is the same without modules if it and its parts are recognized. -/
theorem shape_tidied_iff {shape : Shape} {generics : List TypeExpr}
    (hnormal : shape.Normal generics) (hparts : ∀ u ∈ shape.children, u.PartRecognized) :
    shape.withoutModules.tidied.standard .short = shape.standard .short ↔
      shape.Recognizable ∧ ∀ u ∈ shape.children, u.Everywhere RecognizableNode := by
  cases shape with
  | named type =>
      obtain ⟨name, inner⟩ := type
      have hinner : ((inner.map withoutModules).map tidied).map (standard .short) =
          inner.map (standard .short) ↔
          ∀ u ∈ (Shape.named ⟨name, inner⟩).children, u.Everywhere RecognizableNode := by
        cases inner with
        | none => simp [Shape.children]
        | some u => simpa [Shape.children, Recognized] using (hparts u (by simp [Shape.children])).1
      rw [Shape.Recognizable, ← hinner,
        ← NamedType.unqualifiedName_canonicalName_iff (NamedType.unqualifiedName name)]
      simp [Shape.withoutModules, withoutModules, Shape.tidied, tidied, Shape.renamed_named,
        Shape.standard_named, NamedType.standard, NameStyle.spell]
  | tuple elements =>
      have helements := forall₂_congr fun u (hu : u ∈ elements) => (hparts u hu).1
      rw [Shape.withoutModules, Shape.renamed_tuple, Shape.tidied, Shape.renamed_tuple,
        Shape.standard_tuple, Shape.standard_tuple, Shape.tuple.injEq]
      exact (map_standard_iff.trans helements).trans (and_iff_right trivial).symm
  | closure arguments returns throws =>
      have harguments := map_standard_iff.trans (hparts arguments (by simp [Shape.children])).2
      have hreturns := (hparts returns (by simp [Shape.children])).1
      rw [Recognized] at hreturns
      rw [withoutModules, tidied] at harguments hreturns
      simp only [Shape.withoutModules, Shape.tidied, Shape.renamed, Shape.standard_closure,
        Shape.closure.injEq, asArguments_renamed, tuple, ofShape, mk.injEq, Shape.tuple.injEq,
        and_true]
      rw [harguments, hreturns]
      simp [Shape.Recognizable, Shape.children]
  | composition types =>
      have hplain : ∀ type ∈ types, type.inner = none :=
        fun type htype => (hnormal.2.2.1 type htype).2
      have hchildren : (Shape.composition types).children = [] :=
        List.filterMap_eq_nil_iff.2 hplain
      rw [Shape.tidied_composition_iff hplain, Shape.Recognizable, hchildren]
      simp

/-- An expression is recognized if and only if each of its nodes is. -/
theorem recognized_iff {t : TypeExpr} (h : t.Everywhere NormalNode) :
    t.Recognized ↔ t.Everywhere RecognizableNode := by
  -- a closure compares the elements of its argument
  suffices hboth : t.PartRecognized from hboth.1
  induction h with
  | @node t here children ih =>
      have hrecognized : t.Recognized ↔ t.Everywhere RecognizableNode := by
        obtain ⟨shape, generics, attributes, isInout, label⟩ := t
        have hgenerics := map_standard_iff.trans
          (forall₂_congr fun u hu => (ih u (List.mem_append_left _ hu)).1)
        have hshape := shape_tidied_iff here.shape fun u hu => ih u (List.mem_append_right _ hu)
        rw [everywhere_iff, TypeExpr.children, List.forall_mem_append, and_left_comm,
          RecognizableNode, ← hshape, ← hgenerics, Recognized, withoutModules, renamed_mk, tidied,
          renamed_mk, standard_mk, standard_mk]
        simp [and_comm, Shape.withoutModules, Shape.tidied]
      refine ⟨hrecognized, ?_⟩
      by_cases hkind : t.kind = .tuple
      · obtain ⟨shape, generics, attributes, isInout, label⟩ := t
        cases shape with
        | tuple elements =>
            obtain rfl : generics = [] := here.shape.1
            rw [everywhere_iff]
            have helements := forall₂_congr fun u (hu : u ∈ elements) => (ih u hu).1
            exact helements.trans (and_iff_right trivial).symm
        | _ => simp [kind, Shape.kind] at hkind
      · rw [asArguments_of_kind_ne hkind]
        simpa [Recognized] using hrecognized

/-- What is read from the short text of an expression is the same up to module qualifiers if and
only if each node is recognized. -/
theorem reread_sameUpToModule_iff {t : TypeExpr} (h : t.Everywhere NormalNode) :
    t.withoutModules.reread.sameUpToModule t ↔ t.Everywhere RecognizableNode := by
  rw [sameUpToModule_iff, standard, reread, erase_respelled]
  exact recognized_iff h

end TypeExpr

end SwiftSurface
