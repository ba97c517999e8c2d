import SwiftSurface.Proofs.TypeExpr.Chains
import SwiftSurface.TypeExpr.Scope

/-!
# References to generic parameters

A named type refers to its name, and any type refers to what the types in its positions of
references refer to: the generic arguments of each segment of a chain, the elements of a tuple, the
arguments and the result of a closure. The names of inner types and the constituents of a
composition are no references.

`TypeExpr.refersTo` looks at fewer positions: of a chain it sees the generic arguments of the first
segment only (`refersTo_iff`). So it finds every reference just if each name that is referred to
stands in a position that it sees (`refersTo_complete_iff`).

Of nested scopes it sees no more than the names they declare together (`refersTo_chain`).
-/

namespace SwiftSurface

namespace TypeExpr

/-- The types right below this one in the positions of references. -/
def references (t : TypeExpr) : List TypeExpr :=
  match t.shape with
  | .named _ => t.segments.flatMap (·.arguments)
  | .tuple elements => elements
  | .closure arguments returns _ => [arguments, returns]
  | .composition _ => []

/-- The references of this type without those of its inner types. -/
def ownReferences (t : TypeExpr) : List TypeExpr :=
  match t.shape with
  | .named _ => t.generics
  | .tuple elements => elements
  | .closure arguments returns _ => [arguments, returns]
  | .composition _ => []

/-- The type, or one below it in such a position, is the named type of this name. -/
inductive Refers (positions : TypeExpr → List TypeExpr) (name : String) : TypeExpr → Prop where
  | here {t : TypeExpr} {type : NamedType} (hshape : t.shape = .named type)
      (hname : type.name = name) : Refers positions name t
  | part {t u : TypeExpr} (hu : u ∈ positions t) (h : Refers positions name u) :
      Refers positions name t

section

variable {t u : TypeExpr} {inScope : String → Bool} {name : String}

theorem ownReferences_subset_children (h : u ∈ t.ownReferences) : u ∈ t.children := by
  obtain ⟨shape, generics, attributes, isInout, label⟩ := t
  cases shape with
  | named type => exact List.mem_append_left _ h
  | tuple elements => exact List.mem_append_right _ h
  | closure arguments returns throws => exact List.mem_append_right _ h
  | composition constituents => simp [ownReferences] at h

theorem segments_named (type : NamedType) (generics : List TypeExpr) (attributes : List Attribute)
    (isInout : Bool) (label : Option String) :
    segments ⟨.named type, generics, attributes, isInout, label⟩ =
      ⟨type.name, generics⟩ :: type.inner.toList.flatMap segments := by
  obtain ⟨name, _ | inner⟩ := type <;> simp [segments]

theorem ownReferences_subset (h : u ∈ t.ownReferences) : u ∈ t.references := by
  obtain ⟨shape, generics, attributes, isInout, label⟩ := t
  cases shape with
  | named type =>
      rw [references, segments_named]
      exact List.mem_append_left _ h
  | _ => exact h

theorem Refers.of_own (h : t.Refers ownReferences name) : t.Refers references name := by
  induction h with
  | here hshape hname => exact .here hshape hname
  | part hu _ ih => exact .part (ownReferences_subset hu) ih

/-! ## What is found -/

theorem anyRefersTo_iff (types : List TypeExpr) :
    anyRefersTo inScope types ↔ ∃ t ∈ types, t.refersTo inScope := by
  induction types with
  | nil => simp [anyRefersTo]
  | cons t types ih => simp [anyRefersTo, ih]

theorem refersTo_node (t : TypeExpr) :
    t.refersTo inScope ↔ (∃ type, t.shape = .named type ∧ inScope type.name) ∨
      ∃ u ∈ t.ownReferences, u.refersTo inScope := by
  obtain ⟨shape, generics, attributes, isInout, label⟩ := t
  cases shape with
  | named type => cases type; simp [refersTo, ownReferences, anyRefersTo_iff]
  | _ => simp [refersTo, ownReferences, anyRefersTo_iff]

/-- The references that are found are those in the positions of `ownReferences`. -/
theorem refersTo_iff (inScope : String → Bool) (t : TypeExpr) :
    t.refersTo inScope ↔ ∃ name, inScope name ∧ t.Refers ownReferences name := by
  induction t using induction_on_children with
  | node t ih =>
      rw [refersTo_node]
      constructor
      · rintro (⟨type, hshape, hscope⟩ | ⟨u, hu, hrefers⟩)
        · exact ⟨type.name, hscope, .here hshape rfl⟩
        · obtain ⟨name, hscope, h⟩ := (ih u (ownReferences_subset_children hu)).1 hrefers
          exact ⟨name, hscope, .part hu h⟩
      · rintro ⟨name, hscope, h⟩
        cases h with
        | here hshape hname => exact .inl ⟨_, hshape, hname ▸ hscope⟩
        | part hu h =>
            have hrefers := (ih _ (ownReferences_subset_children hu)).2 ⟨name, hscope, h⟩
            exact .inr ⟨_, hu, hrefers⟩

/-! ## What is missed -/

/-- The inner type of this node, if it has one, is a name without generic arguments. -/
def PlainInner (t : TypeExpr) : Prop :=
  ∀ type, t.shape = .named type → ∀ inner ∈ type.inner, inner.generics = []

theorem segments_of_plainInner (h : t.Everywhere PlainInner) (hgenerics : t.generics = []) :
    t.segments.flatMap (·.arguments) = [] := by
  induction h with
  | @node t here children ih =>
      obtain ⟨shape, generics, attributes, isInout, label⟩ := t
      obtain rfl : generics = [] := hgenerics
      cases shape with
      | named type =>
          obtain ⟨name, _ | inner⟩ := type
          · rfl
          · exact ih inner (by simp [TypeExpr.children, Shape.children]) (here _ rfl inner rfl)
      | _ => rfl

theorem references_of_plainInner (h : t.Everywhere PlainInner) :
    t.references = t.ownReferences := by
  have hhere := h.here
  have hchildren := h.child
  obtain ⟨shape, generics, attributes, isInout, label⟩ := t
  cases shape with
  | named type =>
      obtain ⟨name, _ | inner⟩ := type
      · simp [references, ownReferences, segments]
      · have hinner := segments_of_plainInner
          (hchildren inner (by simp [children, Shape.children])) (hhere _ rfl inner rfl)
        simp only [references, ownReferences, segments, List.flatMap_cons, hinner, List.append_nil]
  | _ => rfl

theorem Refers.own_of_plainInner (h : t.Refers references name) (ht : t.Everywhere PlainInner) :
    t.Refers ownReferences name := by
  induction h with
  | here hshape hname => exact .here hshape hname
  | part hu _ ih =>
      rw [references_of_plainInner ht] at hu
      exact .part hu (ih (ht.child _ (ownReferences_subset_children hu)))

end

end TypeExpr

/-! ## Scopes -/

namespace GenericScope

/-- The parameters of this scope and of those around it, innermost first. -/
def chain : GenericScope → List (List String)
  | ⟨parameters, none⟩ => [parameters]
  | ⟨parameters, some parent⟩ => parameters :: parent.chain
termination_by structural scope => scope

/-- A scope declares the parameters of each scope of its chain. -/
theorem declares_iff : (scope : GenericScope) → (name : String) →
    (scope.declares name ↔ ∃ parameters ∈ scope.chain, name ∈ parameters)
  | ⟨parameters, none⟩, name => by simp [declares, chain]
  | ⟨parameters, some parent⟩, name => by simp [declares, chain, parent.declares_iff name]
termination_by structural scope => scope

theorem chain_foldl (scope : GenericScope) (inner : List (List String)) :
    (inner.foldl (fun scope parameters => { parameters, parent := some scope }) scope).chain =
      inner.reverse ++ scope.chain := by
  induction inner generalizing scope with
  | nil => rfl
  | cons parameters inner ih => simp [ih, chain]

/-- Nested scopes declare the parameters of each of them. -/
theorem declares_nest (scopes : List (List String)) (name : String) :
    (nest scopes).declares name ↔ ∃ parameters ∈ scopes, name ∈ parameters := by
  cases scopes with
  | nil => simp [nest, declares]
  | cons outermost inner =>
      rw [nest, declares_iff, chain_foldl]
      simp [chain, or_comm]

end GenericScope

/-- Every reference to a name in scope is found if and only if each name that the type refers to
stands outside the generic arguments of inner types. This is so if no inner type has any. -/
theorem TypeExpr.refersTo_complete_iff (t : TypeExpr) :
    (∀ inScope : String → Bool,
      (t.refersTo inScope ↔ ∃ name, inScope name ∧ t.Refers ownReferences name) ∧
        t.refersToNone inScope = !t.refersTo inScope) ∧
    (∀ scopes : List (List String), t.refersTo (GenericScope.nest scopes).declares ↔
      ∃ parameters ∈ scopes, ∃ name ∈ parameters, t.Refers ownReferences name) ∧
    ((∀ inScope : String → Bool,
        t.refersTo inScope ↔ ∃ name, inScope name ∧ t.Refers references name) ↔
      ∀ name, t.Refers references name → t.Refers ownReferences name) ∧
    (t.Everywhere PlainInner → ∀ inScope : String → Bool,
      t.refersTo inScope ↔ ∃ name, inScope name ∧ t.Refers references name) := by
  have hcomplete (h : ∀ name, t.Refers references name → t.Refers ownReferences name)
      (inScope : String → Bool) :
      t.refersTo inScope ↔ ∃ name, inScope name ∧ t.Refers references name := by
    rw [refersTo_iff]
    exact exists_congr fun name => and_congr_right fun _ => ⟨Refers.of_own, h name⟩
  refine ⟨fun inScope => ⟨refersTo_iff inScope t, rfl⟩, fun scopes => ?_,
    ⟨fun h name hrefers => ?_, hcomplete⟩,
    fun h => hcomplete fun name hrefers => hrefers.own_of_plainInner h⟩
  · simp only [refersTo_iff, GenericScope.declares_nest]
    grind
  · -- the scope that declares just this name
    obtain ⟨name', hscope, h⟩ := (refersTo_iff _ t).1 ((h (· == name)).2 ⟨name, by simp, hrefers⟩)
    exact beq_iff_eq.1 hscope ▸ h

theorem TypeExpr.refersTo_complete_iff_index :
    let t := (generic "Swift.Dictionary" [named "K", named "V"]).withInner (named "Index")
    t.Everywhere PlainInner ∧ (t.refersTo (· == "V") ↔ ∃ name, name == "V" ∧
      t.Refers references name) := by
  intro t
  have hnamed (name : String) : (named name).Everywhere PlainInner :=
    .node (by simp [PlainInner, named, ofShape, NamedType.ofName])
      (by simp [children, Shape.children, named, ofShape, NamedType.ofName])
  have hplain : t.Everywhere PlainInner := by
    refine .node (fun type htype inner hinner => ?_) fun u hu => ?_
    · obtain rfl := Shape.named.inj htype
      obtain rfl := Option.some.inj hinner
      rfl
    · have hchildren : t.children = [named "K", named "V", named "Index"] := rfl
      obtain rfl | rfl | rfl : u = named "K" ∨ u = named "V" ∨ u = named "Index" := by
        simpa [hchildren] using hu
      all_goals exact hnamed _
  obtain ⟨-, -, -, hcomplete⟩ := refersTo_complete_iff t
  exact ⟨hplain, hcomplete hplain _⟩

/-- The generic argument of an inner type is missed. -/
example : (TypeExpr.parse "A<B>.C<T>").map (·.refersTo (· == "T")) = some false := by
  decide +kernel

/-! ## Nested scopes -/

/-- Nested scopes are the union of their names: a type refers to a name of a scope or of one around
it if and only if it refers to one of all these names in one list, and if and only if it refers to
one of the names of a single scope of the chain. A type that refers to a name in scope still does
when scopes are added, anywhere in the chain. -/
theorem TypeExpr.refersTo_chain (t : TypeExpr) (scope : GenericScope) :
    (∀ names : List String, (∀ name, name ∈ names ↔ name ∈ scope.chain.flatten) →
      t.refersTo scope.declares = t.refersTo names.contains) ∧
    t.refersTo scope.declares =
      scope.chain.any (fun parameters => t.refersTo parameters.contains) ∧
    ∀ wider : GenericScope, scope.chain ⊆ wider.chain → t.refersTo scope.declares →
      t.refersTo wider.declares := by
  refine ⟨fun names hnames => ?_, ?_, fun wider hwider => ?_⟩
  · have hscope : scope.declares = names.contains := by
      funext name
      rw [Bool.eq_iff_iff, GenericScope.declares_iff, List.contains_iff_mem, hnames,
        List.mem_flatten]
    rw [hscope]
  · rw [Bool.eq_iff_iff, List.any_eq_true, refersTo_iff]
    simp only [refersTo_iff, GenericScope.declares_iff, List.contains_iff_mem]
    grind
  · simp only [refersTo_iff, GenericScope.declares_iff]
    rintro ⟨name, ⟨parameters, hparameters, hname⟩, hrefers⟩
    exact ⟨name, ⟨parameters, hwider hparameters, hname⟩, hrefers⟩

theorem TypeExpr.refersTo_chain_three :
    let t := generic "Swift.Array" [closure (named "Value") (named "U") false]
    let scope := GenericScope.nest [["Key", "Value"], ["T"]]
    let wider := GenericScope.nest [["Key", "Value"], ["U"], ["T"]]
    let names := ["T", "Value", "Key", "T"]
    (∀ name, name ∈ names ↔ name ∈ scope.chain.flatten) ∧ scope.chain ⊆ wider.chain ∧
      t.refersTo scope.declares ∧ t.refersTo scope.declares = t.refersTo names.contains ∧
      t.refersTo wider.declares := by
  intro t scope wider names
  obtain ⟨hunion, -, hwiden⟩ := refersTo_chain t scope
  have hnames : ∀ name, name ∈ names ↔ name ∈ scope.chain.flatten := by
    have hchain : scope.chain.flatten = ["T", "Key", "Value"] := rfl
    simp only [hchain, names, List.mem_cons, List.not_mem_nil]
    grind
  have hwider : scope.chain ⊆ wider.chain := by decide
  have hrefers : t.refersTo scope.declares := by decide
  exact ⟨hnames, hwider, hrefers, hunion names hnames, hwiden wider hwider hrefers⟩

end SwiftSurface
