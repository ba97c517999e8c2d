import SwiftSurface.Proofs.TypeExpr.Normal

/-!
# What comes back from the written form

`TypeExpr.respells` tells whether the written form of an accepted expression is read as the same
type, and `TypeExpr.respelled` is the expression that is then read. It differs from the one that was
written in attributes only: a lone empty parameter is dropped, and the attributes of a tuple that is
a closure's argument go to the closure, whose first characters they are.

Four things do not come back. A composition of one protocol is written as a named type. A list of
parameters that begins with an empty one is not read. The modifiers of a tuple that is a closure's
argument are read as those of the closure, or not at all behind its own `inout` or label. And a type
named `inout` is read as the mark where it is the first word and a blank follows it.
-/

namespace SwiftSurface

/-! ## The first word -/

/-- The name that a closure's argument is written as, if it stands without parentheses and starts
with a name that a blank follows. -/
def TypeExpr.leadingName? : TypeExpr → Option String
  | ⟨.named type, [], [], false, none⟩ => some type.name
  | ⟨.composition (first :: _), [], [], false, none⟩ => some first.name
  | _ => none

/-- The first word of a written shape, if a blank follows it. -/
def Shape.leadingName? : Shape → Option String
  | .composition (first :: _ :: _) => some first.name
  | .closure arguments _ _ => arguments.leadingName?
  | _ => none

/-! ## Which expressions come back -/

/-- The parameters are read back, if not all as they are. -/
def Attribute.respells (a : Attribute) : Bool :=
  match a.parameters with
  | first :: _ :: _ => first != ""
  | _ => true

/-- The attributes that are written in front of a closure's argument without a parenthesis before
them. -/
def Shape.argumentAttributes : Shape → List Attribute
  | .closure ⟨.tuple _, _, attributes, _, _⟩ _ _ => attributes
  | _ => []

mutual

/-- Is the written form read as the same type? -/
def TypeExpr.respells : TypeExpr → Bool
  | ⟨shape, generics, attributes, isInout, label⟩ =>
    (attributes ++ shape.argumentAttributes).all (·.respells)
      && (isInout || label.isSome || shape.leadingName? != some "inout")
      && (shape.argumentAttributes.isEmpty || !isInout && label.isNone)
      && TypeExpr.respellAll generics && shape.respells
termination_by structural t => t

/-- Is the written form less the decorations read as the same type? -/
def TypeExpr.coreRespells : TypeExpr → Bool
  | ⟨shape, generics, _, _, _⟩ => TypeExpr.respellAll generics && shape.respells
termination_by structural t => t

/-- Are the parts of the shape read back? -/
def Shape.respells : Shape → Bool
  | .named ⟨_, none⟩ => true
  | .named ⟨_, some inner⟩ => inner.coreRespells
  | .tuple elements => TypeExpr.respellAll elements
  | .closure ⟨.tuple elements, _, _, isInout, _⟩ returns _ =>
    !isInout && TypeExpr.respellAll elements && returns.respells
  | .closure arguments returns _ =>
    (if arguments.needsParentheses then arguments.respells else arguments.coreRespells)
      && returns.respells
  | .composition constituents => 2 ≤ constituents.length
termination_by structural shape => shape

/-- Does each of these expressions come back? -/
def TypeExpr.respellAll : List TypeExpr → Bool
  | [] => true
  | t :: rest => t.respells && TypeExpr.respellAll rest
termination_by structural types => types

end

/-! ## What comes back -/

/-- The attribute that is read back: no character stands for a lone empty parameter. -/
def Attribute.respelled (a : Attribute) : Attribute :=
  { a with parameters := if a.parameters = [""] then [] else a.parameters }

mutual

/-- The expression that is read back from the written form. -/
def TypeExpr.respelled : TypeExpr → TypeExpr
  | ⟨shape, generics, attributes, isInout, label⟩ =>
    ⟨shape.respelled, TypeExpr.respelledAll generics,
      (attributes ++ shape.argumentAttributes).map (·.respelled), isInout, label⟩
termination_by structural t => t

/-- The shape that is read back. -/
def Shape.respelled : Shape → Shape
  | .named ⟨name, none⟩ => .named ⟨name, none⟩
  | .named ⟨name, some inner⟩ => .named ⟨name, some inner.respelled⟩
  | .tuple elements => .tuple (TypeExpr.respelledAll elements)
  | .closure ⟨.tuple elements, generics, _, isInout, label⟩ returns throws =>
    .closure ⟨.tuple (TypeExpr.respelledAll elements), generics, [], isInout, label⟩
      returns.respelled throws
  | .closure arguments returns throws => .closure arguments.respelled returns.respelled throws
  | .composition constituents => .composition constituents
termination_by structural shape => shape

/-- The expressions that are read back. -/
def TypeExpr.respelledAll : List TypeExpr → List TypeExpr
  | [] => []
  | t :: rest => t.respelled :: TypeExpr.respelledAll rest
termination_by structural types => types

end

/-! ## Lists of expressions and arguments of closures -/

theorem TypeExpr.eraseAll_eq_map (types : List TypeExpr) :
    TypeExpr.eraseAll types = types.map TypeExpr.erase := by
  induction types with
  | nil => rfl
  | cons t rest ih => simp [TypeExpr.eraseAll, ih]

theorem TypeExpr.respelledAll_eq_map (types : List TypeExpr) :
    TypeExpr.respelledAll types = types.map TypeExpr.respelled := by
  induction types with
  | nil => rfl
  | cons t rest ih => simp [TypeExpr.respelledAll, ih]

theorem TypeExpr.respellAll_iff (types : List TypeExpr) :
    TypeExpr.respellAll types ↔ ∀ t ∈ types, t.respells := by
  induction types with
  | nil => simp [TypeExpr.respellAll]
  | cons t rest ih => simp [TypeExpr.respellAll, ih]

theorem TypeExpr.asArguments_of_kind_ne {t : TypeExpr} (h : t.kind ≠ .tuple) :
    t.asArguments = [t] := by
  obtain ⟨shape, generics, attributes, isInout, label⟩ := t
  cases shape <;> simp_all [asArguments, elements?, kind, Shape.kind]

/-- What the arguments are, up to what tells no types apart, depends on the type only. -/
theorem TypeExpr.map_erase_asArguments (t : TypeExpr) :
    t.asArguments.map TypeExpr.erase = t.erase.asArguments := by
  obtain ⟨shape, generics, attributes, isInout, label⟩ := t
  cases shape with
  | named type =>
      obtain ⟨name, _ | inner⟩ := type <;> rfl
  | tuple elements => exact (eraseAll_eq_map elements).symm
  | closure arguments returns throws =>
      obtain ⟨shape, generics, attributes, isInout, label⟩ := arguments
      cases shape <;> rfl
  | composition constituents => rfl

/-- A closure is the function of its arguments, however they are written. -/
theorem Shape.erase_closure (arguments returns : TypeExpr) (throws : Bool) :
    (Shape.closure arguments returns throws).erase =
      .closure (.tuple (arguments.asArguments.map TypeExpr.erase)) returns.erase throws := by
  obtain ⟨shape, generics, attributes, isInout, label⟩ := arguments
  cases shape <;>
    simp [Shape.erase, TypeExpr.asArguments, TypeExpr.elements?, TypeExpr.eraseAll_eq_map]

theorem Shape.kind_respelled (shape : Shape) : shape.respelled.kind = shape.kind := by
  cases shape with
  | named type =>
      obtain ⟨name, _ | inner⟩ := type <;> rfl
  | closure arguments returns throws =>
      obtain ⟨shape, generics, attributes, isInout, label⟩ := arguments
      cases shape <;> rfl
  | _ => rfl

theorem TypeExpr.kind_respelled (t : TypeExpr) : t.respelled.kind = t.kind := by
  obtain ⟨shape, generics, attributes, isInout, label⟩ := t
  exact shape.kind_respelled

theorem Shape.respelled_closure {arguments : TypeExpr} (h : arguments.kind ≠ .tuple)
    (returns : TypeExpr) (throws : Bool) :
    (Shape.closure arguments returns throws).respelled =
      .closure arguments.respelled returns.respelled throws := by
  obtain ⟨shape, generics, attributes, isInout, label⟩ := arguments
  cases shape <;> first | rfl | exact absurd rfl h

theorem Shape.respells_closure {arguments : TypeExpr} (h : arguments.kind ≠ .tuple)
    (returns : TypeExpr) (throws : Bool) :
    (Shape.closure arguments returns throws).respells =
      ((if arguments.needsParentheses then arguments.respells else arguments.coreRespells) &&
        returns.respells) := by
  obtain ⟨shape, generics, attributes, isInout, label⟩ := arguments
  cases shape <;> first | rfl | exact absurd rfl h

/-! ## The expression read back is the same type -/

/-- A closure whose argument is no tuple comes back with its argument and its result. -/
theorem Shape.erase_respelled_closure {arguments returns : TypeExpr} {throws : Bool}
    (hkind : arguments.kind ≠ .tuple) (harguments : arguments.respelled.erase = arguments.erase)
    (hreturns : returns.respelled.erase = returns.erase) :
    (Shape.closure arguments returns throws).respelled.erase =
      (Shape.closure arguments returns throws).erase := by
  have hkind' : arguments.respelled.kind ≠ .tuple := by rwa [TypeExpr.kind_respelled]
  rw [Shape.respelled_closure hkind, Shape.erase_closure, Shape.erase_closure,
    TypeExpr.asArguments_of_kind_ne hkind, TypeExpr.asArguments_of_kind_ne hkind',
    List.map_singleton, List.map_singleton, harguments, hreturns]

mutual

/-- What is read back differs in attributes only. -/
theorem TypeExpr.erase_respelled : (t : TypeExpr) → t.respelled.erase = t.erase
  | ⟨shape, generics, attributes, isInout, label⟩ => by
    rw [TypeExpr.respelled, TypeExpr.erase, TypeExpr.erase, Shape.erase_respelled shape,
      TypeExpr.eraseAll_respelledAll generics]
termination_by structural t => t

theorem Shape.erase_respelled : (shape : Shape) → shape.respelled.erase = shape.erase
  | .named ⟨name, none⟩ => rfl
  | .named ⟨name, some inner⟩ => by
    rw [Shape.respelled, Shape.erase, Shape.erase, TypeExpr.erase_respelled inner]
  | .tuple elements => by
    rw [Shape.respelled, Shape.erase, Shape.erase, TypeExpr.eraseAll_respelledAll elements]
  | .closure ⟨.tuple elements, generics, attributes, isInout, label⟩ returns throws => by
    rw [Shape.respelled, Shape.erase, Shape.erase, TypeExpr.eraseAll_respelledAll elements,
      TypeExpr.erase_respelled returns]
  | .closure ⟨.named type, generics, attributes, isInout, label⟩ returns throws
  | .closure ⟨.closure _ _ _, generics, attributes, isInout, label⟩ returns throws
  | .closure ⟨.composition _, generics, attributes, isInout, label⟩ returns throws =>
    Shape.erase_respelled_closure (by simp [TypeExpr.kind, Shape.kind])
      (TypeExpr.erase_respelled _) (TypeExpr.erase_respelled returns)
  | .composition constituents => rfl
termination_by structural shape => shape

theorem TypeExpr.eraseAll_respelledAll : (types : List TypeExpr) →
    TypeExpr.eraseAll (TypeExpr.respelledAll types) = TypeExpr.eraseAll types
  | [] => rfl
  | t :: rest => by
    rw [TypeExpr.respelledAll, TypeExpr.eraseAll, TypeExpr.eraseAll, TypeExpr.erase_respelled t,
      TypeExpr.eraseAll_respelledAll rest]
termination_by structural types => types

end

/-! ## Canonical expressions come back as they are -/

theorem Attribute.respells_of_parameters {a : Attribute} (h : ∀ p ∈ a.parameters, p ≠ "") :
    a.respells = true ∧ a.respelled = a := by
  obtain ⟨name, parameters⟩ := a
  match parameters with
  | [] => exact ⟨rfl, by simp [respelled]⟩
  | [p] => exact ⟨rfl, by simp_all [respelled]⟩
  | p :: _ :: _ => exact ⟨by simp_all [respells], by simp [respelled]⟩

namespace TypeExpr

theorem respellAll_of_forall (types : List TypeExpr)
    (h : ∀ t ∈ types, t.respells = true ∧ t.respelled = t) :
    respellAll types = true ∧ respelledAll types = types := by
  refine ⟨(respellAll_iff types).2 fun t ht => (h t ht).1, ?_⟩
  rw [respelledAll_eq_map, List.map_congr_left fun t ht => (h t ht).2, List.map_id']

theorem coreRespells_of_respells {t : TypeExpr} (h : t.respells) : t.coreRespells := by
  obtain ⟨shape, generics, attributes, isInout, label⟩ := t
  simp only [respells, Bool.and_eq_true] at h
  simp [coreRespells, h.1.2, h.2]

/-- In a canonical expression no type that starts a closure's argument is named like the mark. -/
theorem leadingName?_ne {t : TypeExpr} (h : t.CanonicalNode) : t.leadingName? ≠ some "inout" := by
  intro hname
  unfold leadingName? at hname
  split at hname
  · exact h.name _ rfl (Option.some.inj hname)
  · exact (h.constituents _ rfl).2 _ (by simp) (Option.some.inj hname)
  · exact absurd hname (by simp)

/-- No word of a canonical node is read as the mark. -/
theorem shape_leadingName?_ne {t : TypeExpr} (h : t.CanonicalNode)
    (hchildren : ∀ u ∈ t.children, u.CanonicalNode) : t.shape.leadingName? ≠ some "inout" := by
  intro hname
  unfold Shape.leadingName? at hname
  split at hname
  case h_1 hshape => exact (h.constituents _ hshape).2 _ (by simp) (Option.some.inj hname)
  case h_2 arguments _ _ hshape =>
      have hchild : arguments ∈ t.children := by simp [children, hshape, Shape.children]
      exact leadingName?_ne (hchildren arguments hchild) hname
  case h_3 => exact absurd hname (by simp)

/-- The shape of a canonical node comes back if the parts of the node do. -/
theorem respells_shape {shape : Shape} {generics : List TypeExpr} {attributes : List Attribute}
    {isInout : Bool} {label : Option String}
    (h : CanonicalNode ⟨shape, generics, attributes, isInout, label⟩)
    (hchildren : ∀ t ∈ shape.children, t.respells = true ∧ t.respelled = t) :
    shape.respells = true ∧ shape.respelled = shape ∧ shape.argumentAttributes = [] := by
  cases shape with
  | named type =>
      obtain ⟨name, _ | inner⟩ := type
      · exact ⟨rfl, rfl, rfl⟩
      · obtain ⟨hrespells, hrespelled⟩ := hchildren inner (by simp [Shape.children])
        exact ⟨coreRespells_of_respells hrespells, by rw [Shape.respelled, hrespelled], rfl⟩
  | tuple elements =>
      obtain ⟨hrespell, hrespelled⟩ := respellAll_of_forall elements hchildren
      exact ⟨hrespell, by rw [Shape.respelled, hrespelled], rfl⟩
  | closure arguments returns throws =>
      obtain ⟨harguments, harguments'⟩ := hchildren arguments (by simp [Shape.children])
      obtain ⟨hreturns, hreturns'⟩ := hchildren returns (by simp [Shape.children])
      by_cases hkind : arguments.kind = .tuple
      · -- a tuple without modifiers: there is nothing that could move to the closure
        obtain ⟨hattributes, hinout⟩ := h.argument _ _ _ rfl hkind
        obtain ⟨shape, generics, attributes, isInout, label⟩ := arguments
        cases shape <;> simp [kind, Shape.kind] at hkind
        case tuple elements =>
            obtain rfl : attributes = [] := hattributes
            obtain rfl : isInout = false := hinout
            simp only [respells, Bool.and_eq_true] at harguments
            simp only [respelled, Shape.respelled, TypeExpr.mk.injEq, Shape.tuple.injEq]
              at harguments'
            refine ⟨?_, ?_, rfl⟩
            · simp only [Shape.respells, hreturns, Bool.not_false, Bool.true_and, Bool.and_true]
              exact harguments.2
            · rw [Shape.respelled, harguments'.1, hreturns']
      · rw [Shape.respelled_closure hkind, harguments', hreturns']
        refine ⟨?_, rfl, ?_⟩
        · simp [Shape.respells_closure hkind, coreRespells_of_respells, harguments, hreturns]
        · obtain ⟨shape, generics, attributes, isInout, label⟩ := arguments
          cases shape <;> first | exact absurd rfl hkind | rfl
  | composition constituents =>
      exact ⟨by simpa [Shape.respells] using (h.constituents _ rfl).1, rfl, rfl⟩

theorem respelled_of_canonical {t : TypeExpr} (h : Everywhere CanonicalNode t) :
    t.respells = true ∧ t.respelled = t := by
  induction h with
  | @node t here children ih =>
      obtain ⟨shape, generics, attributes, isInout, label⟩ := t
      obtain ⟨hgenerics, hgenerics'⟩ := respellAll_of_forall generics
        fun t ht => ih t (by simp [TypeExpr.children, ht])
      obtain ⟨hshape, hshape', hnone⟩ := respells_shape here
        fun t ht => ih t (by simp [TypeExpr.children, ht])
      have hattribute : ∀ a ∈ attributes, a.respells = true ∧ a.respelled = a :=
        fun a ha => Attribute.respells_of_parameters (here.parameters a ha).2
      have hname := shape_leadingName?_ne here fun u hu => (children u hu).here
      constructor
      · simp only [respells, hnone, hgenerics, hshape]
        simpa [hname] using fun a ha => (hattribute a ha).1
      · rw [respelled, hshape', hgenerics', hnone, List.append_nil,
          List.map_congr_left fun a ha => (hattribute a ha).2, List.map_id']

end TypeExpr

end SwiftSurface
