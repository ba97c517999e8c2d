import SwiftSurface.Proofs.TypeExpr.Brackets
import SwiftSurface.Proofs.TypeExpr.Chains
import SwiftSurface.Proofs.TypeExpr.Equivalence

/-!
# Inner types without their modules

`TypeExpr.withInner` selects a chain of names on a type with generic arguments. The components of
the chain are all kept, but each of its segments is compared and written without its first
component if it has several, as though that were a module. So two results are the same up to module
qualifiers if their segments are, one by one, and they are written alike without modules if their
segments are (`withInner_compared`). Chains of single components are told apart by their names.
-/

namespace SwiftSurface

open Grammar Text

/-! ## Chains -/

/-- The name is a path, and the generic arguments are spelled well. -/
structure Segment.Spelled (s : Segment) : Prop where
  name : IsPath s.name.toList
  arguments : ∀ t ∈ s.arguments, t.Everywhere TypeExpr.SpelledNode

/-- A dotted name, with a chain as inner type if it has generic arguments: what may stand behind a
dot. -/
inductive TypeExpr.IsChain : TypeExpr → Prop where
  | last {name : String} {generics : List TypeExpr} (h : Segment.Spelled ⟨name, generics⟩) :
      IsChain ⟨.named ⟨name, none⟩, generics, [], false, none⟩
  | dot {name : String} {generics : List TypeExpr} {inner : TypeExpr}
      (h : Segment.Spelled ⟨name, generics⟩) (hne : generics ≠ []) (hinner : inner.IsChain) :
      IsChain ⟨.named ⟨name, some inner⟩, generics, [], false, none⟩

/-- The components of the names of a chain. -/
def TypeExpr.components (t : TypeExpr) : List (List Char) :=
  t.segments.flatMap fun s => s.name.toList.splitOn '.'

namespace TypeExpr

theorem isNominal_generic (name : String) (generics : List TypeExpr) :
    (generic name generics).IsNominal :=
  .last

/-- A named type behind a named type is a named type, with the components of both. -/
theorem IsNominal.withInner {t u : TypeExpr} (ht : t.IsNominal) (hu : u.IsNominal) :
    (t.withInner u).IsNominal ∧ (t.withInner u).components = t.components ++ u.components := by
  induction ht with
  | @last name generics =>
      cases generics with
      | nil =>
          -- the two names are joined
          have hname {n : String} : (name ++ "." ++ n).toList = name.toList ++ '.' :: n.toList := by
            simp
          cases hu with
          | last =>
              exact ⟨.last, by
                simp [TypeExpr.withInner, components, segments, hname,
                  List.splitOn_append_cons_self]⟩
          | dot hinner =>
              exact ⟨.dot hinner, by
                simp [TypeExpr.withInner, components, segments, hname,
                  List.splitOn_append_cons_self]⟩
      | cons v generics =>
          exact ⟨.dot hu, by simp [TypeExpr.withInner, components, segments]⟩
  | dot hinner ih =>
      exact ⟨.dot ih.1, by simpa [TypeExpr.withInner, components, segments] using ih.2⟩

theorem IsNominal.components_ne_nil {t : TypeExpr} (h : t.IsNominal) : t.components ≠ [] := by
  cases h <;> simp [components, segments, List.splitOn_ne_nil]

theorem IsChain.isNominal {t : TypeExpr} (h : t.IsChain) : t.IsNominal := by
  induction h with
  | last => exact .last
  | dot _ _ _ ih => exact .dot ih

/-- A chain behind a chain is a chain, with the components of both. -/
theorem IsChain.withInner {t c : TypeExpr} (ht : t.IsChain) (hc : c.IsChain) :
    (t.withInner c).IsChain ∧ (t.withInner c).components = t.components ++ c.components := by
  refine ⟨?_, (ht.isNominal.withInner hc.isNominal).2⟩
  induction ht with
  | @last name generics h =>
      cases generics with
      | nil =>
          -- the two names are joined
          have hpath {n : String} (hn : IsPath n.toList) : IsPath (name ++ "." ++ n).toList := by
            simpa using h.name.append hn
          cases hc with
          | last h' => exact .last ⟨hpath h'.name, h'.arguments⟩
          | dot h' hne hinner => exact .dot ⟨hpath h'.name, h'.arguments⟩ hne hinner
      | cons u generics => exact .dot h (List.cons_ne_nil u generics) hc
  | dot h hne hinner ih => exact .dot h hne ih

end TypeExpr

/-! ## Compared without modules -/

/-- The names without their first components are the same, and so are the generic arguments up to
module qualifiers. -/
def Segment.SameUpToModule (s s' : Segment) : Prop :=
  NamedType.unqualifiedName s.name = NamedType.unqualifiedName s'.name ∧
    List.Forall₂ (fun t u : TypeExpr => t.sameUpToModule u) s.arguments s'.arguments

/-- The segment as it is written. -/
def Segment.write (style : NameStyle) (s : Segment) : List Char :=
  style.spell s.name ++
    if s.arguments.isEmpty then [] else '<' :: TypeExpr.writeAll style s.arguments ++ ['>']

namespace TypeExpr

theorem arguments_same_iff {generics generics' : List TypeExpr} :
    List.Forall₂ (fun t u : TypeExpr => t.sameUpToModule u) generics generics' ↔
      generics.map (standard .short) = generics'.map (standard .short) :=
  forall₂_iff_map_eq (fun t _ u => sameUpToModule_iff t u) generics'

/-- A node with another name and another inner type. -/
theorem standard_named_inj {name name' : String} {inner inner' : Option TypeExpr}
    {generics generics' : List TypeExpr} {attributes attributes' : List Attribute} {isInout : Bool}
    {label label' : Option String} :
    standard .short ⟨.named ⟨name, inner⟩, generics, attributes, isInout, label⟩ =
        standard .short ⟨.named ⟨name', inner'⟩, generics', attributes', isInout, label'⟩ ↔
      Segment.SameUpToModule ⟨name, generics⟩ ⟨name', generics'⟩ ∧
        inner.map (standard .short) = inner'.map (standard .short) := by
  rw [Segment.SameUpToModule, arguments_same_iff]
  simp [standard_mk, Shape.standard_named, NamedType.standard, NameStyle.spell]
  grind

theorem IsChain.same_iff {c d : TypeExpr} (hc : c.IsChain) (hd : d.IsChain) :
    c.sameUpToModule d ↔ List.Forall₂ Segment.SameUpToModule c.segments d.segments := by
  rw [sameUpToModule_iff]
  induction hc generalizing d with
  | last h =>
      cases hd with
      | last h' => simp [standard_named_inj, segments]
      | dot h' hne' hinner' => cases hinner' <;> simp [standard_named_inj, segments]
  | dot h hne hinner ih =>
      cases hd with
      | last h' => cases hinner <;> simp [standard_named_inj, segments]
      | dot h' hne' hinner' => simp [standard_named_inj, segments, ih hinner']

end TypeExpr

/-! ## Written without modules -/

section Written

variable {style : NameStyle}

/-- The name of a segment ends where its arguments or the segment end, and its arguments end at the
bracket that closes them. -/
theorem Segment.write_append_inj {s s' : Segment} (hs : s.Spelled) (hs' : s'.Spelled)
    {x y : List Char} (hx : s.arguments = [] → x = []) (hy : s'.arguments = [] → y = [])
    (h : s.write style ++ x = s'.write style ++ y) :
    style.spell s.name = style.spell s'.name ∧ s.write style = s'.write style ∧ x = y := by
  obtain ⟨name, arguments⟩ := s
  obtain ⟨name', arguments'⟩ := s'
  have hhead {arguments : List TypeExpr} {x : List Char} (hx : arguments = [] → x = []) :
      ∀ c ∈ ((if arguments.isEmpty then [] else
          '<' :: TypeExpr.writeAll style arguments ++ ['>']) ++ x).head?,
        isPathChar c = false := by
    cases arguments with
    | nil => simp [hx rfl]
    | cons t arguments => simp; decide
  simp only [write, List.append_assoc] at h ⊢
  obtain ⟨hname, htail⟩ := append_inj_of_class (isPathChar_spell style hs.name)
    (isPathChar_spell style hs'.name) (hhead hx) (hhead hy) h
  refine ⟨hname, ?_⟩
  rw [hname]
  cases arguments with
  | nil => cases arguments' <;> simp_all
  | cons t arguments =>
      cases arguments' with
      | nil => simp_all
      | cons t' arguments' =>
          have hbalanced {types : List TypeExpr}
              (h : ∀ t ∈ types, t.Everywhere TypeExpr.SpelledNode) :
              Balanced (TypeExpr.writeAll style types) :=
            balanced_writeAll fun t ht => balanced_write (h t ht)
          obtain ⟨hinside, hrest⟩ := (hbalanced hs.arguments).append_closing_inj
            (hbalanced hs'.arguments) (by simpa using htail)
          simp [hinside, hrest]

namespace TypeExpr

theorem write_last {name : String} {generics : List TypeExpr} :
    write style ⟨.named ⟨name, none⟩, generics, [], false, none⟩ =
      Segment.write style ⟨name, generics⟩ ++ [] := by
  simp [write, writeDecorations, Shape.write, Shape.writeInner, Segment.write]

theorem write_dot {name : String} {generics : List TypeExpr} {inner : TypeExpr} :
    write style ⟨.named ⟨name, some inner⟩, generics, [], false, none⟩ =
      Segment.write style ⟨name, generics⟩ ++ '.' :: inner.write style := by
  simp [write, writeDecorations, Shape.write, Shape.writeInner, Segment.write]

theorem IsChain.write_iff {c d : TypeExpr} (hc : c.IsChain) (hd : d.IsChain) :
    c.write style = d.write style ↔
      c.segments.map (Segment.write style) = d.segments.map (Segment.write style) := by
  induction hc generalizing d with
  | last h =>
      cases hd with
      | last h' => simp [write_last, segments]
      | dot h' hne' hinner' =>
          rw [write_last, write_dot]
          refine iff_of_false (fun heq => ?_) (by cases hinner' <;> simp [segments])
          obtain ⟨-, -, hrest⟩ := Segment.write_append_inj h h' (fun _ => rfl)
            (fun hnil => absurd hnil hne') heq
          exact absurd hrest (by simp)
  | dot h hne hinner ih =>
      cases hd with
      | last h' =>
          rw [write_last, write_dot]
          refine iff_of_false (fun heq => ?_) (by cases hinner <;> simp [segments])
          obtain ⟨-, -, hrest⟩ := Segment.write_append_inj h h' (fun hnil => absurd hnil hne)
            (fun _ => rfl) heq
          exact absurd hrest (by simp)
      | dot h' hne' hinner' =>
          rw [write_dot, write_dot, segments, segments, List.map_cons, List.map_cons,
            List.cons.injEq, ← ih hinner']
          constructor
          · intro heq
            obtain ⟨-, hwrite, hrest⟩ := Segment.write_append_inj h h' (fun hnil => absurd hnil hne)
              (fun hnil => absurd hnil hne') heq
            exact ⟨hwrite, (List.cons.inj hrest).2⟩
          · rintro ⟨hwrite, hrest⟩
            rw [hwrite, hrest]

end TypeExpr

end Written

/-! ## Single components -/

/-- Segments of single components with the same names spell the same components. -/
theorem components_eq_of_single {c d : TypeExpr} {R : Segment → Segment → Prop}
    (h : List.Forall₂ R c.segments d.segments)
    (hname : ∀ s ∈ c.segments, ∀ s' ∈ d.segments, R s s' →
      NamedType.unqualifiedName s.name = NamedType.unqualifiedName s'.name)
    (hc : ∀ s ∈ c.segments, '.' ∉ s.name.toList) (hd : ∀ s ∈ d.segments, '.' ∉ s.name.toList) :
    c.components = d.components := by
  rw [TypeExpr.components, TypeExpr.components]
  generalize c.segments = l, d.segments = l' at h hname hc hd
  induction h with
  | nil => rfl
  | @cons s s' l l' hR h ih =>
      have heq : s.name = s'.name := by
        rw [← NamedType.unqualifiedName_of_single (hc s (by simp)),
          hname s (by simp) s' (by simp) hR,
          NamedType.unqualifiedName_of_single (hd s' (by simp))]
      have htail := ih (fun u hu v hv => hname u (by simp [hu]) v (by simp [hv]))
        (fun u hu => hc u (by simp [hu])) fun u hu => hd u (by simp [hu])
      rw [List.flatMap_cons, List.flatMap_cons, heq, htail]

/-! ## Chains selected on one type -/

namespace TypeExpr

theorem IsChain.spelled {c : TypeExpr} (hc : c.IsChain) : ∀ s ∈ c.segments, s.Spelled := by
  induction hc with
  | last h => simpa [segments] using h
  | dot h hne hinner ih => simpa [segments] using ⟨h, ih⟩

/-- Chains of single components that are written alike have the same components. -/
theorem IsChain.components_eq_of_write {c d : TypeExpr} (hc : c.IsChain) (hd : d.IsChain)
    (h : c.segments.map (Segment.write .short) = d.segments.map (Segment.write .short))
    (hc' : ∀ s ∈ c.segments, '.' ∉ s.name.toList) (hd' : ∀ s ∈ d.segments, '.' ∉ s.name.toList) :
    c.components = d.components := by
  have halike := (forall₂_iff_map_eq
    (R := fun s s' => s.write .short = s'.write .short) (fun _ _ _ => Iff.rfl) d.segments).2 h
  refine components_eq_of_single halike (fun s hs s' hs' heq => ?_) hc' hd'
  obtain ⟨hname, -, -⟩ := Segment.write_append_inj (hc.spelled s hs) (hd.spelled s' hs')
    (fun _ => rfl) (fun _ => rfl) (congrArg (· ++ []) heq)
  exact String.toList_inj.1 hname

section Selected

variable {name : String} {inner : Option TypeExpr} {generics : List TypeExpr}
  {attributes : List Attribute} {isInout : Bool} {label : Option String}

/-- A chain selected on a type with generic arguments becomes its inner type, behind the chain that
is there. -/
theorem withInner_arguments (hne : generics ≠ []) (hinner : ∀ t ∈ inner, t.IsChain) {c : TypeExpr}
    (hc : c.IsChain) :
    ∃ u, withInner ⟨.named ⟨name, inner⟩, generics, attributes, isInout, label⟩ c =
        ⟨.named ⟨name, some u⟩, generics, attributes, isInout, label⟩ ∧ u.IsChain ∧
      u.components = inner.elim [] components ++ c.components := by
  cases inner with
  | none =>
      cases generics with
      | nil => exact absurd rfl hne
      | cons => exact ⟨c, rfl, hc, rfl⟩
  | some t => exact ⟨t.withInner c, rfl, (hinner t rfl).withInner hc⟩

theorem sameUpToModule_inner_iff {u v : TypeExpr} :
    sameUpToModule ⟨.named ⟨name, some u⟩, generics, attributes, isInout, label⟩
        ⟨.named ⟨name, some v⟩, generics, attributes, isInout, label⟩ ↔ u.sameUpToModule v := by
  have hrefl : Segment.SameUpToModule ⟨name, generics⟩ ⟨name, generics⟩ :=
    ⟨rfl, List.forall₂_same.2 fun t _ => by simp [sameUpToModule]⟩
  simp [sameUpToModule_iff, standard_named_inj, hrefl]

theorem renderShort_inner_iff {u v : TypeExpr} :
    renderShort ⟨.named ⟨name, some u⟩, generics, attributes, isInout, label⟩ =
        renderShort ⟨.named ⟨name, some v⟩, generics, attributes, isInout, label⟩ ↔
      u.write .short = v.write .short := by
  simp [renderShort, write, Shape.write, Shape.writeInner, String.ofList_inj]

end Selected

/-- Chains selected on a type with generic arguments. The results are the same up to module
qualifiers if and only if their segments are, and they are written alike without modules if and only
if their segments are: of each segment the first of several components is left out. So chains with
other components are told apart where each segment is a single component. -/
theorem withInner_compared {type : NamedType} {generics : List TypeExpr}
    (attributes : List Attribute) (isInout : Bool) (label : Option String) (hne : generics ≠ [])
    (hinner : ∀ t ∈ type.inner, t.IsChain) {c d : TypeExpr} (hc : c.IsChain) (hd : d.IsChain) :
    let t : TypeExpr := ⟨.named type, generics, attributes, isInout, label⟩
    let a := t.withInner c
    let b := t.withInner d
    (a.components = t.components ++ c.components ∧ b.components = t.components ++ d.components) ∧
    (a.sameUpToModule b ↔ List.Forall₂ Segment.SameUpToModule a.segments.tail b.segments.tail) ∧
    (a.renderShort = b.renderShort ↔
      a.segments.tail.map (Segment.write .short) = b.segments.tail.map (Segment.write .short)) ∧
    (c.components ≠ d.components →
      (∀ s ∈ a.segments.tail ++ b.segments.tail, '.' ∉ s.name.toList) →
      a.sameUpToModule b = false ∧ a.renderShort ≠ b.renderShort) := by
  intro t a b
  obtain ⟨name, inner⟩ := type
  obtain ⟨u, ha, hu, hucomponents⟩ : ∃ u, a = _ ∧ _ := withInner_arguments hne hinner hc
  obtain ⟨v, hb, hv, hvcomponents⟩ : ∃ v, b = _ ∧ _ := withInner_arguments hne hinner hd
  have hcomponents {w : TypeExpr} {rest : List (List Char)}
      (hw : w.components = inner.elim [] components ++ rest) :
      components ⟨.named ⟨name, some w⟩, generics, attributes, isInout, label⟩ =
        t.components ++ rest := by
    cases inner <;> simp_all [components, segments, t]
  rw [ha, hb]
  simp only [segments, List.tail_cons]
  rw [sameUpToModule_inner_iff, renderShort_inner_iff, hu.same_iff hv, hu.write_iff hv]
  refine ⟨⟨hcomponents hucomponents, hcomponents hvcomponents⟩, .rfl, .rfl,
    fun hdiffer hsingle => ?_⟩
  -- if the results were alike, so would be the components behind those that both have
  have hcancel (heq : u.components = v.components) : c.components = d.components := by
    rwa [hucomponents, hvcomponents, List.append_cancel_left_eq] at heq
  have hsingleu : ∀ s ∈ u.segments, '.' ∉ s.name.toList := fun s hs => hsingle s (by simp [hs])
  have hsinglev : ∀ s ∈ v.segments, '.' ∉ s.name.toList := fun s hs => hsingle s (by simp [hs])
  refine ⟨Bool.eq_false_iff.2 fun hsame => hdiffer (hcancel ?_),
    fun hwrite => hdiffer (hcancel ?_)⟩
  · rw [sameUpToModule_inner_iff, hu.same_iff hv] at hsame
    exact components_eq_of_single hsame (fun _ _ _ _ h => h.1) hsingleu hsinglev
  · rw [renderShort_inner_iff, hu.write_iff hv] at hwrite
    exact hu.components_eq_of_write hv hwrite hsingleu hsinglev

/-- `A<B>.C` is not `A<B>.E`, but `A<B>.C.D` is taken for `A<B>.E.D`. -/
theorem withInner_compared_single :
    let t := generic "A" [named "B"]
    (named "C").components ≠ (named "E").components ∧
    (t.withInner (named "C")).sameUpToModule (t.withInner (named "E")) = false ∧
    (named "C.D").components ≠ (named "E.D").components ∧
    (t.withInner (named "C.D")).sameUpToModule (t.withInner (named "E.D")) := by
  intro t
  have hlast (name : String) (h : IsPath name.toList) :
      IsChain ⟨.named ⟨name, none⟩, [], [], false, none⟩ := .last ⟨h, by simp⟩
  have hidentifier (name : String) (h : IsIdentifier name.toList) : IsPath name.toList :=
    ⟨_, [], h, by simp, by simp⟩
  have hC := hlast "C" (hidentifier "C" (isIdentifier_of_all rfl))
  have hE := hlast "E" (hidentifier "E" (isIdentifier_of_all rfl))
  have hCD := hlast "C.D" ⟨['C'], [['D']], isIdentifier_of_all rfl,
    by simpa using isIdentifier_of_all rfl, rfl⟩
  have hED := hlast "E.D" ⟨['E'], [['D']], isIdentifier_of_all rfl,
    by simpa using isIdentifier_of_all rfl, rfl⟩
  have hne : [named "B"] ≠ [] := by simp
  have hnone : ∀ t ∈ (NamedType.ofName "A").inner, t.IsChain := by simp [NamedType.ofName]
  have hdiffer : (named "C").components ≠ (named "E").components := by decide
  obtain ⟨-, -, -, hsingle⟩ := withInner_compared [] false none hne hnone hC hE
  obtain ⟨-, hjoined, -⟩ := withInner_compared [] false none hne hnone hCD hED
  refine ⟨hdiffer, (hsingle hdiffer ?_).1, by decide, hjoined.2 ?_⟩
  · decide
  · exact .cons ⟨by decide, .nil⟩ .nil

end TypeExpr

end SwiftSurface
