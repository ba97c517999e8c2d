import SwiftSurface.Proofs.Grammar.Operand

/-!
# What the grammar accepts

Every expression that is read is normal (`normal_of_parse`). Each rule yields normal expressions if
the parser it recurs through does, so `core` does on ever longer texts. A label is read at the root
and in front of the elements of a tuple only.
-/

namespace SwiftSurface

open Grammar SwiftSurface.Parser Text

namespace Grammar

/-! ## Attributes and labels -/

theorem yields_attributeParameter (closing : Char) :
    Yields (attributeParameter closing) fun p => trim p.toList = p.toList ∧ ',' ∉ p.toList := by
  intro s p r h
  obtain ⟨⟨cs, rest⟩, hrun, h⟩ := Option.map_eq_some_iff.1 h
  obtain ⟨rfl, -⟩ := Prod.mk.inj h
  obtain ⟨-, -, hall, -⟩ := run_eq_some hrun
  rw [String.toList_ofList]
  refine ⟨trim_trim cs, fun hcomma => ?_⟩
  simpa using hall ',' (mem_of_mem_trim hcomma)

theorem yields_attributeParameters (opening closing : Char) :
    Yields (attributeParameters opening closing)
      fun ps => ∀ p ∈ ps, trim p.toList = p.toList ∧ ',' ∉ p.toList :=
  ((yields_attributeParameter closing).some_separatedBy ',').between opening closing

theorem yields_attributeMark : Yields attributeMark Attribute.Normal := by
  intro s a r h
  obtain ⟨⟨name, rest⟩, hname, h⟩ := Option.map_eq_some_iff.1 h
  have hidentifier : Yields identifier IsIdentifier := fun _ _ _ => isIdentifier_of_identifier
  have hparameters := (yields_attributeParameters '(' ')').orElse
    (yields_attributeParameters '[' ']')
  rcases hread : optionally (orElse (attributeParameters '(' ')') (attributeParameters '[' ']'))
    rest with ⟨parameters, rest'⟩
  simp only [hread] at h
  obtain ⟨rfl, -⟩ := Prod.mk.inj h
  constructor
  · rw [String.toList_ofList]
    exact (hidentifier.after (char '@')) s _ _ hname
  · cases parameters with
    | none => simp
    | some parameters => exact hparameters.optionally (congrArg Prod.fst hread)

theorem yields_labelMark : Yields labelMark fun label => IsIdentifier label.toList := by
  intro s label r h
  obtain ⟨⟨name, rest⟩, hname, h⟩ := Option.map_eq_some_iff.1 h
  obtain ⟨rfl, -⟩ := Prod.mk.inj h
  have hidentifier : Yields identifier IsIdentifier := fun _ _ _ => isIdentifier_of_identifier
  simpa using (hidentifier.followedBy (padded (char ':'))) s _ _ hname

theorem yields_padded {α : Type} {p : Parser α} {P : α → Prop} (h : Yields p P) :
    Yields (padded p) P := by
  intro s a r hr
  obtain ⟨⟨b, rest⟩, hp, hr⟩ := Option.map_eq_some_iff.1 hr
  obtain ⟨rfl, -⟩ := Prod.mk.inj hr
  exact h _ _ _ hp

/-! ## Decorated types -/

/-- A normal expression without a label, as each part of an expression is that is no element of a
tuple. -/
def Unlabeled (t : TypeExpr) : Prop :=
  t.Everywhere TypeExpr.NormalNode ∧ t.label = none

theorem everywhere_decorate {t : TypeExpr} {attributes : List Attribute} {isInout : Bool}
    {label : Option String} (h : Unlabeled t) (hattributes : ∀ a ∈ attributes, a.Normal)
    (hlabel : ∀ l ∈ label, IsIdentifier l.toList) :
    (decorate attributes isInout label t).Everywhere TypeExpr.NormalNode := by
  obtain ⟨hnormal, hnone⟩ := h
  obtain ⟨hshape, hgenerics, hown, -⟩ := hnormal.here
  refine .node ⟨hshape, hgenerics, fun a ha => ?_, fun l hl => hlabel l ?_⟩ hnormal.child
  · exact (List.mem_append.1 ha).elim (hattributes a) (hown a)
  · simpa [decorate, hnone] using hl

section Rules

variable {inner : Parser TypeExpr}

theorem yields_withDecorations (h : Yields inner Unlabeled) (mayHaveLabel : Bool) :
    Yields (withDecorations mayHaveLabel inner) fun t =>
      t.Everywhere TypeExpr.NormalNode ∧ (mayHaveLabel = false → t.label = none) := by
  intro s t r hr
  rw [withDecorations] at hr
  have hattributes := (yields_padded yields_attributeMark).many s
  generalize many (padded attributeMark) s = attributes at hattributes hr
  obtain ⟨attributes, s₁⟩ := attributes
  dsimp only at hattributes hr
  generalize optionally inoutMark s₁ = inoutRead at hr
  obtain ⟨inoutRead, s₂⟩ := inoutRead
  have hlabel : ∀ l ∈ (if mayHaveLabel then optionally labelMark s₂ else (none, s₂)).1,
      IsIdentifier l.toList ∧ mayHaveLabel = true := by
    cases mayHaveLabel with
    | false => simp
    | true => exact fun l hl => ⟨yields_labelMark.optionally hl, rfl⟩
  dsimp only at hr
  generalize (if mayHaveLabel then optionally labelMark s₂ else (none, s₂)) = label at hlabel hr
  obtain ⟨label, s₃⟩ := label
  obtain ⟨⟨u, rest⟩, hu, hr⟩ := Option.map_eq_some_iff.1 hr
  obtain ⟨rfl, -⟩ := Prod.mk.inj hr
  have hinner := h _ _ _ hu
  refine ⟨everywhere_decorate hinner hattributes fun l hl => (hlabel l hl).1, ?_⟩
  rintro rfl
  cases label with
  | none => simpa [decorate] using hinner.2
  | some l => exact absurd (hlabel l rfl).2 (by simp)

theorem yields_unlabeled (h : Yields inner Unlabeled) : Yields (unlabeled inner) Unlabeled :=
  yields_padded ((yields_withDecorations h false).imp fun _ ht => ⟨ht.1, ht.2 rfl⟩)

/-! ## Nominal paths -/

/-- The module of the names that the short spellings stand for. -/
theorem isPath_swift (name : List Char) (h : IsIdentifier name) :
    IsPath ("Swift.".toList ++ name) :=
  ⟨"Swift".toList, [name], isIdentifier_of_all rfl, by simpa using h, by simp⟩

theorem isPath_array : IsPath "Swift.Array".toList :=
  isPath_swift "Array".toList (isIdentifier_of_all rfl)

theorem isPath_dictionary : IsPath "Swift.Dictionary".toList :=
  isPath_swift "Dictionary".toList (isIdentifier_of_all rfl)

theorem isTypeName_canonicalName {name : String} (h : IsPath name.toList) :
    IsTypeName (NamedType.canonicalName name) := by
  unfold NamedType.canonicalName
  split
  · exact ⟨isPath_swift "Any".toList (isIdentifier_of_all rfl), by decide, by decide⟩
  split
  · exact ⟨isPath_swift "AnyObject".toList (isIdentifier_of_all rfl), by decide, by decide⟩
  · exact ⟨h, ‹_›, ‹_›⟩

/-- A piece of a nominal path. -/
def IsSegment (t : TypeExpr) : Prop :=
  ∃ name generics, IsTypeName name ∧ (∀ u ∈ generics, Unlabeled u) ∧
    t = ⟨.named ⟨name, none⟩, generics, [], false, none⟩

theorem isSegment_generic {name : String} {generics : List TypeExpr} (hname : IsPath name.toList)
    (h : ∀ u ∈ generics, Unlabeled u) : IsSegment (TypeExpr.generic name generics) :=
  ⟨_, generics, isTypeName_canonicalName hname, h, rfl⟩

theorem unlabeled_of_isSegment {t : TypeExpr} (h : IsSegment t) :
    Unlabeled t ∧ t.IsBareNamed := by
  obtain ⟨name, generics, hname, hgenerics, rfl⟩ := h
  refine ⟨⟨.node ⟨⟨hname, by simp⟩, fun u hu => (hgenerics u hu).2, by simp, by simp⟩ ?_, rfl⟩,
    rfl, rfl, rfl, rfl⟩
  simpa [TypeExpr.children, Shape.children] using fun u hu => (hgenerics u hu).1

theorem yields_genericArguments (h : Yields inner Unlabeled) :
    Yields (genericArguments inner) fun types => types ≠ [] ∧ ∀ t ∈ types, Unlabeled t := by
  refine Yields.between (fun s types r hr => ?_) '<' '>'
  have hlist := (yields_unlabeled h).separatedBy ',' s
  split at hr
  · exact absurd hr (by simp)
  case h_2 hne =>
      rw [Option.some.inj hr] at hlist
      refine ⟨?_, hlist⟩
      rintro rfl
      exact hne r (Option.some.inj hr)

theorem yields_segment (h : Yields inner Unlabeled) : Yields (segment inner) IsSegment := by
  intro s t r hr
  obtain ⟨⟨name, rest⟩, hname, hr⟩ := Option.map_eq_some_iff.1 hr
  rcases hread : optionally (genericArguments inner) rest with ⟨generics, rest'⟩
  simp only [hread] at hr
  obtain ⟨rfl, -⟩ := Prod.mk.inj hr
  refine isSegment_generic (by simpa using isPath_of_dottedName hname) ?_
  cases generics with
  | none => simp
  | some generics =>
      exact ((yields_genericArguments h).optionally (congrArg Prod.fst hread)).2

/-- A dotted name is read to its end: no further segment follows it. -/
theorem after_dot_of_dottedName {s rest : List Char} {name : List Char}
    (h : dottedName s = some (name, rest)) : after (char '.') (segment inner) rest = none := by
  obtain ⟨⟨first, s'⟩, -, h⟩ := Option.map_eq_some_iff.1 h
  obtain ⟨-, rfl⟩ := Prod.mk.inj h
  have hshrinks : ∀ s a r, after (char '.') identifier s = some (a, r) → r.length < s.length := by
    intro s a r hr
    cases hdot : char '.' s with
    | none => simp [after, hdot] at hr
    | some found =>
        have := identifier_shrinks (by simpa [after, hdot] using hr)
        rw [char_eq_some hdot, List.length_cons]
        omega
  have hstop := many_stops hshrinks s'
  generalize (many (after (char '.') identifier) s').2 = rest at hstop
  rw [after] at hstop ⊢
  cases hdot : char '.' rest with
  | none => rfl
  | some found => simp_all [segment, dottedName]

/-- Only generic arguments stand between two segments. -/
theorem after_dot_of_segment (h : Yields inner Unlabeled) {s rest : List Char} {t : TypeExpr}
    (hr : segment inner s = some (t, rest)) (hnone : t.generics = []) :
    after (char '.') (segment inner) rest = none := by
  obtain ⟨⟨name, s'⟩, hname, hr⟩ := Option.map_eq_some_iff.1 hr
  cases hread : genericArguments inner s' with
  | none =>
      simp only [optionally, hread] at hr
      obtain ⟨-, rfl⟩ := Prod.mk.inj hr
      exact after_dot_of_dottedName hname
  | some found =>
      obtain ⟨types, rest'⟩ := found
      simp only [optionally, hread] at hr
      obtain ⟨rfl, -⟩ := Prod.mk.inj hr
      exact absurd hnone ((yields_genericArguments h) _ _ _ hread).1

/-- The segments behind the first one are its inner types, one in the other. -/
theorem nominalPath_many (h : Yields inner Unlabeled) (rest : List Char) :
    ∀ head, IsSegment head →
      (head.generics = [] → after (char '.') (segment inner) rest = none) →
      let t := nominalPath head (many (after (char '.') (segment inner)) rest).1
      Unlabeled t ∧ t.IsBareNamed := by
  fun_induction many (after (char '.') (segment inner)) rest with
  | case1 s next rest hread hlt more rest' hmore ih =>
      intro head hhead hgenerics
      rw [hmore] at ih
      obtain ⟨s', hnext⟩ : ∃ s', segment inner s' = some (next, rest) := by
        cases hdot : char '.' s with
        | none => simp [after, hdot] at hread
        | some found => exact ⟨_, by simpa [after, hdot] using hread⟩
      obtain ⟨hnormal, hbare⟩ := ih next (yields_segment h _ _ _ hnext)
        (after_dot_of_segment h hnext)
      obtain ⟨name, generics, hname, hparts, rfl⟩ := hhead
      -- a head without generic arguments would have read the dot as a part of its name
      have hne : generics ≠ [] := fun hnone => by simp [hgenerics hnone] at hread
      rw [nominalPath, withInner_of_generics hne]
      refine ⟨⟨.node ⟨⟨hname, ?_⟩, fun u hu => (hparts u hu).2, by simp, by simp⟩ ?_, rfl⟩,
        rfl, rfl, rfl, rfl⟩
      · simpa using ⟨hne, hbare⟩
      · intro u hu
        rcases List.mem_append.1 hu with hu | hu
        · exact (hparts u hu).1
        · obtain rfl : u = _ := by simpa [Shape.children] using hu
          exact hnormal.1
  | case2 => exact fun head hhead _ => unlabeled_of_isSegment hhead
  | case3 => exact fun head hhead _ => unlabeled_of_isSegment hhead

theorem yields_nominal (h : Yields inner Unlabeled) : Yields (nominal inner) Unlabeled := by
  intro s t r hr
  obtain ⟨⟨head, rest⟩, hhead, hr⟩ := Option.map_eq_some_iff.1 hr
  obtain ⟨rfl, -⟩ := Prod.mk.inj hr
  exact (nominalPath_many h rest head (yields_segment h _ _ _ hhead)
    (after_dot_of_segment h hhead)).1

/-! ## Groups, collections and optional types -/

theorem unlabeled_generic {name : String} {generics : List TypeExpr} (hname : IsPath name.toList)
    (h : ∀ u ∈ generics, Unlabeled u) : Unlabeled (TypeExpr.generic name generics) :=
  (unlabeled_of_isSegment (isSegment_generic hname h)).1

/-- A tuple of one element is left only if the element has a label. -/
theorem unlabeled_groupOf {elements : List TypeExpr}
    (h : ∀ t ∈ elements, t.Everywhere TypeExpr.NormalNode) : Unlabeled (groupOf elements) := by
  have htuple (hlabel : ∀ t, elements = [t] → t.label.isSome) :
      Unlabeled (TypeExpr.tuple elements) :=
    ⟨.node ⟨⟨rfl, hlabel⟩, fun u hu => absurd hu (List.not_mem_nil), by
      simp [TypeExpr.tuple, TypeExpr.ofShape], by simp [TypeExpr.tuple, TypeExpr.ofShape]⟩ h, rfl⟩
  unfold groupOf
  split
  case h_1 t =>
      cases hlabel : t.label with
      | none => exact ⟨h t (by simp), by simpa using hlabel⟩
      | some l => exact htuple (by simp [hlabel])
  case h_2 hne => exact htuple fun t ht => absurd ht (hne t)

theorem yields_group (h : Yields inner Unlabeled) : Yields (group inner) Unlabeled := by
  intro s t r hr
  obtain ⟨⟨elements, rest⟩, helements, hr⟩ := Option.map_eq_some_iff.1 hr
  obtain ⟨rfl, -⟩ := Prod.mk.inj hr
  have hitem := yields_padded ((yields_withDecorations h true).imp fun _ ht => ht.1)
  have hlist := ((hitem.some_separatedBy ',').after (padded (char '('))).followedBy (char ')')
  exact unlabeled_groupOf (hlist _ _ _ helements)

theorem yields_collection (h : Yields inner Unlabeled) : Yields (collection inner) Unlabeled := by
  refine Yields.between (fun s t r hr => ?_) '[' ']'
  obtain ⟨⟨first, rest⟩, hfirst, hr⟩ := Option.map_eq_some_iff.1 hr
  have hfirst := yields_unlabeled h _ _ _ hfirst
  rcases hread : optionally (after (padded (char ':')) (unlabeled inner)) rest with ⟨value, rest'⟩
  simp only [hread] at hr
  cases value with
  | none =>
      obtain ⟨rfl, -⟩ := Prod.mk.inj hr
      exact unlabeled_generic isPath_array (by simpa using hfirst)
  | some value =>
      have hvalue := ((yields_unlabeled h).after _).optionally (congrArg Prod.fst hread)
      obtain ⟨rfl, -⟩ := Prod.mk.inj hr
      exact unlabeled_generic isPath_dictionary (by simpa using ⟨hfirst, hvalue⟩)

theorem yields_optionalMark : Yields optionalMark fun wrapper => IsPath wrapper.toList := by
  intro s wrapper r hr
  unfold optionalMark at hr
  split at hr
  · obtain ⟨rfl, -⟩ := Prod.mk.inj (Option.some.inj hr)
    exact isPath_swift "Optional".toList (isIdentifier_of_all rfl)
  · obtain ⟨rfl, -⟩ := Prod.mk.inj (Option.some.inj hr)
    exact isPath_swift "ImplicitlyUnwrappedOptional".toList (isIdentifier_of_all rfl)
  · exact absurd hr (by simp)

/-- Each optional mark wraps what stands before it. -/
theorem unlabeled_foldl {wrappers : List String} {t : TypeExpr} (h : Unlabeled t)
    (hwrappers : ∀ wrapper ∈ wrappers, IsPath wrapper.toList) :
    Unlabeled (wrappers.foldl (fun t wrapper => .generic wrapper [t]) t) := by
  induction wrappers generalizing t with
  | nil => exact h
  | cons wrapper wrappers ih =>
      exact ih (unlabeled_generic (hwrappers wrapper (by simp)) (by simpa using h))
        fun next hnext => hwrappers next (by simp [hnext])

theorem yields_atom (h : Yields inner Unlabeled) : Yields (atom inner) Unlabeled := by
  intro s t r hr
  obtain ⟨⟨u, rest⟩, hu, hr⟩ := Option.map_eq_some_iff.1 hr
  obtain ⟨rfl, -⟩ := Prod.mk.inj hr
  have hrules := (yields_group h).orElse ((yields_collection h).orElse (yields_nominal h))
  exact unlabeled_foldl (hrules _ _ _ hu) (yields_optionalMark.many rest)

/-! ## Compositions -/

/-- A constituent is a plain name. -/
theorem isTypeName_of_constituentOf {t : TypeExpr} {type : NamedType} (h : Unlabeled t)
    (hr : constituentOf t = some type) : IsTypeName type.name ∧ type.inner = none := by
  rw [constituentOf] at hr
  split at hr
  case isTrue hempty =>
      have hshape := h.1.here.shape
      unfold TypeExpr.named? at hr
      split at hr
      case h_1 heq =>
          obtain rfl := Option.some.inj hr
          rw [heq, List.isEmpty_iff.1 hempty] at hshape
          exact ⟨hshape.1, hshape.regular.inner_eq_none⟩
      case h_2 => exact absurd hr (by simp)
  case isFalse => exact absurd hr (by simp)

theorem of_mapM_constituentOf {operands : List TypeExpr} {types : List NamedType}
    (h : operands.mapM constituentOf = some types) (hoperands : ∀ t ∈ operands, Unlabeled t) :
    types.length = operands.length ∧ ∀ type ∈ types, IsTypeName type.name ∧ type.inner = none := by
  induction operands generalizing types with
  | nil =>
      obtain rfl : [] = types := by simpa using h
      simp
  | cons t operands ih =>
      rw [List.mapM_cons] at h
      obtain ⟨type, htype, h⟩ := Option.bind_eq_some_iff.1 h
      obtain ⟨more, hmore, h⟩ := Option.bind_eq_some_iff.1 h
      obtain rfl := Option.some.inj h
      obtain ⟨hlength, hall⟩ := ih hmore fun t ht => hoperands t (by simp [ht])
      have hfirst := isTypeName_of_constituentOf (hoperands t (by simp)) htype
      exact ⟨by simp [hlength], by simpa using ⟨hfirst, hall⟩⟩

theorem unlabeled_composition {types : List NamedType} (hne : types ≠ [])
    (h : ∀ type ∈ types, IsTypeName type.name ∧ type.inner = none) :
    Unlabeled (TypeExpr.composition types) := by
  obtain ⟨hascending, hmem, hsorted⟩ := NamedType.sortByName_spec types
  refine ⟨.node ⟨⟨rfl, hsorted hne, fun c hc => h c (hmem c hc), ?_⟩, ?_, ?_, ?_⟩ ?_, rfl⟩
  · exact (NamedType.ascending_iff_of_inner fun c hc => (h c (hmem c hc)).2).1 hascending
  · exact fun u hu => absurd hu (List.not_mem_nil)
  · exact fun a ha => absurd ha (List.not_mem_nil)
  · exact fun l hl => absurd hl (by simp [TypeExpr.composition, TypeExpr.ofShape])
  · intro u hu
    obtain ⟨c, hc, hinner⟩ := List.mem_filterMap.1 hu
    rw [(h c (hmem c hc)).2] at hinner
    exact absurd hinner (by simp)

theorem yields_composition (h : Yields inner Unlabeled) :
    Yields (composition inner) Unlabeled := by
  intro s t r hr
  rw [composition] at hr
  cases hfirst : atom inner s with
  | none => simp [hfirst] at hr
  | some found =>
      obtain ⟨first, rest⟩ := found
      have hfirst' := yields_atom h _ _ _ hfirst
      have hmore := ((yields_atom h).after (padded (char '&'))).many rest
      rw [hfirst] at hr
      dsimp only at hr
      split at hr
      · obtain ⟨rfl, -⟩ := Prod.mk.inj (Option.some.inj hr)
        exact hfirst'
      case h_2 more rest' _ hmany =>
          rw [hmany] at hmore
          obtain ⟨types, htypes, hr⟩ := Option.map_eq_some_iff.1 hr
          obtain ⟨rfl, -⟩ := Prod.mk.inj hr
          have hoperands : ∀ t ∈ first :: more, Unlabeled t := by simpa using ⟨hfirst', hmore⟩
          obtain ⟨hlength, hnames⟩ := of_mapM_constituentOf htypes hoperands
          refine unlabeled_composition (fun hnil => ?_) hnames
          simp [hnil] at hlength

/-! ## Closures and whole types -/

theorem yields_arrow (h : Yields inner Unlabeled) :
    Yields (arrow inner) fun found => Unlabeled found.2 := by
  intro s found r hr
  rw [arrow] at hr
  obtain ⟨⟨returns, rest⟩, hreturns, hr⟩ := Option.map_eq_some_iff.1 hr
  obtain ⟨rfl, -⟩ := Prod.mk.inj hr
  have hreturn := (yields_withDecorations h false).after _ _ _ _ hreturns
  exact ⟨hreturn.1, hreturn.2 rfl⟩

theorem unlabeled_closure {arguments returns : TypeExpr} (harguments : Unlabeled arguments)
    (hreturns : Unlabeled returns) (throws : Bool) :
    Unlabeled (.closure arguments returns throws) := by
  refine ⟨.node ⟨⟨rfl, harguments.2, hreturns.2⟩, fun u hu => absurd hu (List.not_mem_nil),
    fun a ha => absurd ha (List.not_mem_nil), fun l hl => absurd hl (by
      simp [TypeExpr.closure, TypeExpr.ofShape])⟩ fun u hu => ?_, rfl⟩
  obtain rfl | rfl : u = arguments ∨ u = returns := by
    simpa [TypeExpr.children, TypeExpr.closure, TypeExpr.ofShape, Shape.children] using hu
  · exact harguments.1
  · exact hreturns.1

theorem yields_coreRule (h : Yields inner Unlabeled) : Yields (coreRule inner) Unlabeled := by
  intro s t r hr
  obtain ⟨⟨argument, rest⟩, hargument, hr⟩ := Option.map_eq_some_iff.1 hr
  have hargument := yields_composition h _ _ _ hargument
  rcases hread : optionally (arrow inner) rest with ⟨found, rest'⟩
  simp only [hread] at hr
  cases found with
  | none =>
      obtain ⟨rfl, -⟩ := Prod.mk.inj hr
      exact hargument
  | some found =>
      have hreturns := (yields_arrow h).optionally (congrArg Prod.fst hread)
      obtain ⟨rfl, -⟩ := Prod.mk.inj hr
      exact unlabeled_closure hargument hreturns found.1

end Rules

theorem yields_core : Yields core Unlabeled := by
  have hshort (n : Nat) : Yields (fun s => if s.length < n then core s else none) Unlabeled := by
    induction n with
    | zero => exact fun s t r hr => absurd hr (by simp)
    | succ n ih =>
        intro s t r hr
        dsimp only at hr
        split at hr
        case isTrue hs =>
            -- the guard at the text of length `n` is the parser on shorter texts
            rw [core] at hr
            refine yields_coreRule (fun part u r hu => ?_) _ _ _ hr
            split at hu
            case isTrue hpart => exact ih part u r (by simp [hu]; omega)
            case isFalse => exact absurd hu (by simp)
        case isFalse => exact absurd hr (by simp)
  exact fun s t r hr => hshort (s.length + 1) s t r (by simpa using hr)

end Grammar

/-- Every accepted expression is normal. -/
theorem TypeExpr.normal_of_parse {source : String} {t : TypeExpr} (h : parse source = some t) :
    t.Everywhere NormalNode := by
  rw [parse] at h
  split at h
  case h_1 hread =>
      obtain rfl := Option.some.inj h
      exact (yields_padded (yields_withDecorations yields_core true) _ _ _ hread).1
  case h_2 => exact absurd h (by simp)

end SwiftSurface
