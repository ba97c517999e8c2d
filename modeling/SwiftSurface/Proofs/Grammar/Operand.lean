import SwiftSurface.Proofs.Grammar.Outcome
import SwiftSurface.Proofs.TypeExpr.Composition

/-!
# Reading the operands of a written expression

An operand is a type less its decorations that is no closure: a nominal path, a tuple or a
composition. It ends at a blank, a comma or a closing mark. If the generic arguments of a nominal
path do not come back, reading stops in front of them.
-/

namespace SwiftSurface

open Grammar SwiftSurface.Parser Text

/-- The expression without its decorations. -/
def TypeExpr.bare (t : TypeExpr) : TypeExpr :=
  { t with attributes := [], isInout := false, label := none }

/-- `u` has another frame than `t` less its decorations, also as the argument of a closure. The
rules around it treat it as they treat `t`, and it has no modifier. -/
def TypeExpr.OtherCore (t u : TypeExpr) : Prop :=
  u.isInout = false ∧ u.outline = t.bare.outline ∧
    u.asArguments.map TypeExpr.frame ≠ t.bare.asArguments.map TypeExpr.frame

theorem TypeExpr.OtherCore.frame_ne {t u : TypeExpr} (h : t.OtherCore u) :
    u.frame ≠ t.bare.frame :=
  fun hframe => h.2.2 (by rw [map_frame_asArguments, map_frame_asArguments, hframe])

namespace Grammar

/-- The text is empty or starts with a blank, a comma or a closing mark. -/
def Breaks (rest : List Char) : Prop :=
  ∀ c ∈ rest.head?, c = ' ' ∨ c = ',' ∨ c = ')' ∨ c = '>'

/-- The text starts with the mark of generic arguments. -/
def AtArguments (rest : List Char) : Prop :=
  ∃ s, rest = '<' :: s

theorem Ends.breaks {rest : List Char} (h : Ends rest) : Breaks rest :=
  fun c hc => .inr (h c hc)

theorem Breaks.not_ident {rest : List Char} (h : Breaks rest) :
    ∀ c ∈ rest.head?, isIdentifierChar c = false := by
  intro c hc
  rcases h c hc with rfl | rfl | rfl | rfl <;> decide

theorem Breaks.ne {rest : List Char} (h : Breaks rest) {d : Char}
    (hd : d ≠ ' ' ∧ d ≠ ',' ∧ d ≠ ')' ∧ d ≠ '>') : ∀ c ∈ rest.head?, c ≠ d := by
  obtain ⟨h₁, h₂, h₃, h₄⟩ := hd
  intro c hc
  rcases h c hc with rfl | rfl | rfl | rfl
  · exact h₁.symm
  · exact h₂.symm
  · exact h₃.symm
  · exact h₄.symm

theorem AtArguments.ne {rest : List Char} (h : AtArguments rest) {d : Char} (hd : d ≠ '<') :
    ∀ c ∈ rest.head?, c ≠ d := by
  obtain ⟨s, rfl⟩ := h
  simpa using hd.symm

/-! ## Segments -/

theorem genericArguments_of_head {inner : Parser TypeExpr} {s : List Char}
    (h : ∀ c ∈ s.head?, c ≠ '<') : genericArguments inner s = none := by
  cases s with
  | nil => rfl
  | cons c s => simp [genericArguments, between, followedBy, after, char_cons_of_ne (h c rfl)]

/-- A name in front of something that is no generic argument. -/
theorem segment_path (inner : Parser TypeExpr) {name : String} {rest : List Char}
    (hname : IsPath name.toList)
    (hrest : ∀ c ∈ rest.head?, isIdentifierChar c = false ∧ c ≠ '.')
    (hnone : genericArguments inner rest = none) :
    segment inner (name.toList ++ rest) = some (.named name, rest) := by
  simp [segment, dottedName_append hname hrest, optionally, hnone]
  rfl

theorem genericArguments_cons (s : List Char) :
    genericArguments core ('<' :: s) = match separatedBy ',' (unlabeled core) s with
      | ([], _) => none
      | found => (char '>' found.2).map fun (_, rest) => (found.1, rest) := by
  simp only [genericArguments, between, followedBy, after, char_cons_self]
  rcases separatedBy ',' (unlabeled core) s with ⟨_ | ⟨u, us⟩, r⟩ <;> rfl

/-- The generic arguments of a written expression. -/
theorem genericArguments_write {generics : List TypeExpr} (hne : generics ≠ [])
    (h : ∀ t ∈ generics, ReadsBack false t ∧ Opens (t.write .full)) (rest : List Char) :
    let result := genericArguments core
      ('<' :: (TypeExpr.writeAll .full generics ++ '>' :: rest))
    (TypeExpr.respellAll generics = true ∧
      result = some (generics.map TypeExpr.reread, rest)) ∨
    (TypeExpr.respellAll generics = false ∧ (result = none ∨
      ∃ us, result = some (us, rest) ∧ us ≠ [] ∧
        us.map TypeExpr.frame ≠ generics.map TypeExpr.frame)) := by
  intro result
  have hlist := separatedBy_writeAll (.inr rfl) h rest
  have hresult : result = _ := genericArguments_cons _
  rcases hlist with ⟨hback, hfound⟩ | ⟨hnot, hclose | ⟨us, hfound, houtline, hframe⟩⟩
  · refine .inl ⟨hback, ?_⟩
    rw [hresult, unlabeled, hfound]
    cases generics with
    | nil => exact absurd rfl hne
    | cons t generics => simp
  · refine .inr ⟨hnot, .inl ?_⟩
    rw [hresult, unlabeled]
    split
    · rfl
    · rw [hclose, Option.map_none]
  · have hus : us ≠ [] := by
      rintro rfl
      cases generics <;> simp_all
    refine .inr ⟨hnot, .inr ⟨us, ?_, hus, hframe⟩⟩
    rw [hresult, unlabeled, hfound]
    cases us with
    | nil => exact absurd rfl hus
    | cons u us => simp

/-- A name with its generic arguments, if it has any. -/
theorem segment_write {name : String} {generics : List TypeExpr} (rest : List Char)
    (hname : IsPath name.toList)
    (h : ∀ t ∈ generics, ReadsBack false t ∧ Opens (t.write .full))
    (hrest : generics = [] → Breaks rest) :
    ∃ us r, segment core (name.toList ++ (writeGenerics generics ++ rest)) =
      some (⟨.named ⟨NamedType.canonicalName name, none⟩, us, [], false, none⟩, r) ∧
      ((TypeExpr.respellAll generics = true ∧ us = generics.map TypeExpr.reread ∧ r = rest) ∨
      (TypeExpr.respellAll generics = false ∧ (AtArguments r ∨
        r = rest ∧ us ≠ [] ∧ us.map TypeExpr.frame ≠ generics.map TypeExpr.frame))) := by
  cases generics with
  | nil =>
      have hbreaks := hrest rfl
      refine ⟨[], rest, ?_, .inl ⟨rfl, rfl, rfl⟩⟩
      exact segment_path core hname
        (fun c hc => ⟨hbreaks.not_ident c hc, hbreaks.ne (by decide) c hc⟩)
        (genericArguments_of_head (hbreaks.ne (by decide)))
  | cons t generics =>
      have hhead : ∀ c ∈ ('<' :: (TypeExpr.writeAll .full (t :: generics) ++ '>' :: rest)).head?,
          isIdentifierChar c = false ∧ c ≠ '.' := by
        simp; decide
      rw [writeGenerics_cons]
      rcases genericArguments_write (by simp) h rest with
        ⟨hback, hread⟩ | ⟨hnot, hread | ⟨us, hread, hne, hframe⟩⟩
      · refine ⟨_, rest, ?_, .inl ⟨hback, rfl, rfl⟩⟩
        simp [segment, dottedName_append hname hhead, optionally, hread]
        rfl
      · exact ⟨[], _, segment_path core hname hhead hread, .inr ⟨hnot, .inl ⟨_, rfl⟩⟩⟩
      · refine ⟨us, rest, ?_, .inr ⟨hnot, .inr ⟨rfl, hne, hframe⟩⟩⟩
        simp [segment, dottedName_append hname hhead, optionally, hread]
        rfl

/-! ## Nominal paths -/

theorem nominal_of_segment {s r : List Char} {u : TypeExpr} (h : segment core s = some (u, r))
    (hr : ∀ c ∈ r.head?, c ≠ '.') : nominal core s = some (u, r) := by
  have hnone : after (char '.') (segment core) r = none := by
    cases r with
    | nil => rfl
    | cons c r => simp [after, char_cons_of_ne (hr c rfl)]
  simp [nominal, h, many_of_none hnone, nominalPath]

theorem segment_shrinks {s r : List Char} {u : TypeExpr} (h : segment core s = some (u, r)) :
    r.length < s.length :=
  (core_agree s.length).segment.shrinks (Nat.lt_succ_self _) h

/-- A segment in front of the dot of a nominal path selects the path as its inner type. -/
theorem nominal_of_dot {s s' r : List Char} {head u : TypeExpr}
    (hhead : segment core s = some (head, '.' :: s')) (h : nominal core s' = some (u, r)) :
    nominal core s = some (head.withInner u, r) := by
  obtain ⟨⟨next, r'⟩, hnext, hu⟩ := Option.map_eq_some_iff.1 h
  obtain ⟨rfl, rfl⟩ := Prod.mk.inj hu
  have hread : after (char '.') (segment core) ('.' :: s') = some (next, r') := by
    simpa [after] using hnext
  have hlt := segment_shrinks hnext
  rw [nominal, hhead]
  simp [many_of_some hread (by simp; omega), nominalPath]

/-- The nominal path of a written expression. -/
def PathReadsBack (t : TypeExpr) : Prop :=
  ∀ rest, Breaks rest → ∃ u r, nominal core (t.writeCore ++ rest) = some (u, r) ∧
    Outcome t.coreRespells t.reread.bare t.OtherCore AtArguments rest (some (u, r))

theorem withInner_of_generics {name : String} {generics : List TypeExpr} (h : generics ≠ [])
    (u : TypeExpr) :
    TypeExpr.withInner ⟨.named ⟨name, none⟩, generics, [], false, none⟩ u =
      ⟨.named ⟨name, some u⟩, generics, [], false, none⟩ := by
  cases generics with
  | nil => exact absurd rfl h
  | cons => rfl

section Path

variable {name : String} {inner : Option TypeExpr} {generics : List TypeExpr}
  {attributes : List Attribute} {isInout : Bool} {label : Option String}

/-- A path with other generic arguments or another inner type has another frame. -/
theorem otherCore_of_path {name' : String} {inner' : Option TypeExpr} {us : List TypeExpr}
    (h : us.map TypeExpr.frame ≠ generics.map TypeExpr.frame ∨
      inner'.map TypeExpr.frame ≠ inner.map TypeExpr.frame) :
    TypeExpr.OtherCore ⟨.named ⟨name, inner⟩, generics, attributes, isInout, label⟩
      ⟨.named ⟨name', inner'⟩, us, [], false, none⟩ := by
  refine ⟨rfl, rfl, fun hframe => ?_⟩
  simp only [TypeExpr.bare, TypeExpr.asArguments, TypeExpr.elements?, Option.getD_none,
    List.map_cons, List.map_nil, List.cons.injEq, and_true, TypeExpr.frame_mk, Shape.frame_named,
    TypeExpr.mk.injEq, Shape.named.injEq, NamedType.mk.injEq, true_and] at hframe
  exact h.elim (fun h => h hframe.2) fun h => h hframe.1

theorem reread_bare (shape : Shape) :
    (TypeExpr.mk shape generics attributes isInout label).reread.bare =
      ⟨shape.reread, generics.map TypeExpr.reread, [], false, none⟩ := by
  rw [TypeExpr.reread_mk, TypeExpr.bare]

theorem bare_reread {t : TypeExpr} (hkind : t.kind ≠ .closure) (h : t.bare = t) :
    t.reread.bare = t.reread := by
  obtain ⟨shape, generics, attributes, isInout, label⟩ := t
  simp only [TypeExpr.bare, TypeExpr.mk.injEq, true_and] at h
  obtain ⟨rfl, rfl, rfl⟩ := h
  have hnone : shape.argumentAttributes = [] := by
    cases shape <;> first | rfl | exact absurd rfl hkind
  rw [TypeExpr.reread_mk, hnone]
  rfl

theorem bare_of_isBareNamed {t : TypeExpr} (h : t.IsBareNamed) : t.bare = t := by
  obtain ⟨shape, generics, attributes, isInout, label⟩ := t
  obtain ⟨-, rfl, rfl, rfl⟩ := h
  rfl

theorem frame_of_otherCore {t u : TypeExpr} (h : t.IsBareNamed) (hu : t.OtherCore u) :
    u.frame ≠ t.frame := by
  have hframe := hu.frame_ne
  rwa [bare_of_isBareNamed h] at hframe

/-- A nominal path is read back if its generic arguments and its inner type are. -/
theorem pathReadsBack_named (hname : IsPath name.toList)
    (hgenerics : ∀ t ∈ generics, ReadsBack false t ∧ Opens (t.write .full))
    (hinner : ∀ t ∈ inner, generics ≠ [] ∧ t.IsBareNamed ∧ PathReadsBack t) :
    PathReadsBack ⟨.named ⟨name, inner⟩, generics, attributes, isInout, label⟩ := by
  intro rest hrest
  cases inner with
  | none =>
      obtain ⟨us, r, hsegment, houtcome⟩ := segment_write rest hname hgenerics
        fun _ => hrest
      rw [TypeExpr.writeCore_named, List.append_assoc]
      rcases houtcome with ⟨hback, rfl, rfl⟩ | ⟨hnot, hstuck | ⟨rfl, -, hframe⟩⟩
      · refine ⟨_, r, nominal_of_segment hsegment (hrest.ne (by decide)), .inl ⟨?_, ?_⟩⟩
        · simp [TypeExpr.coreRespells, Shape.respells, hback]
        · rw [reread_bare, Shape.reread_named]
          rfl
      · refine ⟨_, r, nominal_of_segment hsegment (hstuck.ne (by decide)), .inr ⟨?_, ?_⟩⟩
        · simp [TypeExpr.coreRespells, hnot]
        · exact .inr ⟨_, r, rfl, .inl hstuck⟩
      · refine ⟨_, r, nominal_of_segment hsegment (hrest.ne (by decide)), .inr ⟨?_, ?_⟩⟩
        · simp [TypeExpr.coreRespells, hnot]
        · exact .inr ⟨_, r, rfl, .inr ⟨rfl, otherCore_of_path (.inl hframe)⟩⟩
  | some t =>
      obtain ⟨hne, hbare, hread⟩ := hinner t rfl
      obtain ⟨us, r, hsegment, houtcome⟩ := segment_write ('.' :: (t.writeCore ++ rest)) hname
        hgenerics fun h => absurd h hne
      rw [TypeExpr.writeCore_inner name hbare, List.append_assoc, List.append_assoc,
        List.cons_append]
      -- reading goes on to the inner type unless it is stuck in front of the arguments
      obtain ⟨v, r', hnominal, hv⟩ := hread rest hrest
      have hus : generics.map TypeExpr.reread ≠ [] := by
        simpa using hne
      rcases houtcome with ⟨hback, rfl, rfl⟩ | ⟨hnot, hstuck | ⟨rfl, hus', hframe⟩⟩
      · refine ⟨_, r', nominal_of_dot hsegment hnominal, ?_⟩
        rw [withInner_of_generics hus]
        rcases hv with ⟨ht, hv⟩ | ⟨ht, hv | ⟨v', r, hv, hstuck | ⟨rfl, hother⟩⟩⟩
        · obtain ⟨rfl, rfl⟩ := Prod.mk.inj (Option.some.inj hv)
          refine .inl ⟨by simp [TypeExpr.coreRespells, Shape.respells, hback, ht], ?_⟩
          rw [bare_reread (by simp [hbare.1]) (bare_of_isBareNamed hbare), reread_bare,
            Shape.reread_named]
          rfl
        · exact absurd hv (by simp)
        · obtain ⟨rfl, rfl⟩ := Prod.mk.inj (Option.some.inj hv)
          exact .inr ⟨by simp [TypeExpr.coreRespells, Shape.respells, ht],
            .inr ⟨_, r', rfl, .inl hstuck⟩⟩
        · obtain ⟨rfl, rfl⟩ := Prod.mk.inj (Option.some.inj hv)
          have hframe := frame_of_otherCore hbare hother
          exact .inr ⟨by simp [TypeExpr.coreRespells, Shape.respells, ht],
            .inr ⟨_, r', rfl, .inr ⟨rfl, otherCore_of_path (.inr (by simpa using hframe))⟩⟩⟩
      · refine ⟨_, r, nominal_of_segment hsegment (hstuck.ne (by decide)), .inr ⟨?_, ?_⟩⟩
        · simp [TypeExpr.coreRespells, hnot]
        · exact .inr ⟨_, r, rfl, .inl hstuck⟩
      · refine ⟨_, r', nominal_of_dot hsegment hnominal, ?_⟩
        rw [withInner_of_generics hus']
        refine .inr ⟨by simp [TypeExpr.coreRespells, hnot], .inr ⟨_, r', rfl, ?_⟩⟩
        rcases hv with ⟨-, hv⟩ | ⟨-, hv | ⟨v', r, hv, hstuck | ⟨rfl, -⟩⟩⟩
        · obtain ⟨-, rfl⟩ := Prod.mk.inj (Option.some.inj hv)
          exact .inr ⟨rfl, otherCore_of_path (.inl hframe)⟩
        · exact absurd hv (by simp)
        · obtain ⟨-, rfl⟩ := Prod.mk.inj (Option.some.inj hv)
          exact .inl hstuck
        · obtain ⟨-, rfl⟩ := Prod.mk.inj (Option.some.inj hv)
          exact .inr ⟨rfl, otherCore_of_path (.inl hframe)⟩

end Path

/-! ## Operands -/

/-- The expression less its decorations is read back where an operand may stand. -/
def OperandReadsBack (t : TypeExpr) : Prop :=
  ∀ rest, Breaks rest → (∀ c ∈ (skipBlanks rest).head?, c ≠ '&') →
    Outcome t.coreRespells t.reread.bare t.OtherCore AtArguments rest
      (composition core (t.writeCore ++ rest))

theorem atom_of_rule {s r : List Char} {u : TypeExpr}
    (h : orElse (group core) (orElse (collection core) (nominal core)) s = some (u, r))
    (hr : ∀ c ∈ r.head?, c ≠ '?' ∧ c ≠ '!') : atom core s = some (u, r) := by
  have hnone : optionalMark r = none := by
    cases r with
    | nil => rfl
    | cons c r =>
        obtain ⟨h₁, h₂⟩ := hr c rfl
        unfold optionalMark
        split <;> simp_all
  simp [atom, h, many_of_none hnone]

theorem composition_of_atom {s r : List Char} {u : TypeExpr} (h : atom core s = some (u, r))
    (hr : ∀ c ∈ (skipBlanks r).head?, c ≠ '&') : composition core s = some (u, r) := by
  have hnone : after (padded (char '&')) (atom core) r = none := by
    have hchar : char '&' (skipBlanks r) = none := by
      cases hs : skipBlanks r with
      | nil => rfl
      | cons c s => exact char_cons_of_ne (hr c (by rw [hs]; rfl)) s
    simp [after, padded, hchar]
  simp [composition, h, many_of_none hnone]

theorem AtArguments.skipBlanks_head {rest : List Char} (h : AtArguments rest) :
    ∀ c ∈ (skipBlanks rest).head?, c ≠ '&' := by
  obtain ⟨s, rfl⟩ := h
  rw [skipBlanks_of_head (by simp; decide)]
  simp

theorem head_append_of_opens {s : List Char} (rest : List Char)
    (h : ∃ c ∈ s.head?, isIdentifierChar c) :
    ∃ c ∈ (s ++ rest).head?, isIdentifierChar c := by
  cases s with
  | nil => simp at h
  | cons c s => simpa using h

theorem head_of_isPath {cs : List Char} (h : IsPath cs) : ∃ c ∈ cs.head?, isIdentifierChar c := by
  obtain ⟨first, more, ⟨hne, hall⟩, -, rfl⟩ := h
  cases first with
  | nil => exact absurd rfl hne
  | cons c first => simpa using hall c (by simp)

/-- A nominal path is an operand. -/
theorem operandReadsBack_of_path {t : TypeExpr} (h : PathReadsBack t)
    (hhead : ∃ c ∈ t.writeCore.head?, isIdentifierChar c) : OperandReadsBack t := by
  intro rest hrest hand
  obtain ⟨u, r, hnominal, houtcome⟩ := h rest hrest
  have hrule := (atomRule_of_name core (head_append_of_opens rest hhead)).trans hnominal
  -- wherever the path stops, neither an optional mark nor another constituent follows
  have hr : (∀ c ∈ r.head?, c ≠ '?' ∧ c ≠ '!') ∧ ∀ c ∈ (skipBlanks r).head?, c ≠ '&' := by
    have hends : r = rest ∨ AtArguments r := by
      rcases houtcome with ⟨-, hu⟩ | ⟨-, hu | ⟨v, r', hu, hstuck | ⟨rfl, -⟩⟩⟩
      · exact .inl (Prod.mk.inj (Option.some.inj hu)).2
      · exact absurd hu (by simp)
      · exact .inr ((Prod.mk.inj (Option.some.inj hu)).2 ▸ hstuck)
      · exact .inl (Prod.mk.inj (Option.some.inj hu)).2
    rcases hends with rfl | hstuck
    · exact ⟨fun c hc => ⟨hrest.ne (by decide) c hc, hrest.ne (by decide) c hc⟩, hand⟩
    · exact ⟨fun c hc => ⟨hstuck.ne (by decide) c hc, hstuck.ne (by decide) c hc⟩,
        hstuck.skipBlanks_head⟩
  rwa [composition_of_atom (atom_of_rule hrule hr.1) hr.2]

/-- Behind the opening parenthesis the elements are read, and the closing one. -/
theorem group_of_open {s s' : List Char} (h : padded (char '(') s = some ((), s')) :
    group core s =
      (char ')' (separatedBy ',' (padded (withDecorations true core)) s').2).map fun (_, rest) =>
        (groupOf (separatedBy ',' (padded (withDecorations true core)) s').1, rest) := by
  simp only [group, followedBy, after, h, Option.map_map]
  rfl

/-- Elements in parentheses. -/
theorem group_write {elements : List TypeExpr}
    (h : ∀ t ∈ elements, ReadsBack true t ∧ Opens (t.write .full)) (rest : List Char) :
    let result := group core ('(' :: (TypeExpr.writeAll .full elements ++ ')' :: rest))
    (TypeExpr.respellAll elements = true ∧
      result = some (groupOf (elements.map TypeExpr.reread), rest)) ∨
    (TypeExpr.respellAll elements = false ∧ (result = none ∨
      ∃ us, result = some (groupOf us, rest) ∧
        us.map TypeExpr.outline = elements.map TypeExpr.outline ∧
        us.map TypeExpr.frame ≠ elements.map TypeExpr.frame)) := by
  intro result
  have hhead : ∀ c ∈ (TypeExpr.writeAll .full elements ++ ')' :: rest).head?,
      isBlank c = false := by
    cases elements with
    | nil => simp [TypeExpr.writeAll]; decide
    | cons t elements =>
        rw [TypeExpr.writeAll_cons, List.append_assoc]
        exact ((h t (by simp)).2.append _).head
  have hresult : result = _ := group_of_open (padded_char_cons (by decide) hhead)
  rcases separatedBy_writeAll (.inl rfl) h rest with
    ⟨hback, hfound⟩ | ⟨hnot, hclose | ⟨us, hfound, houtline, hframe⟩⟩
  · exact .inl ⟨hback, by simp [hresult, hfound]⟩
  · exact .inr ⟨hnot, .inl (by rw [hresult, hclose, Option.map_none])⟩
  · exact .inr ⟨hnot, .inr ⟨us, by simp [hresult, hfound], houtline, hframe⟩⟩

/-- Elements that look like those of a tuple make a tuple. -/
theorem groupOf_of_outline {elements us : List TypeExpr}
    (h : ∀ t, elements = [t] → t.label.isSome)
    (hus : us.map TypeExpr.outline = elements.map TypeExpr.outline) :
    groupOf us = ⟨.tuple us, [], [], false, none⟩ := by
  unfold groupOf
  split
  · rcases elements with _ | ⟨t, _ | ⟨_, _⟩⟩
    · simp at hus
    · have hlabel := h t rfl
      simp only [List.map_cons, List.map_nil, List.cons.injEq, TypeExpr.outline,
        Prod.mk.injEq] at hus
      rw [hus.1.1]
      simp [Option.isSome_iff_ne_none.1 hlabel]
      rfl
    · simp at hus
  · rfl

theorem operandReadsBack_tuple {elements : List TypeExpr} {attributes : List Attribute}
    {isInout : Bool} {label : Option String} (hlabel : ∀ t, elements = [t] → t.label.isSome)
    (h : ∀ t ∈ elements, ReadsBack true t ∧ Opens (t.write .full)) :
    OperandReadsBack ⟨.tuple elements, [], attributes, isInout, label⟩ := by
  intro rest hrest hand
  have hmarks : ∀ c ∈ rest.head?, c ≠ '?' ∧ c ≠ '!' :=
    fun c hc => ⟨hrest.ne (by decide) c hc, hrest.ne (by decide) c hc⟩
  rw [TypeExpr.writeCore_tuple]
  rcases group_write h rest with ⟨hback, hread⟩ | ⟨hnot, hread | ⟨us, hread, houtline, hframe⟩⟩
  · have houtline : (elements.map TypeExpr.reread).map TypeExpr.outline =
        elements.map TypeExpr.outline := by
      simp [Function.comp_def, TypeExpr.outline_reread]
    rw [groupOf_of_outline hlabel houtline, ← atomRule_of_paren] at hread
    rw [reread_bare, Shape.reread_tuple]
    refine .inl ⟨?_, composition_of_atom (atom_of_rule hread hmarks) hand⟩
    simpa [TypeExpr.coreRespells, TypeExpr.respellAll, Shape.respells] using hback
  · have hatom : atom core ('(' :: (TypeExpr.writeAll .full elements ++ ')' :: rest)) = none := by
      rw [atom, atomRule_of_paren, hread, Option.map_none]
    refine .inr ⟨by simpa [TypeExpr.coreRespells, TypeExpr.respellAll, Shape.respells] using hnot,
      .inl ?_⟩
    rw [composition, hatom]
  · rw [groupOf_of_outline hlabel houtline, ← atomRule_of_paren] at hread
    refine .inr ⟨by simpa [TypeExpr.coreRespells, TypeExpr.respellAll, Shape.respells] using hnot,
      .inr ⟨_, rest, composition_of_atom (atom_of_rule hread hmarks) hand,
        .inr ⟨rfl, rfl, rfl, ?_⟩⟩⟩
    simpa [TypeExpr.bare, TypeExpr.asArguments, TypeExpr.elements?] using hframe

/-! ## Compositions -/

theorem atom_path {name : String} {rest : List Char} (hname : IsPath name.toList)
    (hrest : Breaks rest) : atom core (name.toList ++ rest) = some (.named name, rest) := by
  have hsegment := segment_path core hname
    (fun c hc => ⟨hrest.not_ident c hc, hrest.ne (by decide) c hc⟩)
    (genericArguments_of_head (hrest.ne (by decide)))
  have hnominal := nominal_of_segment hsegment (hrest.ne (by decide))
  rw [← atomRule_of_name core (head_append_of_opens rest (head_of_isPath hname))] at hnominal
  exact atom_of_rule hnominal
    fun c hc => ⟨hrest.ne (by decide) c hc, hrest.ne (by decide) c hc⟩

theorem breaks_writeMoreConstituents (types : List NamedType) {rest : List Char}
    (hrest : Breaks rest) : Breaks (writeMoreConstituents types ++ rest) := by
  cases types with
  | nil => simpa [writeMoreConstituents] using hrest
  | cons type types => simp [writeMoreConstituents, Breaks]

/-- The constituents behind the first one are read as named types. -/
theorem many_writeMoreConstituents {types : List NamedType} {rest : List Char}
    (h : ∀ type ∈ types, IsPath type.name.toList) (hrest : Breaks rest)
    (hand : ∀ c ∈ (skipBlanks rest).head?, c ≠ '&') :
    many (after (padded (char '&')) (atom core)) (writeMoreConstituents types ++ rest) =
      (types.map fun type => .named type.name, rest) := by
  induction types with
  | nil =>
      have hchar : char '&' (skipBlanks rest) = none := by
        cases hs : skipBlanks rest with
        | nil => rfl
        | cons c s => exact char_cons_of_ne (hand c (by rw [hs]; rfl)) s
      exact many_of_none (by simp [writeMoreConstituents, after, padded, hchar])
  | cons type types ih =>
      have hname := h type (by simp)
      have htext : writeMoreConstituents (type :: types) ++ rest =
          ' ' :: '&' :: ' ' :: (type.name.toList ++ (writeMoreConstituents types ++ rest)) := by
        simp [writeMoreConstituents]
      have hread : after (padded (char '&')) (atom core)
          (writeMoreConstituents (type :: types) ++ rest) =
          some (.named type.name, writeMoreConstituents types ++ rest) := by
        have hand : padded (char '&') (' ' :: '&' :: ' ' ::
            (type.name.toList ++ (writeMoreConstituents types ++ rest))) =
            some ((), type.name.toList ++ (writeMoreConstituents types ++ rest)) := by
          rw [padded, skipBlanks_blank, skipBlanks_of_head (by simp; decide), char_cons_self]
          simp only [Option.map_some]
          rw [skipBlanks_blank_of_head ((opens_of_isPath hname).append _).head]
        rw [htext, after, hand]
        exact atom_path hname (breaks_writeMoreConstituents types hrest)
      rw [many_of_some hread (by rw [htext]; simp; omega), ih fun c hc => h c (by simp [hc])]
      rfl

theorem mapM_constituentOf (types : List NamedType) :
    (types.map fun type => TypeExpr.named type.name).mapM constituentOf =
      some (types.map fun type => .ofName type.name) := by
  induction types with
  | nil => rfl
  | cons type types ih =>
      rw [List.map_cons, List.mapM_cons, ih]
      rfl

/-- Several names with the mark between them. -/
theorem composition_names {first second : NamedType} {more : List NamedType} {rest : List Char}
    (h : ∀ type ∈ first :: second :: more, IsPath type.name.toList) (hrest : Breaks rest)
    (hand : ∀ c ∈ (skipBlanks rest).head?, c ≠ '&') :
    composition core (first.name.toList ++ (writeMoreConstituents (second :: more) ++ rest)) =
      some (.composition ((first :: second :: more).map fun type => .ofName type.name), rest) := by
  have hfirst := atom_path (h first (by simp))
    (breaks_writeMoreConstituents (second :: more) hrest)
  have hmore := many_writeMoreConstituents
    (fun c (hc : c ∈ second :: more) => h c (List.mem_cons_of_mem first hc)) hrest hand
  have hall := mapM_constituentOf (first :: second :: more)
  rw [composition, hfirst]
  simp only [hmore]
  simp only [List.map_cons] at hall ⊢
  rw [hall, Option.map_some]

theorem operandReadsBack_composition {constituents : List NamedType}
    {attributes : List Attribute} {isInout : Bool} {label : Option String}
    (h : (Shape.composition constituents).Regular []) :
    OperandReadsBack ⟨.composition constituents, [], attributes, isInout, label⟩ := by
  intro rest hrest hand
  obtain ⟨-, hne, hnames⟩ := h
  cases constituents with
  | nil => exact absurd rfl hne
  | cons first more =>
      have hinner : ∀ type ∈ first :: more, type.inner = none := fun c hc => (hnames c hc).2
      rw [TypeExpr.writeCore_composition hinner, List.append_assoc]
      cases more with
      | nil =>
          -- a single constituent is written like a named type
          have hfirst := atom_path (hnames first (by simp)).1 hrest
          refine .inr ⟨rfl, .inr ⟨_, rest, composition_of_atom hfirst hand,
            .inr ⟨rfl, rfl, rfl, ?_⟩⟩⟩
          simp [TypeExpr.bare, TypeExpr.asArguments, TypeExpr.elements?, TypeExpr.named,
            TypeExpr.ofShape, TypeExpr.frame_mk, Shape.frame_named, Shape.frame_composition]
      | cons second more =>
          refine .inl ⟨by simp [TypeExpr.coreRespells, TypeExpr.respellAll, Shape.respells], ?_⟩
          rw [composition_names (fun c hc => (hnames c hc).1) hrest hand, reread_bare,
            Shape.reread_composition]
          rfl

end Grammar

end SwiftSurface
