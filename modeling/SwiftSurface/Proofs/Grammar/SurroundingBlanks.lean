import SwiftSurface.Proofs.Grammar.LastWord

/-!
# Blanks around a text

Blanks in front of a text make no difference to the type that is read, and blanks behind it make one
in a single case. A name `inout` without blanks behind it is a name, and with them it is the mark of
that name: the decorations are read before the type, and what they have taken they do not give back.
So a text that ends in the word and is read to a type called so is refused with blanks behind it
(`parse_surrounded_iff`).

The rules of the knot are therefore not alike on a text and on the text with blanks behind it, but
alike up to the mark (`UpToMark`). The word can be the whole text of a type, behind attributes
(`withDecorations_upToMark`), or it ends the result of a closure (`arrow_upToMark`). In the latter
case the rest of the text begins with an arrow, which no rule in front of it may leave: this is what
the rules below `core` need to know about their parts (`ReadsUpToMark.ignores`), and the induction of
`core_upToMark` closes.
-/

namespace SwiftSurface

open Grammar SwiftSurface.Parser Text

/-- The type that comes last in the text of a type: for a closure, what comes last in its result. -/
def TypeExpr.lastResult : TypeExpr → TypeExpr
  | ⟨.closure _ returns _, _, _, _, _⟩ => returns.lastResult
  | t => t
termination_by structural t => t

/-- The type that comes last is called `inout`, and it has neither a label nor the mark of that
name. -/
def TypeExpr.EndsInInout (t : TypeExpr) : Prop :=
  t.lastResult.IsDecoratedName "inout" ∧ t.lastResult.isInout = false

namespace TypeExpr

variable {t argument returns : TypeExpr} {throws : Bool}

theorem endsInInout_closure :
    (closure argument returns throws).EndsInInout ↔ returns.EndsInInout := by
  simp [EndsInInout, closure, ofShape, lastResult]

theorem endsInInout_decorate_closure {attributes : List Attribute} {isInout : Bool}
    {label : Option String} (h : t.kind = .closure) :
    (decorate attributes isInout label t).EndsInInout ↔ t.EndsInInout := by
  obtain ⟨shape, generics, attributes', isInout', label'⟩ := t
  cases shape with
  | closure argument returns throws => simp [EndsInInout, decorate, lastResult]
  | _ => simp [kind, Shape.kind] at h

theorem lastResult_of_kind (h : t.kind ≠ .closure) : t.lastResult = t := by
  obtain ⟨shape, generics, attributes, isInout, label⟩ := t
  cases shape with
  | closure argument returns throws => simp [kind, Shape.kind] at h
  | _ => simp [lastResult]

/-- A type that is no closure ends in `inout` behind decorations if it is this name and nothing but
attributes stands in front of it. -/
theorem endsInInout_decorate_iff {attributes : List Attribute} {isInout : Bool}
    {label : Option String} (h : t.kind ≠ .closure) :
    (decorate attributes isInout label t).EndsInInout ↔
      t.IsDecoratedName "inout" ∧ t.isInout = false ∧ isInout = false ∧ label = none := by
  have hkind : (decorate attributes isInout label t).kind ≠ .closure := h
  rw [EndsInInout, lastResult_of_kind hkind]
  cases label <;> simp [IsDecoratedName, decorate]
  grind

end TypeExpr

namespace Grammar

variable {α β : Type} {v s s' r r' : List Char}

/-! ## Readings up to a mark -/

/-- How a text is read, and how it is read with blanks behind it. -/
inductive UpToMark (v : List Char) (ends : α → Prop) (s : List Char)
    (x y : Option (α × List Char)) : Prop where
  /-- The readings are alike. Then the word `inout` does not end what is read of the whole text. -/
  | alike (h : Alike v never s x y)
      (hends : ∀ a, x = some (a, []) → s.getLast? = some 't' → ¬ ends a)
  /-- The whole text is read to its last word `inout`, and the blanks make the word a mark: nothing
  is read of the text with blanks, or the arrow in front of the mark is left. -/
  | marked {a : α} (hread : x = some (a, [])) (hends : ends a) (hword : "inout".toList <:+ s)
      (hleft : ∀ found ∈ y, BeginsWith ['t', '-'] found.2)

/-- Texts shorter than `n` are read up to a mark as they are with blanks behind them. -/
def ReadsUpToMark (v : List Char) (ends : α → Prop) (n : Nat) (p : Parser α) : Prop :=
  ∀ s s', s.length < n → Trailed v s s' → UpToMark v ends s (p s) (p s')

theorem ReadsUpToMark.ignores {ends : α → Prop} {n : Nat} {p : Parser α}
    (h : ReadsUpToMark v ends n p) : Ignores v AtArrow n p := by
  intro s s' hs ht
  cases h s s' hs ht with
  | alike halike => exact halike.imp fun _ => False.elim
  | marked hread _ _ hleft =>
      refine .inr ⟨fun found hfound => ?_, fun found hfound => ?_⟩
      · obtain rfl := Option.some.inj (hread.symm.trans hfound)
        intro c hc
        simp [skipBlanks] at hc
      · intro c hc
        obtain ⟨d, hd, hmem⟩ := hleft found hfound
        obtain rfl := Option.some.inj (hc.symm.trans hd)
        simpa using hmem

theorem UpToMark.map {ends : α → Prop} {ends' : β → Prop} {x y : Option (α × List Char)} (f : α → β)
    (h : UpToMark v ends r x y) (hf : ∀ a, ends' (f a) ↔ ends a) (hr : r <:+ s)
    (hpos : ∀ a, x = some (a, []) → r ≠ []) :
    UpToMark v ends' s (x.map fun (a, r) => (f a, r)) (y.map fun (a, r) => (f a, r)) := by
  cases h with
  | alike halike hends =>
      refine .alike ((halike.map f).suffix hr) fun b hb hs => ?_
      obtain ⟨⟨a, u⟩, hx, hb⟩ := Option.map_eq_some_iff.1 hb
      obtain ⟨rfl, rfl⟩ := Prod.mk.inj hb
      rw [hf]
      exact hends a hx ((getLast?_of_suffix hr (hpos a hx)).trans hs)
  | @marked a hread hends hword hleft =>
      exact .marked (a := f a) (by rw [hread, Option.map_some]) ((hf a).2 hends) (hword.trans hr)
        (forall_rest_map hleft fun _ => id)

theorem upToMark_none {ends : α → Prop} (s : List Char) : UpToMark v ends s none none :=
  .alike (alike_none v never s) (by simp)

section Blanks

variable {n : Nat} {mayHaveLabel : Bool} (hv : ∀ c ∈ v, isBlank c)
include hv

/-! ## Decorations -/

omit hv in
theorem optionally_inoutMark {c : Char} (h : literal "inout".toList s = some ((), c :: r)) :
    optionally inoutMark s = if isBlank c then (some (), skipBlanks (c :: r)) else (none, s) := by
  rw [optionally, inoutMark, followedBy_of_some h]
  by_cases hc : isBlank c <;> simp [run, skipBlanks, hc]

/-- Blanks make no difference to the mark unless they come right behind its word. -/
theorem inoutMark_trailed (ht : Trailed v s s') (hs : s ≠ "inout".toList) :
    Alike v never s (some (optionally inoutMark s)) (some (optionally inoutMark s')) := by
  have hword : ∀ c ∈ "inout".toList, c ∉ v := by
    have hletters : ∀ c ∈ "inout".toList, isBlank c = false := by simp [isBlank]
    exact fun c hc => not_mem_of_not_isBlank hv (hletters c hc)
  rcases (Ignores.literal hword _ s s' (Nat.lt_succ_self _) ht).of_never with
    ⟨_, r, r', hr, hr', hrest, hsuffix⟩ | ⟨hr, hr'⟩
  · cases r with
    | nil => exact absurd (by simpa using literal_eq_some hr) hs
    | cons c r =>
        obtain rfl := hrest.eq_append (by simp)
        rw [optionally_inoutMark hr, optionally_inoutMark hr']
        split
        case isTrue =>
            exact .inl ⟨some (), _, _, rfl, rfl, trailed_skipBlanks hv (.append v (c :: r)),
              (List.dropWhile_suffix _).trans hsuffix⟩
        case isFalse => exact .some_of_trailed none ht never
  · have hnone (u : List Char) (hu : literal "inout".toList u = none) :
        optionally inoutMark u = (none, u) := by
      rw [optionally, inoutMark, followedBy, hu]
    rw [hnone s hr, hnone s' hr']
    exact .some_of_trailed none ht never

theorem labelMark_trailed (ht : Trailed v s s') (mayHaveLabel : Bool) :
    Alike v never s (some (if mayHaveLabel then optionally labelMark s else (none, s)))
      (some (if mayHaveLabel then optionally labelMark s' else (none, s'))) := by
  cases mayHaveLabel with
  | false => exact .some_of_trailed none ht never
  | true => exact (labelMark_ignores hv _).optionally_of_never s s' (Nat.lt_succ_self _) ht

/-- Blanks behind the word `inout` make it a mark. -/
theorem inoutMark_word (hne : v ≠ []) :
    optionally inoutMark ("inout".toList ++ v) = (some (), []) := by
  obtain ⟨c, rest, rfl⟩ := List.exists_cons_of_ne_nil hne
  rw [optionally_inoutMark (literal_append _ _), if_pos (hv c (by simp)), skipBlanks_eq_nil_iff.2 hv]

/-- The attributes, the mark and the label in front of a type. -/
def decorations (mayHaveLabel : Bool) (s : List Char) :
    (List Attribute × Bool × Option String) × List Char :=
  let attributes := many (padded attributeMark) s
  let inoutRead := optionally inoutMark attributes.2
  let label := if mayHaveLabel then optionally labelMark inoutRead.2 else (none, inoutRead.2)
  ((attributes.1, inoutRead.1.isSome, label.1), label.2)

omit hv in
theorem withDecorations_eq (p : Parser TypeExpr) :
    withDecorations mayHaveLabel p = fun s =>
      (p (decorations mayHaveLabel s).2).map fun (t, r) =>
        let found := (decorations mayHaveLabel s).1
        (decorate found.1 found.2.1 found.2.2 t, r) :=
  rfl

/-- Blanks make no difference to the decorations of a type, unless nothing but the word `inout`
stands behind the attributes. -/
theorem decorations_trailed (hne : v ≠ []) (mayHaveLabel : Bool) (ht : Trailed v s s') :
    (∃ found r r', decorations mayHaveLabel s = (found, r) ∧
      decorations mayHaveLabel s' = (found, r') ∧ Trailed v r r' ∧ r <:+ s ∧
      (found.2 = (false, none) → r ≠ "inout".toList)) ∨
    ∃ attributes, decorations mayHaveLabel s = ((attributes, false, none), "inout".toList) ∧
      (decorations mayHaveLabel s').2 = [] ∧ "inout".toList <:+ s := by
  obtain ⟨attributes, s₁, s₁', hs₁, hs₁', ht₁, hsuffix₁⟩ :=
    (attributes_ignore hv _ s s' (Nat.lt_succ_self _) ht).of_some
  simp only [decorations, hs₁, hs₁']
  by_cases hword : s₁ = "inout".toList
  · subst hword
    obtain rfl := ht₁.eq_append (by decide)
    have hplain : optionally inoutMark "inout".toList = (none, "inout".toList) := rfl
    refine .inr ⟨attributes, ?_, ?_, hsuffix₁⟩
    · rw [hplain]
      cases mayHaveLabel <;> rfl
    · rw [inoutMark_word hv hne]
      cases mayHaveLabel <;> rfl
  · obtain ⟨inoutRead, s₂, s₂', hs₂, hs₂', ht₂, hsuffix₂⟩ :=
      (inoutMark_trailed hv ht₁ hword).of_some
    obtain ⟨label, s₃, s₃', hs₃, hs₃', ht₃, hsuffix₃⟩ :=
      (labelMark_trailed hv ht₂ mayHaveLabel).of_some
    rw [hs₂, hs₂']
    dsimp only
    rw [hs₃, hs₃']
    refine .inl ⟨(attributes, inoutRead.isSome, label), s₃, s₃', rfl, rfl, ht₃,
      hsuffix₃.trans (hsuffix₂.trans hsuffix₁), fun hfound => ?_⟩
    -- neither a mark nor a label is read, so this is the text behind the attributes
    obtain ⟨hinout, rfl⟩ := Prod.mk.inj hfound
    obtain rfl : inoutRead = none := by simpa using hinout
    obtain rfl : s₂ = s₁ := by
      have heq : (optionally inoutMark s₁).2 = s₁ := optionally_snd_of_none (by rw [hs₂])
      rwa [hs₂] at heq
    obtain rfl : s₃ = s₂ := by
      cases mayHaveLabel with
      | false => exact (Prod.mk.inj hs₃).2.symm
      | true =>
          rw [if_pos rfl] at hs₃
          have heq : (optionally labelMark s₂).2 = s₂ := optionally_snd_of_none (by rw [hs₃])
          rwa [hs₃] at heq
    exact hword

theorem withDecorations_upToMark (hne : v ≠ []) {n : Nat}
    (h : ReadsUpToMark v (fun t => t.kind = .closure ∧ t.EndsInInout) n core) (mayHaveLabel : Bool) :
    ReadsUpToMark v TypeExpr.EndsInInout n (withDecorations mayHaveLabel core) := by
  intro s s' hs ht
  rw [withDecorations_eq]
  dsimp only
  rcases decorations_trailed hv hne mayHaveLabel ht with
    ⟨⟨attributes, isInout, label⟩, r, r', hr, hr', hrest, hsuffix, hword⟩ |
    ⟨attributes, hr, hr', hsuffix⟩
  · rw [hr, hr']
    dsimp only
    have hle := hsuffix.length_le
    cases h r r' (by omega) hrest with
    | alike halike hends =>
        refine .alike ((halike.map _).suffix hsuffix) fun t hread hs hends' => ?_
        obtain ⟨⟨u, rest⟩, hu, hread⟩ := Option.map_eq_some_iff.1 hread
        obtain ⟨rfl, rfl⟩ := Prod.mk.inj hread
        have hpos := (core_agree _).shrinks (Nat.lt_succ_self _) hu
        have hlast := (getLast?_of_suffix hsuffix (List.ne_nil_of_length_pos hpos)).trans hs
        by_cases hkind : u.kind = .closure
        · exact hends u hu hlast ⟨hkind, (TypeExpr.endsInInout_decorate_closure hkind).1 hends'⟩
        · obtain ⟨hname, -, rfl, rfl⟩ := (TypeExpr.endsInInout_decorate_iff hkind).1 hends'
          exact hword rfl (eq_inout_of_core hu hname hlast)
    | @marked u hread hends hinout hleft =>
        exact .marked (by rw [hread, Option.map_some])
          ((TypeExpr.endsInInout_decorate_closure hends.1).2 hends.2) (hinout.trans hsuffix)
          (forall_rest_map hleft fun _ => id)
  · have hinout : core "inout".toList = some (.named "inout", []) := by decide +kernel
    have hnone : core [] = none := core_of_head (by simp)
    rw [hr, hr', hnone]
    dsimp only
    rw [hinout]
    exact .marked rfl ⟨⟨rfl, rfl, rfl⟩, rfl⟩ hsuffix (by simp)

/-! ## Arrows -/

omit hv in
theorem arrow_eq (p : Parser TypeExpr) :
    arrow p = fun s =>
      let throwsRead := optionally (padded (literal "throws".toList)) s
      (after (padded (literal "->".toList)) (withDecorations false p) throwsRead.2).map
        fun (returns, r) => ((throwsRead.1.isSome, returns), r) :=
  rfl

theorem arrow_upToMark
    (h : ReadsUpToMark v TypeExpr.EndsInInout n (withDecorations false core)) :
    ReadsUpToMark v (fun found : Bool × TypeExpr => found.2.EndsInInout) n (arrow core) := by
  have hwords : (∀ c ∈ "throws".toList, isBlank c = false) ∧
      ∀ c ∈ "->".toList, isBlank c = false := by
    simp [isBlank]
  intro s s' hs ht
  rw [arrow_eq]
  dsimp only
  have hthrows := (padded_literal_ignores hv hwords.1 n).optionally_of_never
  obtain ⟨throwsRead, r, r', hr, hr', hrest, hsuffix⟩ := (hthrows s s' hs ht).of_some
  have hle := hsuffix.length_le
  have harrow := padded_literal_ignores hv hwords.2 n
  rw [hr, hr', after_eq_bind]
  dsimp only
  rcases (harrow r r' (by omega) hrest).of_never with
    ⟨_, u, u', hu, hu', hreturns, hsuffix'⟩ | ⟨hu, hu'⟩
  · have hle' := hsuffix'.length_le
    rw [hu, hu']
    refine (h u u' (by omega) hreturns).map _ (fun _ => .rfl) (hsuffix'.trans hsuffix)
      fun returns hread => ?_
    exact List.ne_nil_of_length_pos
      (((core_agree _).withDecorations false).shrinks (Nat.lt_succ_self _) hread)
  · rw [hu, hu']
    exact upToMark_none s

theorem core_upToMark (hne : v ≠ []) (n : Nat) :
    ReadsUpToMark v (fun t => t.kind = .closure ∧ t.EndsInInout) n core := by
  induction n with
  | zero => exact fun s s' hs => absurd hs (Nat.not_lt_zero _)
  | succ n ih =>
      have hdecorated := withDecorations_upToMark hv hne ih
      have hcomposition := composition_ignores hv fun mayHaveLabel =>
        (hdecorated mayHaveLabel).ignores
      have harrow := arrow_upToMark hv (hdecorated false)
      intro s s' hs ht
      rw [core_eq, core_eq, coreRule_eq]
      dsimp only
      rcases (hcomposition s s' hs ht).of_never with
        ⟨argument, r, r', hr, hr', hrest, hsuffix⟩ | ⟨hr, hr'⟩
      · have hlt := (core_agree _).composition.shrinks (Nat.lt_succ_of_lt (Nat.lt_succ_self _)) hr
        rw [hr, hr', Option.map_some, Option.map_some]
        have hbegins (found) (hread : arrow core r = some found) : BeginsWith ['t', '-'] r := by
          by_contra hnot
          exact absurd (hread.symm.trans (arrow_of_not_beginsWith hnot)) (by simp)
        cases harrow r r' (by omega) hrest with
        | alike halike hends =>
            rcases halike.of_never with
              ⟨⟨throws, returns⟩, u, u', hu, hu', hreturns, hsuffix'⟩ | ⟨hu, hu'⟩
            · rw [optionally_of_some hu, optionally_of_some hu']
              refine .alike (.inl ⟨_, u, u', rfl, rfl, hreturns, hsuffix'.trans hsuffix⟩)
                fun t hread hs hclosure => ?_
              obtain ⟨rfl, rfl⟩ := Prod.mk.inj (Option.some.inj hread)
              exact hends _ hu ((getLast?_of_suffix hsuffix (hbegins _ hu).ne_nil).trans hs)
                (TypeExpr.endsInInout_closure.1 hclosure.2)
            · rw [optionally_of_none hu, optionally_of_none hu']
              refine .alike (.inl ⟨_, r, r', rfl, rfl, hrest, hsuffix⟩) fun t hread hs hclosure => ?_
              obtain ⟨rfl, rfl⟩ := Prod.mk.inj (Option.some.inj hread)
              exact kind_ne_closure hr hs hclosure.1
        | @marked found hread hends hword hleft =>
            rw [optionally_of_some hread]
            refine .marked rfl ⟨rfl, TypeExpr.endsInInout_closure.2 hends⟩ (hword.trans hsuffix)
              fun found hfound => ?_
            obtain rfl := Option.some.inj hfound
            cases hu : arrow core r' with
            | none =>
                rw [optionally_of_none hu]
                exact (beginsWith_trailed hv hrest).1 (hbegins _ hread)
            | some found =>
                rw [optionally_of_some hu]
                exact hleft found hu
      · rw [hr, hr']
        exact upToMark_none s

/-! ## Whole texts -/

theorem spells_blanks_before (s : List Char) :
    Spells mayHaveLabel (v ++ s) t ↔ Spells mayHaveLabel s t := by
  have hskip : skipBlanks (v ++ s) = skipBlanks s := List.dropWhile_append_of_pos hv
  rw [Spells, Spells, padded_congr hskip]

theorem spells_blanks_behind (hne : v ≠ []) (s : List Char) :
    Spells mayHaveLabel (s ++ v) t ↔
      Spells mayHaveLabel s t ∧ ¬ (t.EndsInInout ∧ "inout".toList <:+ s) := by
  have hskip : skipBlanks s <:+ s := List.dropWhile_suffix _
  have hread := withDecorations_upToMark hv hne (core_upToMark hv hne _) mayHaveLabel
    (skipBlanks s) (skipBlanks (s ++ v)) (Nat.lt_succ_self _)
    (trailed_skipBlanks hv (.append v s))
  rw [Spells, Spells, padded_eq_some, padded_eq_some]
  cases hread with
  | alike halike hends =>
      rcases halike.of_never with ⟨u, r, r', hr, hr', hrest, hsuffix⟩ | ⟨hr, hr'⟩
      · have hend : skipBlanks r' = [] ↔ skipBlanks r = [] := by
          rw [← List.head?_eq_none_iff, head_skipBlanks_trailed hv hrest, List.head?_eq_none_iff]
        have hnot (hblank : skipBlanks r = []) : ¬ (u.EndsInInout ∧ "inout".toList <:+ s) := by
          rintro ⟨hu, hword⟩
          have hlast : s.getLast? = some 't' := (getLast?_of_suffix hword (by simp)).symm
          obtain rfl : r = [] := by
            by_contra hne
            have hlast := (getLast?_of_suffix (hsuffix.trans hskip) hne).trans hlast
            have hletter := skipBlanks_eq_nil_iff.1 hblank 't' (List.mem_of_getLast? hlast)
            exact absurd hletter (by decide)
          have hpos := ((core_agree _).withDecorations mayHaveLabel).shrinks (Nat.lt_succ_self _) hr
          exact hends u hr
            ((getLast?_of_suffix hskip (List.ne_nil_of_length_pos hpos)).trans hlast) hu
        rw [hr, hr']
        constructor
        · rintro ⟨_, hfound, hblank⟩
          obtain ⟨rfl, rfl⟩ := Prod.mk.inj (Option.some.inj hfound)
          exact ⟨⟨r, rfl, hend.1 hblank⟩, hnot (hend.1 hblank)⟩
        · rintro ⟨⟨_, hfound, hblank⟩, -⟩
          obtain ⟨rfl, rfl⟩ := Prod.mk.inj (Option.some.inj hfound)
          exact ⟨r', rfl, hend.2 hblank⟩
      · simp [hr, hr']
  | @marked u hread hends hword hleft =>
      -- what is left of the text with the blanks is no blank
      refine iff_of_false ?_ ?_
      · rintro ⟨r', hfound, hblank⟩
        obtain ⟨c, hc, -⟩ := hleft _ hfound
        simp [hblank] at hc
      · rintro ⟨⟨_, hfound, -⟩, hnot⟩
        obtain ⟨rfl, -⟩ := Prod.mk.inj (Option.some.inj (hread.symm.trans hfound))
        exact hnot ⟨hends, hword.trans hskip⟩

end Blanks

end Grammar

namespace TypeExpr

/-- Blanks around a text make no difference to the type that is read, except that blanks behind
the word `inout` make it a mark: then a type is missing behind it, and the text is refused. -/
theorem parse_surrounded_iff {before after source : String} {t : TypeExpr}
    (hbefore : ∀ c ∈ before.toList, isBlank c) (hafter : ∀ c ∈ after.toList, isBlank c) :
    parse (before ++ source ++ after) = some t ↔
      parse source = some t ∧
        (after = "" ∨ ¬ (t.EndsInInout ∧ "inout".toList <:+ source.toList)) := by
  rw [parse_eq_some, parse_eq_some, String.toList_append, String.toList_append, List.append_assoc,
    spells_blanks_before hbefore]
  by_cases hempty : after = ""
  · simp [hempty]
  · rw [spells_blanks_behind hafter (by simpa using hempty), or_iff_right hempty]

/-- A name that blanks make no difference to, and the word that they make a mark. -/
theorem parse_surrounded_iff_inout :
    parse ("\t" ++ "A" ++ " ") = some (named "A") ∧ parse "inout" = some (named "inout") ∧
      parse ("" ++ "inout" ++ " ") ≠ some (named "inout") := by
  have hname : parse "A" = some (named "A") := by decide +kernel
  have hinout : parse "inout" = some (named "inout") := by decide +kernel
  have hword : (named "inout").EndsInInout ∧ "inout".toList <:+ "inout".toList :=
    ⟨⟨⟨rfl, rfl, rfl⟩, rfl⟩, List.suffix_rfl⟩
  have htab : ∀ c ∈ "\t".toList, isBlank c := by simp [isBlank]
  have hspace : ∀ c ∈ " ".toList, isBlank c := by simp [isBlank]
  have hempty : ∀ c ∈ "".toList, isBlank c := by simp
  refine ⟨(parse_surrounded_iff htab hspace).2 ⟨hname, .inr fun h => ?_⟩, hinout, fun hread => ?_⟩
  · exact absurd (List.IsSuffix.length_le h.2) (by decide)
  · exact ((parse_surrounded_iff hempty hspace).1 hread).2.elim (by decide) fun hnot => hnot hword

end TypeExpr

end SwiftSurface
