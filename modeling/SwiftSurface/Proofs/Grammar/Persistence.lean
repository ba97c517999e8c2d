import SwiftSurface.Proofs.Grammar.Closers

/-!
# Reading an expression in front of a closing mark

A comma, a colon or a closing mark behind an expression is no part of it, whatever the expression
ends with. So `core` and the rules around it read with such a `more` behind the text what they read
without it (`core_continues`, `withDecorations_rule`).

The exceptions are texts that stop in the middle of a rule: behind a dot, in generic arguments, at
an `&`, at an arrow or at `throws`. There the rest begins with one of the characters of
`unfinished`, which no rule takes, so such a text is no whole expression.
-/

namespace SwiftSurface.Grammar

open SwiftSurface.Parser Text

variable {more s r cs : List Char} {c : Char}

/-! ## The rule that the grammar recurs through -/

/-- What a rule asks of the parser that it recurs through: in front of `more` it reads like `core`,
and where it reads, an opening mark at the beginning is closed. -/
structure Continues (more : List Char) (p : Parser TypeExpr) : Prop where
  reads : Persists more (BeginsWith unfinished) p core
  closed : ∀ s t r, p s = some (t, r) → ¬ Unclosed s

/-- The rest of a decorated type that may be read in another way in front of `more`. -/
def Open (mayHaveLabel : Bool) (more r : List Char) : Prop :=
  BeginsWith unfinished r ∨ LabelCutOff mayHaveLabel more r

theorem Open.char_eq_none {mayHaveLabel : Bool} (h : Open mayHaveLabel more r) (hc : c ∈ closers) :
    char c r = none := by
  obtain ⟨hblank, hident⟩ := of_mem_closers hc
  rcases h with h | ⟨-, -, h⟩
  · have hne : ∀ c ∈ closers, c ∉ unfinished := by simp [closers, unfinished]
    exact h.char_eq_none (hne c hc) hblank
  · refine Option.eq_none_iff_forall_ne_some.2 fun _ hread => ?_
    have := h c (by simp [char_eq_some hread])
    simp [hident, hblank] at this

/-! ## What the rules make of their parts -/

/-- The type that operands of `&` stand for, if they are constituents. One alone stands for
itself. -/
def compositionOf (first : TypeExpr) : List TypeExpr → Option TypeExpr
  | [] => some first
  | more => ((first :: more).mapM constituentOf).map .composition

theorem composition_eq (p : Parser TypeExpr) :
    composition p = fun s => ((atom p s).map fun (first, rest) =>
      let operands := many (after (padded (char '&')) (atom p)) rest
      ((first, operands.1), operands.2)).bind fun (operands, rest) =>
        (compositionOf operands.1 operands.2).map fun t => (t, rest) := by
  funext s
  rw [composition]
  cases atom p s with
  | none => rfl
  | some found =>
      simp only [Option.map_some, Option.bind_some]
      rcases many (after (padded (char '&')) (atom p)) found.2 with ⟨_ | ⟨next, operands⟩, rest⟩
      · rfl
      · simp only [compositionOf, Option.map_map]
        rfl

/-- The type that an operand stands for with the arrow behind it, if there is one. -/
def closureOf (argument : TypeExpr) : Option (Bool × TypeExpr) → TypeExpr
  | some (throws, returns) => .closure argument returns throws
  | none => argument

theorem coreRule_eq (p : Parser TypeExpr) :
    coreRule p = fun s => (composition p s).map fun (argument, rest) =>
      let found := optionally (arrow p) rest
      (closureOf argument found.1, found.2) := by
  funext s
  rw [coreRule]
  cases composition p s with
  | none => rfl
  | some found =>
      simp only [Option.map_some]
      rcases optionally (arrow p) found.2 with ⟨_ | ⟨throws, returns⟩, rest⟩ <;> rfl

theorem arrow_of_not_beginsWith {p : Parser TypeExpr} (h : ¬ BeginsWith ['t', '-'] s) :
    arrow p s = none :=
  arrow_of_head fun c hc => ⟨BeginsWith.ne_of_not h (by simp) c hc,
    BeginsWith.ne_of_not h (by simp) c hc⟩

/-- The type that a collection of elements, or of keys and values, stands for. -/
def collectionOf (first : TypeExpr) : Option TypeExpr → TypeExpr
  | some value => .generic "Swift.Dictionary" [first, value]
  | none => .generic "Swift.Array" [first]

theorem collection_eq (p : Parser TypeExpr) :
    collection p = between '[' ']' fun s => (unlabeled p s).map fun (first, rest) =>
      let value := optionally (after (padded (char ':')) (unlabeled p)) rest
      (collectionOf first value.1, value.2) := by
  rw [collection]
  congr 1
  funext s
  cases unlabeled p s with
  | none => rfl
  | some found =>
      simp only [Option.map_some]
      rcases optionally (after (padded (char ':')) (unlabeled p)) found.2 with ⟨_ | value, rest⟩ <;>
        rfl

theorem optionalMark_eq_none_iff : optionalMark s = none ↔ ∀ c ∈ s.head?, c ∉ ['?', '!'] := by
  cases s with
  | nil => simp [optionalMark]
  | cons c s =>
      unfold optionalMark
      split <;> simp_all

theorem head_of_nominal {p : Parser TypeExpr} {found : TypeExpr × List Char}
    (h : nominal p s = some found) : ∃ c ∈ s.head?, isIdentifierChar c := by
  cases s with
  | nil => simp [nominal_of_head (s := []) (by simp)] at h
  | cons c s =>
      cases hident : isIdentifierChar c with
      | true => exact ⟨c, rfl, hident⟩
      | false =>
          rw [nominal_of_head (by simpa using hident)] at h
          exact absurd h (by simp)

theorem head_of_collection {p : Parser TypeExpr} {found : TypeExpr × List Char}
    (h : collection p s = some found) : ∃ c ∈ s.head?, c = '[' := by
  cases s with
  | nil => simp [collection_of_head (s := []) (by simp)] at h
  | cons c s =>
      by_cases hc : c = '['
      · exact ⟨c, rfl, hc⟩
      · rw [collection_of_head (by simpa using hc)] at h
        exact absurd h (by simp)

theorem head_append_of_mem (hc : c ∈ s.head?) (more : List Char) :
    ∀ d ∈ (s ++ more).head?, d = c := by
  cases s with
  | nil => simp at hc
  | cons d s =>
      obtain rfl := Option.some.inj hc
      simp

/-! ## Each rule -/

section Rules

variable {p : Parser TypeExpr} (hmore : Closes more) (h : Continues more p)
include hmore h

/-- Decorations in front of a type: an attribute whose parameters are cut off stands in front of no
type, and a name that a colon in `more` would make a label of is left `Open`. -/
theorem withDecorations_rule (mayHaveLabel : Bool) :
    Persists more (Open mayHaveLabel more) (withDecorations mayHaveLabel p)
      (withDecorations mayHaveLabel core) := by
  intro s t r hr
  rw [withDecorations] at hr ⊢
  obtain ⟨hsuffix₁, hattributes⟩ := attributes_persist hmore s
  generalize many (padded attributeMark) s = attributes at hsuffix₁ hattributes hr
  obtain ⟨attributes, s₁⟩ := attributes
  obtain ⟨hsuffix₂, hinout⟩ := inoutMark_persists hmore s₁
  have hinout := hinout.resolve_right id
  dsimp only at hr hsuffix₁ hattributes
  rcases hs₂ : optionally inoutMark s₁ with ⟨inoutRead, s₂⟩
  obtain ⟨hsuffix₃, hlabel⟩ := labelMark_persists hmore mayHaveLabel s₂
  rw [hs₂] at hsuffix₂ hinout hr
  dsimp only at hr hsuffix₂ hsuffix₃ hlabel hinout
  rcases hs₃ : (if mayHaveLabel then optionally labelMark s₂ else (none, s₂)) with ⟨label, s₃⟩
  rw [hs₃] at hsuffix₃ hlabel hr
  obtain ⟨⟨u, r⟩, hu, hr⟩ := Option.map_eq_some_iff.1 hr
  obtain ⟨rfl, rfl⟩ := Prod.mk.inj hr
  obtain ⟨hsuffix, hread⟩ := h.reads s₃ u r hu
  refine ⟨hsuffix.trans (hsuffix₃.trans (hsuffix₂.trans hsuffix₁)), ?_⟩
  rcases hattributes with hattributes | hunclosed
  · rcases hlabel with hlabel | hcut
    · refine hread.imp (fun hq => ?_) .inl
      rw [hattributes]
      dsimp only
      rw [hinout]
      dsimp only
      rw [hlabel]
      dsimp only
      rw [hq, Option.map_some]
    · exact .inr (.inr ⟨hcut.1, hcut.2.1, fun c hc => hcut.2.2 c (hsuffix.subset hc)⟩)
  · -- no other decoration begins at an opening mark, and no type at one that is not closed
    have hinoutMark : inoutMark s₁ = none := inoutMark_of_head fun c hc => by
      rcases hunclosed.head c hc with rfl | rfl <;> decide
    have hlabelMark : labelMark s₁ = none := labelMark_of_head fun c hc => by
      rcases hunclosed.head c hc with rfl | rfl <;> decide
    obtain ⟨-, rfl⟩ : none = inoutRead ∧ s₁ = s₂ := by simpa [optionally, hinoutMark] using hs₂
    obtain ⟨-, rfl⟩ : none = label ∧ s₁ = s₃ := by
      cases mayHaveLabel <;> simpa [optionally, hlabelMark] using hs₃
    exact absurd hunclosed (h.closed _ _ _ hu)

theorem unlabeled_rule :
    Persists more (BeginsWith unfinished) (unlabeled p) (unlabeled core) := by
  refine padded_persists hmore (withDecorations_rule hmore h false) fun r hr => ?_
  exact beginsWith_skipBlanks.2 (hr.resolve_right fun hcut => absurd hcut.1 (by simp))

theorem genericArguments_rule :
    Persists more never (genericArguments p) (genericArguments core) := by
  have hlist : PersistsAll more (fun r => char '>' r = none) (separatedBy ',' (unlabeled p))
      (separatedBy ',' (unlabeled core)) := by
    refine (unlabeled_rule hmore h).separatedBy_closed (by decide) (fun r hr => ?_) fun r => ?_
    · exact ⟨hr.char_eq_none (by decide) (by decide), hr.char_eq_none (by decide) (by decide)⟩
    · rw [unlabeled, padded, skipBlanks_of_head (by simp; decide),
        withDecorations_of_ending _ (.inr (.inr rfl)), Option.map_none]
  refine Persists.between fun s types r hr => ?_
  dsimp only at hr ⊢
  obtain ⟨hsuffix, hread⟩ := hlist s
  split at hr
  · exact absurd hr (by simp)
  case h_2 hne =>
      obtain hlist := Option.some.inj hr
      rw [hlist] at hsuffix hread
      refine ⟨hsuffix, hread.imp_left fun hq => ?_⟩
      have htypes : types ≠ [] := fun hnil => hne r (by rw [hlist, hnil])
      rw [hq]
      cases types with
      | nil => exact absurd rfl htypes
      | cons t types => rfl

/-- A segment may stop in front of a dot or of generic arguments, and then no other segment
follows. -/
theorem segment_rule :
    Persists more (fun r => BeginsWith ['.', '<'] r ∧ after (char '.') (segment p) r = none)
      (segment p) (segment core) := by
  have harguments := ((genericArguments_rule hmore h).of_never
    (fun r => BeginsWith ['.', '<'] r ∧ after (char '.') (segment p) r = none)).optionally
    fun r _ => by
      by_cases hopen : BeginsWith ['<'] r
      · refine .inr ⟨hopen.mono (by simp), ?_⟩
        rw [after, hopen.char_eq_none (by decide) (by decide)]
      · exact .inl (between_of_not_beginsWith (by decide)
          fun hopen' => hopen (hmore.beginsWith (by simp [closers]) hopen'))
  refine (dottedName_persists hmore).andThen
    (fun name arguments => TypeExpr.generic (String.ofList name) (arguments.getD [])) harguments ?_
  rintro r ⟨hdot, hname⟩
  have hnone : genericArguments p r = none :=
    between_of_not_beginsWith (by decide) (hdot.not (by simp))
  simp only [optionally, hnone]
  refine ⟨hdot.mono (by simp), ?_⟩
  cases hchar : char '.' r with
  | none => simp [after, hchar]
  | some found =>
      have hidentifier : identifier found.2 = none := by simpa [after, hchar] using hname
      simp [after, hchar, segment, dottedName, hidentifier]

theorem nominal_rule : Persists more (BeginsWith ['.', '<']) (nominal p) (nominal core) := by
  have hsegment := segment_rule hmore h
  have hmany : PersistsAll more (BeginsWith ['.', '<']) (many (after (char '.') (segment p)))
      (many (after (char '.') (segment core))) := by
    refine ((Persists.char more '.').after hsegment).many (fun r hr => ⟨hr.2, hr.1⟩) fun r _ => ?_
    by_cases hdot : BeginsWith ['.'] r
    · exact .inr (hdot.mono (by simp))
    · refine .inl ?_
      rw [after, char_of_not_beginsWith (by decide)
        fun hdot' => hdot (hmore.beginsWith (by simp [closers]) hdot')]
  refine hsegment.andThen nominalPath hmany fun r hr => ?_
  rw [many_of_none hr.2]
  exact hr.1

theorem groupElements_rule :
    Persists more (fun r => char ')' r = none)
      (after (padded (char '('))
        fun s => some (separatedBy ',' (padded (withDecorations true p)) s))
      (after (padded (char '('))
        fun s => some (separatedBy ',' (padded (withDecorations true core)) s)) := by
  have hitem : Persists more (Open true more) (padded (withDecorations true p))
      (padded (withDecorations true core)) :=
    padded_persists hmore (withDecorations_rule hmore h true) fun r hr => hr.imp
      beginsWith_skipBlanks.2 fun hcut => ⟨hcut.1, hcut.2.1, fun c hc =>
        hcut.2.2 c ((List.dropWhile_sublist _).subset hc)⟩
  have hlist : PersistsAll more (fun r => char ')' r = none)
      (separatedBy ',' (padded (withDecorations true p)))
      (separatedBy ',' (padded (withDecorations true core))) := by
    refine hitem.separatedBy_closed (by decide) (fun r hr => ?_) fun r => ?_
    · exact ⟨hr.char_eq_none (by decide), hr.char_eq_none (by decide)⟩
    · rw [padded, skipBlanks_of_head (by simp; decide),
        withDecorations_of_ending _ (.inr (.inl rfl)), Option.map_none]
  exact (padded_char_persists hmore '(').after hlist.parser

theorem group_rule : Persists more never (group p) (group core) :=
  ((groupElements_rule hmore h).followedBy (.char more ')') fun _ => id).map groupOf

theorem collectionElements_rule :
    Persists more (fun r => char ']' r = none)
      (fun s => (unlabeled p s).map fun (first, rest) =>
        let value := optionally (after (padded (char ':')) (unlabeled p)) rest
        (collectionOf first value.1, value.2))
      (fun s => (unlabeled core s).map fun (first, rest) =>
        let value := optionally (after (padded (char ':')) (unlabeled core)) rest
        (collectionOf first value.1, value.2)) := by
  have hunlabeled := unlabeled_rule hmore h
  have hvalue := (((padded_char_persists hmore ':').after hunlabeled).imp
    fun r hr => hr.char_eq_none (c := ']') (by decide) (by decide)).optionally fun r _ => by
      by_cases hclose : BeginsWith [']'] r
      · refine .inl ?_
        rw [after, (hmore.beginsWith_append hclose).padded_char_eq_none (by decide)]
      · exact .inr (char_of_not_beginsWith (by decide) hclose)
  refine hunlabeled.andThen collectionOf hvalue fun r hr => ?_
  have hnone : after (padded (char ':')) (unlabeled p) r = none := by
    rw [after, hr.padded_char_eq_none (by decide)]
  simpa [optionally, hnone] using hr.char_eq_none (c := ']') (by decide) (by decide)

theorem collection_rule : Persists more never (collection p) (collection core) := by
  rw [collection_eq, collection_eq]
  exact Persists.between (collectionElements_rule hmore h)

omit h in
theorem many_optionalMark_persists :
    PersistsAll more never (many optionalMark) (many optionalMark) := by
  have hmark : Persists more never optionalMark optionalMark := by
    intro s wrapper r hr
    unfold optionalMark at hr
    split at hr
    · obtain ⟨rfl, rfl⟩ := Prod.mk.inj (Option.some.inj hr)
      exact ⟨List.suffix_cons _ _, .inl rfl⟩
    · obtain ⟨rfl, rfl⟩ := Prod.mk.inj (Option.some.inj hr)
      exact ⟨List.suffix_cons _ _, .inl rfl⟩
    · exact absurd hr (by simp)
  refine hmark.many (fun _ => False.elim) fun r hr => .inl ?_
  rw [optionalMark_eq_none_iff] at hr ⊢
  intro c hc
  rcases hmore.head_append r c hc with hc | ⟨-, hclose⟩
  · exact hr c hc
  · have hne : ∀ c ∈ closers, c ∉ ['?', '!'] := by simp [closers]
    exact hne c hclose

theorem atom_rule : Persists more (BeginsWith ['.', '<']) (atom p) (atom core) := by
  -- a group, a collection and a nominal path begin with different characters
  have hrules := ((group_rule hmore h).of_never (BeginsWith ['.', '<'])).orElse
    (((collection_rule hmore h).of_never (BeginsWith ['.', '<'])).orElse (nominal_rule hmore h)
      fun s found hfound => ?_) fun s found hfound => ?_
  · refine hrules.andThen (fun t marks => marks.foldl (fun t wrapper => .generic wrapper [t]) t)
      ((many_optionalMark_persists hmore).of_never _) fun r hr => ?_
    rw [many_of_none (optionalMark_eq_none_iff.2 fun c hc hmem => ?_)]
    · exact hr
    · have hblank : isBlank c = false := by
        obtain rfl | rfl : c = '?' ∨ c = '!' := by simpa using hmem
        all_goals decide
      exact hr.not (by simp) (beginsWith_of_head hc hmem hblank)
  · obtain ⟨c, hc, hident⟩ := head_of_nominal hfound
    refine collection_of_head fun d hd => ?_
    obtain rfl := head_append_of_mem hc more d hd
    exact ne_of_isIdentifierChar hident (by decide)
  · rcases orElse_eq_some hfound with hfound | hfound
    · obtain ⟨c, hc, rfl⟩ := head_of_collection hfound
      refine group_of_head fun d hd => ?_
      obtain rfl := head_append_of_mem hc more d hd
      decide
    · obtain ⟨c, hc, hident⟩ := head_of_nominal hfound
      refine group_of_head fun d hd => ?_
      obtain rfl := head_append_of_mem hc more d hd
      exact ⟨not_isBlank_of_isIdentifierChar hident, ne_of_isIdentifierChar hident (by decide)⟩

theorem composition_rule :
    Persists more (BeginsWith ['.', '<', '&']) (composition p) (composition core) := by
  have hatom := atom_rule hmore h
  have hmany : PersistsAll more (BeginsWith ['.', '<', '&'])
      (many (after (padded (char '&')) (atom p)))
      (many (after (padded (char '&')) (atom core))) := by
    refine ((padded_char_persists hmore '&').after hatom).many (fun r hr => ?_) fun r _ => ?_
    · exact ⟨by rw [after, hr.padded_char_eq_none (by decide)], hr.mono (by simp)⟩
    · by_cases hand : BeginsWith ['&'] r
      · exact .inr (hand.mono (by simp))
      · refine .inl ?_
        rw [after, padded_char_of_not_beginsWith
          fun hand' => hand (hmore.beginsWith (by simp [closers]) hand')]
  rw [composition_eq, composition_eq]
  refine (hatom.andThen Prod.mk hmany fun r hr => ?_).filterMap fun operands =>
    compositionOf operands.1 operands.2
  rw [many_of_none (by rw [after, hr.padded_char_eq_none (by decide)])]
  exact hr.mono (by simp)

theorem arrow_rule : Persists more (BeginsWith unfinished) (arrow p) (arrow core) := by
  have hthrows := ((padded_literal_persists hmore "throws".toList).of_never
    (BeginsWith ['t'])).optionally fun r _ => by
      by_cases ht : BeginsWith ['t'] r
      · exact .inr ht
      · exact .inl (padded_throws_of_not_beginsWith
          fun ht' => ht (hmore.beginsWith (by simp [closers]) ht'))
  have hreturns := ((padded_literal_persists hmore "->".toList).after
    (withDecorations_rule hmore h false)).imp
    fun r hr => hr.resolve_right fun hcut => absurd hcut.1 (by simp)
  refine hthrows.andThen (fun throwsRead returns => (throwsRead.isSome, returns)) hreturns
    fun r hr => ?_
  -- a `throws` that could be cut off is no arrow
  rw [after, padded_arrow_of_not_beginsWith (hr.not (by simp))]

theorem coreRule_rule : Persists more (BeginsWith unfinished) (coreRule p) (coreRule core) := by
  have harrow := (arrow_rule hmore h).optionally fun r _ => by
    by_cases hbegins : BeginsWith ['t', '-'] r
    · exact .inr (hbegins.mono (by simp [unfinished]))
    · exact .inl (arrow_of_not_beginsWith fun hbegins' =>
        hbegins (hmore.beginsWith (by simp [closers]) hbegins'))
  rw [coreRule_eq, coreRule_eq]
  refine (composition_rule hmore h).andThen closureOf harrow fun r hr => ?_
  simp only [optionally, arrow_of_not_beginsWith (p := p) (hr.not (by simp))]
  exact hr.mono (by simp [unfinished])

theorem closing_mem_of_group {t : TypeExpr} (hr : group p s = some (t, r)) : ')' ∈ s := by
  obtain ⟨⟨elements, _⟩, hgroup, -⟩ := Option.map_eq_some_iff.1 hr
  obtain ⟨rest, _, helements, hclose⟩ := followedBy_eq_some hgroup
  refine (groupElements_rule hmore h _ _ _ helements).1.subset ?_
  simp [char_eq_some hclose]

theorem closing_mem_of_collection {t : TypeExpr} (hr : collection p s = some (t, r)) : ']' ∈ s := by
  rw [collection_eq] at hr
  obtain ⟨rest, _, helements, hclose⟩ := followedBy_eq_some hr
  refine (((Persists.char more '[').after (collectionElements_rule hmore h)) _ _ _
    helements).1.subset ?_
  simp [char_eq_some hclose]

/-- Where a type without decorations is read, an opening mark at its beginning is closed. -/
theorem coreRule_closed {t : TypeExpr} (hr : coreRule p s = some (t, r)) : ¬ Unclosed s := by
  rw [coreRule_eq] at hr
  obtain ⟨⟨argument, _⟩, hargument, -⟩ := Option.map_eq_some_iff.1 hr
  rw [composition_eq] at hargument
  obtain ⟨⟨operands, _⟩, hoperands, -⟩ := Option.bind_eq_some_iff.1 hargument
  obtain ⟨⟨first, _⟩, hfirst, -⟩ := Option.map_eq_some_iff.1 hoperands
  obtain ⟨⟨u, rest⟩, hatom, -⟩ := Option.map_eq_some_iff.1 hfirst
  rintro (⟨s, rfl, hclosed⟩ | ⟨s, rfl, hclosed⟩)
  · rw [atomRule_of_paren] at hatom
    exact hclosed (by simpa using closing_mem_of_group hmore h hatom)
  · rw [atomRule_of_bracket] at hatom
    exact hclosed (by simpa using closing_mem_of_collection hmore h hatom)

end Rules

/-! ## The knot -/

theorem core_continues (hmore : Closes more) : Continues more core := by
  have hshort (n : Nat) :
      Continues more fun part => if part.length < n then core part else none := by
    induction n with
    | zero => exact ⟨fun s t r hr => absurd hr (by simp), fun s t r hr => absurd hr (by simp)⟩
    | succ n ih =>
        -- the guard at a text of length `n` lets through what the guard at `n` does
        have hguard {s : List Char} (hs : s.length < n + 1) :
            Continues more fun part => if part.length < s.length then core part else none := by
          have hsub (part : List Char) (t : TypeExpr) (r : List Char)
              (hpart : (if part.length < s.length then core part else none) = some (t, r)) :
              (if part.length < n then core part else none) = some (t, r) := by
            split at hpart
            · rw [if_pos (by omega), hpart]
            · exact absurd hpart (by simp)
          exact ⟨ih.reads.restrict hsub,
            fun part t r hpart => ih.closed part t r (hsub _ _ _ hpart)⟩
        refine ⟨fun s t r hr => ?_, fun s t r hr => ?_⟩
        · split at hr
          case isTrue hs =>
              rw [core] at hr
              rw [core_eq (s ++ more)]
              exact coreRule_rule hmore (hguard hs) s t r hr
          case isFalse => exact absurd hr (by simp)
        · split at hr
          case isTrue hs =>
              rw [core] at hr
              exact coreRule_closed hmore (hguard hs) hr
          case isFalse => exact absurd hr (by simp)
  exact ⟨fun s t r hr => (hshort (s.length + 1)).reads s t r (by simpa using hr),
    fun s t r hr => (hshort (s.length + 1)).closed s t r (by simpa using hr)⟩

end SwiftSurface.Grammar
