import SwiftSurface.Proofs.Grammar.Grouping
import SwiftSurface.Proofs.Grammar.Outcome
import SwiftSurface.Proofs.Grammar.Persistence
import SwiftSurface.Proofs.Trailing

/-!
# Rules in front of blanks

Blanks behind a text make no difference to what the rules below `core` read of it: they end names,
and they begin no part of a rule that does not skip them. The decorated types inside of brackets need
a weaker promise only, since nothing but the closing mark may follow them: that blanks make no
difference unless the text ends in front of an arrow or in it (`AtArrow`).
-/

namespace SwiftSurface.Grammar

open SwiftSurface.Parser Text

variable {α : Type} {v s s' : List Char} {c : Char} {cs : List Char} {n : Nat} {p : Parser α}
  {stuck stuck' : List Char → Prop}

/-! ## Blanks behind a text -/

/-- Nothing but blanks is left, or what may be an arrow. -/
def AtArrow (r : List Char) : Prop :=
  ∀ c ∈ (skipBlanks r).head?, c = 't' ∨ c = '-'

theorem AtArrow.padded_char_eq_none (h : AtArrow s) (hc : c ≠ 't' ∧ c ≠ '-') :
    padded (char c) s = none := by
  refine padded_char_of_not_beginsWith ?_
  rintro ⟨d, hd, hmem⟩
  obtain rfl := List.mem_singleton.1 hmem
  rcases h d hd with rfl | rfl
  · exact hc.1 rfl
  · exact hc.2 rfl

theorem AtArrow.char_eq_none (h : AtArrow s) (hc : c ≠ 't' ∧ c ≠ '-') (hblank : isBlank c = false) :
    char c s = none := by
  refine Option.eq_none_iff_forall_ne_some.2 fun found hfound => ?_
  have hhead := h c (by rw [char_eq_some hfound, skipBlanks_of_head (by simpa using hblank)]; rfl)
  rcases hhead with rfl | rfl
  · exact hc.1 rfl
  · exact hc.2 rfl

theorem atArrow_skipBlanks : AtArrow (skipBlanks s) ↔ AtArrow s := by
  rw [AtArrow, AtArrow, skipBlanks_skipBlanks]

section Blanks

variable (hv : ∀ c ∈ v, isBlank c)
include hv

theorem not_mem_of_not_isBlank (hc : isBlank c = false) : c ∉ v :=
  fun hmem => by simp [hv c hmem] at hc

theorem trailed_skipBlanks (h : Trailed v s s') : Trailed v (skipBlanks s) (skipBlanks s') := by
  rcases h with rfl | ⟨rfl, rfl⟩
  · rw [skipBlanks_blanks_behind hv]
    split
    case isTrue hs => exact .inr ⟨hs, rfl⟩
    case isFalse hs => exact .append v (skipBlanks s)
  · exact .inr ⟨rfl, rfl⟩

/-- A text begins as it does with blanks behind it. -/
theorem head_skipBlanks_trailed (h : Trailed v s s') :
    (skipBlanks s').head? = (skipBlanks s).head? := by
  rcases h with rfl | ⟨rfl, rfl⟩
  · rw [skipBlanks_blanks_behind hv]
    split
    case isTrue hs => rw [hs]
    case isFalse hs =>
        obtain ⟨d, rest, hrest⟩ := List.exists_cons_of_ne_nil hs
        rw [hrest]
        rfl
  · rfl

theorem beginsWith_trailed (h : Trailed v s s') : BeginsWith cs s ↔ BeginsWith cs s' := by
  rw [BeginsWith, BeginsWith, head_skipBlanks_trailed hv h]

/-! ## Words -/

theorem padded_ignores (h : Ignores v stuck n p) (hskip : ∀ r, stuck r → stuck' (skipBlanks r)) :
    Ignores v stuck' n (padded p) := by
  intro s s' hs ht
  have hle := skipBlanks_length_le s
  have hread := h _ _ (by omega) (trailed_skipBlanks hv ht)
  rw [padded, padded]
  rcases hread with ⟨a, r, r', hp, hp', hrest, hsuffix⟩ | ⟨hp, hp'⟩
  · refine .inl ⟨a, skipBlanks r, skipBlanks r', by simp [hp], by simp [hp'],
      trailed_skipBlanks hv hrest, ?_⟩
    exact (List.dropWhile_suffix _).trans (hsuffix.trans (List.dropWhile_suffix _))
  · exact .inr ⟨forall_rest_map hp fun found => hskip found.2,
      forall_rest_map hp' fun found => hskip found.2⟩

theorem char_ignores (hc : isBlank c = false) (n : Nat) : Ignores v never n (char c) :=
  .char (not_mem_of_not_isBlank hv hc) n

theorem padded_char_ignores (hc : isBlank c = false) (n : Nat) :
    Ignores v never n (padded (char c)) :=
  padded_ignores hv (char_ignores hv hc n) fun _ => id

theorem padded_literal_ignores (hcs : ∀ c ∈ cs, isBlank c = false) (n : Nat) :
    Ignores v never n (padded (literal cs)) :=
  padded_ignores hv (.literal (fun c hc => not_mem_of_not_isBlank hv (hcs c hc)) n) fun _ => id

theorem identifier_ignores (n : Nat) : Ignores v never n identifier := by
  refine .run (fun c hc hident => ?_) n
  have hblank := hv c hc
  rw [not_isBlank_of_isIdentifierChar hident] at hblank
  exact absurd hblank (by simp)

theorem dottedName_ignores (n : Nat) : Ignores v never n dottedName := by
  have hmore := (((char_ignores hv (c := '.') (by decide) (n + 1)).after
    (fun s b r hr => by simp [char_eq_some hr]) (identifier_ignores hv n)).mono
    (Nat.le_succ n)).many_of_never fun s a r hr => by
      obtain ⟨t, rfl, hread⟩ := after_char_eq_some hr
      exact Nat.lt_succ_of_lt (identifier_shrinks hread)
  exact (identifier_ignores hv n).andThen (fun first more => first ++ more.flatMap ('.' :: ·)) hmore
    fun _ => False.elim

/-! ## Attributes -/

section Attributes

variable {opening closing : Char}

/-- The blanks behind a parameter are trimmed, and behind nothing they are read as a parameter. -/
theorem attributeParameter_ignores (hclosing : isBlank closing = false) (n : Nat) :
    Ignores v (fun r => r = []) n (attributeParameter closing) := by
  have hclass : ∀ c ∈ v, (c != ',' && c != closing) = true := by
    intro c hc
    have hblank := hv c hc
    simp only [bne_iff_ne, Bool.and_eq_true, ne_eq]
    constructor
    · rintro rfl
      exact absurd hblank (by decide)
    · rintro rfl
      simp [hclosing] at hblank
  intro s s' _ ht
  cases s with
  | nil =>
      have hall : ∀ c ∈ s', (c != ',' && c != closing) = true := by
        rcases ht with rfl | ⟨-, rfl⟩
        · exact hclass
        · simp
      refine .inr ⟨by simp [attributeParameter, run], fun found hfound => ?_⟩
      obtain ⟨⟨cs, r⟩, hread, rfl⟩ := Option.map_eq_some_iff.1 hfound
      have hne : s' ≠ [] := by
        rintro rfl
        simp [run] at hread
      obtain ⟨-, rfl⟩ := Prod.mk.inj (Option.some.inj ((run_all hne hall).symm.trans hread))
      rfl
  | cons d s =>
      obtain rfl := ht.eq_append (by simp)
      rw [attributeParameter, attributeParameter]
      cases hread : run (fun c => c != ',' && c != closing) (d :: s) with
      | none =>
          have hnone : run (fun c => c != ',' && c != closing) (d :: s ++ v) = none := by
            refine run_of_not fun c hc hin => ?_
            obtain rfl := Option.some.inj hc
            simp [run, hin] at hread
          rw [hnone]
          exact alike_none v _ (d :: s)
      | some found =>
          obtain ⟨cs, r⟩ := found
          obtain ⟨heq, hne, hall, hstop⟩ := run_eq_some hread
          rw [heq]
          cases r with
          | nil =>
              have hmore := run_all (by simp [hne]) (List.forall_mem_append.2 ⟨hall, hclass⟩)
              refine .inl ⟨_, [], [], rfl, ?_, .inr ⟨rfl, rfl⟩, List.nil_suffix⟩
              simp only [List.append_nil, hmore, Option.map_some, trim_blanks_behind hv]
          | cons e r =>
              have hmore : run _ (cs ++ (e :: r ++ v)) = _ := run_append hne hall hstop
              rw [List.append_assoc, hmore]
              exact .inl ⟨_, e :: r, e :: r ++ v, rfl, rfl, .append v _, List.suffix_append cs _⟩

theorem attributeParameters_ignores (hopening : isBlank opening = false)
    (hclosing : isBlank closing = false) (hne : closing ≠ ',') (n : Nat) :
    Ignores v never n (attributeParameters opening closing) := by
  have hlist := (attributeParameter_ignores hv hclosing n).separatedBy_closed hne
    (not_mem_of_not_isBlank hv (by decide)) (not_mem_of_not_isBlank hv hclosing)
    (fun s a r hr => ?_) (fun r hr => by subst hr; exact ⟨rfl, rfl⟩)
    fun r => attributeParameter_eq_none_iff.2 (by simp)
  · exact (hlist.between (not_mem_of_not_isBlank hv hopening)
      (not_mem_of_not_isBlank hv hclosing)).mono (Nat.le_succ n)
  · obtain ⟨⟨cs, r⟩, hcs, hr⟩ := Option.map_eq_some_iff.1 hr
    obtain ⟨-, rfl⟩ := Prod.mk.inj hr
    obtain ⟨rfl, hne, -⟩ := run_eq_some hcs
    have hpos := List.length_pos_iff.2 hne
    rw [List.length_append]
    show r.length < cs.length + r.length
    omega

theorem parameters_ignore (n : Nat) :
    Ignores v never n fun s =>
      some (optionally (orElse (attributeParameters '(' ')') (attributeParameters '[' ']')) s) :=
  ((attributeParameters_ignores hv (by decide) (by decide) (by decide) n).orElse
    (attributeParameters_ignores hv (by decide) (by decide) (by decide) n)).optionally_of_never

theorem attributeMark_ignores (n : Nat) : Ignores v never n attributeMark := by
  have hname := ((char_ignores hv (c := '@') (by decide) (n + 1)).after
    (fun s b r hr => by simp [char_eq_some hr]) (identifier_ignores hv n)).mono (Nat.le_succ n)
  exact hname.andThen
    (fun (name : List Char) (parameters : Option (List String)) =>
      ({ name := String.ofList name, parameters := parameters.getD [] } : Attribute))
    (parameters_ignore hv n) fun _ => False.elim

omit hv in
theorem attributeMark_shrinks {a : Attribute} {r : List Char} (h : attributeMark s = some (a, r)) :
    r.length < s.length := by
  obtain ⟨⟨name, rest⟩, hname, hr⟩ := Option.map_eq_some_iff.1 h
  obtain ⟨-, rfl⟩ := Prod.mk.inj hr
  obtain ⟨t, rfl, hident⟩ := after_char_eq_some hname
  have hlt := identifier_shrinks hident
  have hsuffix := (parameters_ignore (v := []) (by simp) _).suffix (Nat.lt_succ_self _)
    (rfl : some (optionally _ rest) = _)
  exact Nat.lt_succ_of_le (Nat.le_trans hsuffix.length_le (Nat.le_of_lt hlt))

theorem attributes_ignore (n : Nat) :
    Ignores v never n fun s => some (many (padded attributeMark) s) := by
  refine (padded_ignores hv (attributeMark_ignores hv n) fun _ => id).many_of_never
    fun s a r hr => ?_
  obtain ⟨u, hu, rfl⟩ := padded_eq_some.1 hr
  have hlt := attributeMark_shrinks hu
  have hle := skipBlanks_length_le s
  have hle' := skipBlanks_length_le u
  omega

/-! ## Labels and optional marks -/

theorem labelMark_ignores (n : Nat) : Ignores v never n labelMark :=
  ((identifier_ignores hv n).followedBy (padded_char_ignores hv (c := ':') (by decide) n)
    fun _ => False.elim).map String.ofList

omit hv in
theorem optionalMark_eq_some {a : String} {r : List Char} (h : optionalMark s = some (a, r)) :
    ∃ c ∈ ['?', '!'], s = c :: r := by
  unfold optionalMark at h
  split at h <;> simp_all

omit hv in
theorem optionalMark_shrinks {a : String} {r : List Char} (h : optionalMark s = some (a, r)) :
    r.length < s.length := by
  obtain ⟨c, -, rfl⟩ := optionalMark_eq_some h
  exact Nat.lt_succ_self r.length

theorem optionalMark_ignores (n : Nat) : Ignores v never n optionalMark := by
  have hblank : ∀ c ∈ v, c ∉ ['?', '!'] := by
    intro c hc hmem
    have hread := hv c hc
    obtain rfl | rfl : c = '?' ∨ c = '!' := by simpa using hmem
    all_goals exact absurd hread (by decide)
  intro s s' _ ht
  cases s with
  | nil =>
      have hs' : optionalMark s' = none := by
        refine optionalMark_eq_none_iff.2 fun c hc => hblank c ?_
        rcases ht with rfl | ⟨-, rfl⟩
        · exact List.mem_of_mem_head? hc
        · simp at hc
      rw [hs']
      exact alike_none v never []
  | cons d s =>
      obtain rfl := ht.eq_append (by simp)
      have hrest {wrapper : String} :
          Alike v never (d :: s) (some (wrapper, s)) (some (wrapper, s ++ v)) :=
        (Alike.some_of_trailed wrapper (.append v s) never).suffix (List.suffix_cons d s)
      by_cases hmark : d = '?' ∨ d = '!'
      · rcases hmark with rfl | rfl
        · exact hrest
        · exact hrest
      · have hnone (t : List Char) : optionalMark (d :: t) = none :=
          optionalMark_eq_none_iff.2 fun c hc => by simpa [← Option.some.inj hc] using hmark
        rw [List.cons_append, hnone, hnone]
        exact alike_none v never (d :: s)

end Attributes

/-! ## Lists in brackets -/

section Rules

variable (h : ∀ mayHaveLabel, Ignores v AtArrow n (withDecorations mayHaveLabel core))
include h

theorem elements_ignore (mayHaveLabel : Bool) {closing : Char} (hclosing : closing ∈ [')', '>']) :
    Ignores v (fun r => char closing r = none) n
      fun s => some (separatedBy ',' (padded (withDecorations mayHaveLabel core)) s) := by
  have hitem : Ignores v AtArrow n (padded (withDecorations mayHaveLabel core)) :=
    padded_ignores hv (h mayHaveLabel) fun r => atArrow_skipBlanks.2
  have hmark : isBlank closing = false ∧ closing ≠ ',' ∧ closing ≠ 't' ∧ closing ≠ '-' := by
    obtain rfl | rfl : closing = ')' ∨ closing = '>' := by simpa using hclosing
    all_goals decide
  obtain ⟨hblank, hne, harrow⟩ := hmark
  refine hitem.separatedBy_closed hne (not_mem_of_not_isBlank hv (by decide))
    (not_mem_of_not_isBlank hv hblank) (fun s a r hr => padded_shrinks hr) (fun r hr => ?_)
    fun r => ?_
  · exact ⟨hr.char_eq_none (by decide) (by decide), hr.char_eq_none harrow hblank⟩
  · rw [padded, skipBlanks_of_head (by simpa using hblank),
      withDecorations_of_ending _ (.inr (by simpa using hclosing)), Option.map_none]

omit hv h in
theorem genericArguments_eq (p : Parser TypeExpr) :
    genericArguments p = between '<' '>' fun s =>
      (some (separatedBy ',' (unlabeled p) s)).bind fun (types, r) =>
        (if types.isEmpty then none else some types).map fun types => (types, r) := by
  rw [genericArguments]
  congr 1
  funext s
  rcases separatedBy ',' (unlabeled p) s with ⟨_ | ⟨u, us⟩, r⟩ <;> rfl

theorem genericArguments_ignores : Ignores v never (n + 1) (genericArguments core) := by
  have hlist : Ignores v (fun r => char '>' r = none) n
      fun s => some (separatedBy ',' (unlabeled core) s) := elements_ignore hv h false (by simp)
  rw [genericArguments_eq]
  exact (hlist.filterMap fun types => if types.isEmpty then none else some types).between
    (not_mem_of_not_isBlank hv (by decide)) (not_mem_of_not_isBlank hv (by decide))

theorem segment_ignores : Ignores v never (n + 1) (segment core) :=
  (dottedName_ignores hv (n + 1)).andThen
    (fun (name : List Char) (arguments : Option (List TypeExpr)) =>
      TypeExpr.generic (String.ofList name) (arguments.getD []))
    (genericArguments_ignores hv h).optionally_of_never fun _ => False.elim

theorem nominal_ignores : Ignores v never (n + 1) (nominal core) := by
  have hsegment := segment_ignores hv h
  have hmore := (((char_ignores hv (c := '.') (by decide) (n + 2)).after
    (fun s b r hr => by simp [char_eq_some hr]) hsegment).mono
    (Nat.le_succ (n + 1))).many_of_never fun s a r hr => by
      obtain ⟨t, rfl, hread⟩ := after_char_eq_some hr
      exact Nat.lt_succ_of_lt (segment_shrinks hread)
  exact hsegment.andThen nominalPath hmore fun _ => False.elim

theorem group_ignores : Ignores v never (n + 1) (group core) := by
  have helements := (padded_char_ignores hv (c := '(') (by decide) (n + 1)).after
    (fun s b r hr => padded_char_shrinks hr) (elements_ignore hv h true (by simp : ')' ∈ [')', '>']))
  exact (helements.followedBy (char_ignores hv (by decide) (n + 1)) fun _ => id).map groupOf

theorem collection_ignores : Ignores v never (n + 1) (collection core) := by
  have hunlabeled : Ignores v AtArrow n (unlabeled core) :=
    padded_ignores hv (h false) fun r => atArrow_skipBlanks.2
  have hvalue : Ignores v (fun r => char ']' r = none) n fun s =>
      some (optionally (after (padded (char ':')) (unlabeled core)) s) := by
    refine (((padded_char_ignores hv (c := ':') (by decide) (n + 1)).after
      (fun s b r hr => padded_char_shrinks hr) hunlabeled).mono (Nat.le_succ n)).optionally
      (fun _ _ => Ignores.char_eq_none_iff (not_mem_of_not_isBlank hv (by decide)))
      (fun s a r hr _ => ?_) fun r hr => hr.char_eq_none (by decide) (by decide)
    rw [after_eq_bind] at hr
    obtain ⟨found, hcolon, -⟩ := Option.bind_eq_some_iff.1 hr
    exact (beginsWith_of_padded_char hcolon).char_eq_none (by decide) (by decide)
  rw [collection_eq]
  refine Ignores.between (not_mem_of_not_isBlank hv (by decide))
    (not_mem_of_not_isBlank hv (by decide)) (hunlabeled.andThen collectionOf hvalue fun r hr => ?_)
  have hnone : after (padded (char ':')) (unlabeled core) r = none := by
    rw [after, hr.padded_char_eq_none (by decide)]
  simpa [optionally, hnone] using hr.char_eq_none (c := ']') (by decide) (by decide)

/-! ## Atoms and compositions -/

theorem atom_ignores : Ignores v never (n + 1) (atom core) := by
  have hmarks : Ignores v never (n + 1) fun s => some (many optionalMark s) :=
    (optionalMark_ignores hv (n + 1)).many_of_never fun s a r => optionalMark_shrinks
  exact ((group_ignores hv h).orElse ((collection_ignores hv h).orElse
    (nominal_ignores hv h))).andThen
    (fun t marks => marks.foldl (fun t wrapper => .generic wrapper [t]) t) hmarks
    fun _ => False.elim

theorem composition_ignores : Ignores v never (n + 1) (composition core) := by
  have hatom := atom_ignores hv h
  have hmore : Ignores v never (n + 1) fun s =>
      some (many (after (padded (char '&')) (atom core)) s) := by
    refine (((padded_char_ignores hv (c := '&') (by decide) (n + 2)).after
      (fun s b r hr => padded_char_shrinks hr) hatom).mono (Nat.le_succ (n + 1))).many_of_never
      fun s a r hr => ?_
    exact ((core_agree s.length).atom.after_padded '&').shrinks (Nat.lt_succ_self _) hr
  rw [composition_eq]
  exact (hatom.andThen Prod.mk hmore fun _ => False.elim).filterMap fun operands =>
    compositionOf operands.1 operands.2

end Rules

end Blanks

end SwiftSurface.Grammar
