import SwiftSurface.Proofs.Grammar.Operand

/-!
# Reading a written closure

A closure is its argument, the arrow and its result. The argument is an operand, or any type in
parentheses; the result is a whole type. If the result is refused, reading stops in front of the
arrow, which nothing around a closure takes.
-/

namespace SwiftSurface

open Grammar SwiftSurface.Parser Text

namespace Grammar

/-! ## The arrow -/

theorem padded_literal_of_head {c : Char} {cs s : List Char}
    (h : ∀ d ∈ (skipBlanks s).head?, d ≠ c) : padded (literal (c :: cs)) s = none := by
  rw [padded, Option.map_eq_none_iff]
  cases hs : skipBlanks s with
  | nil => rfl
  | cons d s => simp [literal, h d (by rw [hs]; rfl)]

theorem arrow_of_head {inner : Parser TypeExpr} {s : List Char}
    (h : ∀ c ∈ (skipBlanks s).head?, c ≠ 't' ∧ c ≠ '-') : arrow inner s = none := by
  have hthrows : padded (literal "throws".toList) s = none :=
    padded_literal_of_head fun c hc => (h c hc).1
  have harrow : padded (literal "->".toList) s = none :=
    padded_literal_of_head fun c hc => (h c hc).2
  simp only [arrow, optionally, hthrows, after, harrow, Option.map_none]

/-- The arrow of a written closure is read, and then the result behind blanks. -/
theorem arrow_arrowText {inner : Parser TypeExpr} (throws : Bool) (s : List Char) :
    arrow inner (arrowText throws ++ s) = (withDecorations false inner (skipBlanks s)).map
      fun (returns, rest) => ((throws, returns), rest) := by
  have harrow : padded (literal "->".toList) ("->".toList ++ ' ' :: s) =
      some ((), skipBlanks s) := by
    rw [padded, skipBlanks_of_head (by simp; decide), literal_append]
    simp only [Option.map_some, skipBlanks_blank]
  cases throws with
  | false =>
      have hthrows : padded (literal "throws".toList) (' ' :: ("->".toList ++ ' ' :: s)) = none :=
        padded_literal_of_head (c := 't') (by
          rw [skipBlanks_blank, skipBlanks_of_head (by simp; decide)]
          simp)
      have htext : arrowText false ++ s = ' ' :: ("->".toList ++ ' ' :: s) := by simp [arrowText]
      rw [htext, arrow, optionally, hthrows]
      dsimp only
      rw [after, padded_blank, harrow]
      rfl
  | true =>
      have hthrows : padded (literal "throws".toList)
          (' ' :: ("throws".toList ++ ' ' :: ("->".toList ++ ' ' :: s))) =
          some ((), "->".toList ++ ' ' :: s) := by
        rw [padded, skipBlanks_blank, skipBlanks_of_head (by simp; decide), literal_append]
        simp only [Option.map_some]
        rw [skipBlanks_blank_of_head (by simp; decide)]
      have htext : arrowText true ++ s =
          ' ' :: ("throws".toList ++ ' ' :: ("->".toList ++ ' ' :: s)) := by
        simp [arrowText]
      rw [htext, arrow, optionally, hthrows]
      dsimp only
      rw [after, harrow]
      rfl

theorem arrow_write {inner : Parser TypeExpr} (throws : Bool) {s : List Char}
    (hs : ∀ c ∈ s.head?, isBlank c = false) :
    arrow inner (arrowText throws ++ s) =
      (withDecorations false inner s).map fun (returns, rest) => ((throws, returns), rest) := by
  rw [arrow_arrowText, skipBlanks_of_head hs]

theorem breaks_arrowText (throws : Bool) (s : List Char) : Breaks (arrowText throws ++ s) := by
  cases throws <;> simp [arrowText, Breaks]

theorem skipBlanks_arrowText (throws : Bool) (s : List Char) :
    ∃ c s', skipBlanks (arrowText throws ++ s) = c :: s' ∧ (c = 't' ∨ c = '-') := by
  cases throws with
  | false =>
      refine ⟨'-', '>' :: ' ' :: s, ?_, .inr rfl⟩
      simp only [arrowText]
      exact (skipBlanks_blank _).trans (skipBlanks_of_head (by simp; decide))
  | true =>
      refine ⟨'t', "hrows -> ".toList ++ s, ?_, .inl rfl⟩
      simp only [arrowText]
      exact (skipBlanks_blank _).trans (skipBlanks_of_head (by simp; decide))

theorem stuck_arrowText (throws : Bool) (s : List Char) :
    Stuck (skipBlanks (arrowText throws ++ s)) := by
  obtain ⟨c, s', htext, hc⟩ := skipBlanks_arrowText throws s
  refine ⟨c, s', htext, ?_⟩
  rcases hc with rfl | rfl <;> decide

/-! ## Types without decorations -/

theorem core_of_operand {s r : List Char} {u : TypeExpr} (h : composition core s = some (u, r))
    (hr : ∀ c ∈ (skipBlanks r).head?, c ≠ 't' ∧ c ≠ '-') : core s = some (u, r) := by
  rw [core_eq, coreRule, h]
  simp [optionally, arrow_of_head hr]

theorem core_of_refused {s : List Char} (h : composition core s = none) : core s = none := by
  rw [core_eq, coreRule, h, Option.map_none]

theorem core_of_arrow {s s' : List Char} {argument : TypeExpr} {throws : Bool}
    (h : composition core s = some (argument, arrowText throws ++ s'))
    (hs' : ∀ c ∈ s'.head?, isBlank c = false) :
    core s = match withDecorations false core s' with
      | some (returns, rest) => some (.closure argument returns throws, rest)
      | none => some (argument, arrowText throws ++ s') := by
  rw [core_eq, coreRule, h]
  simp only [Option.map_some, optionally, arrow_write throws hs']
  cases withDecorations false core s' with
  | none => rfl
  | some found => rfl

/-- The expression less its decorations is read back in front of what ends it. -/
def CoreOutcome (t : TypeExpr) (comesBack : Bool) (expected : TypeExpr) (rest : List Char)
    (result : Option (TypeExpr × List Char)) : Prop :=
  Outcome comesBack expected t.OtherCore (fun r => Stuck (skipBlanks r)) rest result

theorem AtArguments.stuck {rest : List Char} (h : AtArguments rest) : Stuck (skipBlanks rest) := by
  obtain ⟨s, rfl⟩ := h
  exact ⟨'<', s, skipBlanks_of_head (by simp; decide), by decide⟩

theorem Ends.skipBlanks_ne {rest : List Char} (h : Ends rest) {d : Char}
    (hd : d ≠ ',' ∧ d ≠ ')' ∧ d ≠ '>') : ∀ c ∈ (Text.skipBlanks rest).head?, c ≠ d := by
  rw [h.skipBlanks]
  intro c hc
  obtain ⟨h₁, h₂, h₃⟩ := hd
  rcases h c hc with rfl | rfl | rfl
  · exact h₁.symm
  · exact h₂.symm
  · exact h₃.symm

/-- An operand that no arrow follows is a type. -/
theorem core_of_operandReadsBack {t : TypeExpr} (h : OperandReadsBack t) {rest : List Char}
    (hrest : Ends rest) :
    CoreOutcome t t.coreRespells t.reread.bare rest (core (t.writeCore ++ rest)) := by
  have harrow : ∀ c ∈ (skipBlanks rest).head?, c ≠ 't' ∧ c ≠ '-' :=
    fun c hc => ⟨hrest.skipBlanks_ne (by decide) c hc, hrest.skipBlanks_ne (by decide) c hc⟩
  rcases h rest hrest.breaks (hrest.skipBlanks_ne (by decide)) with
    ⟨hback, hread⟩ | ⟨hnot, hread | ⟨u, r, hread, hstuck | ⟨rfl, hother⟩⟩⟩
  · exact .inl ⟨hback, core_of_operand hread harrow⟩
  · exact .inr ⟨hnot, .inl (core_of_refused hread)⟩
  · have hr : ∀ c ∈ (skipBlanks r).head?, c ≠ 't' ∧ c ≠ '-' := by
      obtain ⟨s, rfl⟩ := hstuck
      rw [skipBlanks_of_head (by simp; decide)]
      simp
    exact .inr ⟨hnot, .inr ⟨u, r, core_of_operand hread hr, .inl hstuck.stuck⟩⟩
  · exact .inr ⟨hnot, .inr ⟨u, r, core_of_operand hread harrow, .inr ⟨rfl, hother⟩⟩⟩

/-! ## The argument of a closure -/

/-- The written argument of a closure, less the decorations of a tuple. -/
def argumentText (t : TypeExpr) : List Char :=
  if t.needsParentheses then '(' :: t.write .full ++ [')'] else t.writeCore

/-- Is the written argument read as the same arguments? -/
def argumentRespells (t : TypeExpr) : Bool :=
  if t.needsParentheses then t.respells else t.coreRespells

/-- The argument that is read back. -/
def argumentReread (t : TypeExpr) : TypeExpr :=
  if t.needsParentheses then t.reread else t.reread.bare

theorem kind_ne_of_needsParentheses {t : TypeExpr} (h : t.needsParentheses) : t.kind ≠ .tuple := by
  simp only [TypeExpr.needsParentheses, Bool.and_eq_true, bne_iff_ne] at h
  exact h.1

/-- An argument that stands without parentheses has no decorations, if it is no tuple. -/
theorem asArguments_bare {t : TypeExpr} (h : t.needsParentheses = false) (hlabel : t.label = none) :
    t.bare.asArguments.map TypeExpr.frame = t.asArguments.map TypeExpr.frame := by
  obtain ⟨shape, generics, attributes, isInout, label⟩ := t
  cases shape <;>
    simp_all [TypeExpr.bare, TypeExpr.asArguments, TypeExpr.elements?, TypeExpr.needsParentheses,
      TypeExpr.kind, Shape.kind]

/-- The argument of a closure is read back in front of the arrow. -/
theorem argument_readsBack {t : TypeExpr} (hoperand : t.kind ≠ .closure → OperandReadsBack t)
    (hread : ReadsBack true t ∧ Opens (t.write .full)) (hlabel : t.label = none) (throws : Bool)
    (s : List Char) :
    Outcome (argumentRespells t) (argumentReread t)
      (fun u => u.asArguments.map TypeExpr.frame ≠ t.asArguments.map TypeExpr.frame) AtArguments
      (arrowText throws ++ s) (composition core (argumentText t ++ (arrowText throws ++ s))) := by
  have hbreaks := breaks_arrowText throws s
  have hand : ∀ c ∈ (skipBlanks (arrowText throws ++ s)).head?, c ≠ '&' := by
    obtain ⟨c, s', htext, hc⟩ := skipBlanks_arrowText throws s
    rw [htext]
    rcases hc with rfl | rfl <;> simp
  cases hparen : t.needsParentheses with
  | false =>
      have hkind : t.kind ≠ .closure := by
        intro hkind
        simp [TypeExpr.needsParentheses, hkind] at hparen
      have hbare := asArguments_bare hparen hlabel
      simp only [argumentRespells, argumentReread, argumentText, hparen]
      rcases hoperand hkind _ hbreaks hand with
        hback | ⟨hnot, hfound | ⟨u, r, hfound, hstuck | ⟨rfl, hother⟩⟩⟩
      · exact .inl hback
      · exact .inr ⟨hnot, .inl hfound⟩
      · exact .inr ⟨hnot, .inr ⟨u, r, hfound, .inl hstuck⟩⟩
      · exact .inr ⟨hnot, .inr ⟨u, _, hfound, .inr ⟨rfl, hbare ▸ hother.2.2⟩⟩⟩
  | true =>
      -- in parentheses the argument is a group of one element
      have hkind := kind_ne_of_needsParentheses hparen
      have htext : argumentText t ++ (arrowText throws ++ s) =
          '(' :: (TypeExpr.writeAll .full [t] ++ ')' :: (arrowText throws ++ s)) := by
        simp [argumentText, hparen, TypeExpr.writeAll]
      have hgroup (u : TypeExpr) (hu : u.label = none) : groupOf [u] = u := by
        simp [groupOf, hu]
      have hmarks : ∀ c ∈ (arrowText throws ++ s).head?, c ≠ '?' ∧ c ≠ '!' :=
        fun c hc => ⟨hbreaks.ne (by decide) c hc, hbreaks.ne (by decide) c hc⟩
      simp only [argumentRespells, argumentReread, hparen, if_true, htext]
      have hgroupRead : ∀ u ∈ [t], ReadsBack true u ∧ Opens (u.write .full) := by
        simpa using hread
      rcases group_write hgroupRead (arrowText throws ++ s) with
        ⟨hback, hfound⟩ | ⟨hnot, hfound | ⟨us, hfound, houtline, hframe⟩⟩
      · have hlabel' : t.reread.label = none :=
          (congrArg Prod.fst t.outline_reread).trans hlabel
        rw [← atomRule_of_paren, List.map_singleton, hgroup _ hlabel'] at hfound
        refine .inl ⟨by simpa [TypeExpr.respellAll] using hback, ?_⟩
        exact composition_of_atom (atom_of_rule hfound hmarks) hand
      · refine .inr ⟨by simpa [TypeExpr.respellAll] using hnot, .inl ?_⟩
        rw [composition, atom, atomRule_of_paren, hfound, Option.map_none]
      · obtain ⟨u, rfl⟩ : ∃ u, us = [u] := List.length_eq_one_iff.1 (by
          simpa using congrArg List.length houtline)
        simp only [List.map_cons, List.map_nil, List.cons.injEq, and_true] at houtline
        have hlabel' : u.label = none := (congrArg Prod.fst houtline).trans hlabel
        have hkind' : u.kind ≠ .tuple := by
          have := congrArg Prod.snd houtline
          simpa [TypeExpr.outline, hkind] using this
        rw [← atomRule_of_paren, hgroup u hlabel'] at hfound
        refine .inr ⟨by simpa [TypeExpr.respellAll] using hnot, .inr ⟨u, _,
          composition_of_atom (atom_of_rule hfound hmarks) hand, .inr ⟨rfl, ?_⟩⟩⟩
        show u.asArguments.map TypeExpr.frame ≠ t.asArguments.map TypeExpr.frame
        rwa [TypeExpr.asArguments_of_kind_ne hkind, TypeExpr.asArguments_of_kind_ne hkind']

/-! ## The closure -/

section Closure

variable {arguments returns : TypeExpr} {throws : Bool} {attributes : List Attribute}
  {isInout : Bool} {label : Option String}

/-- The frame of a closure is that of its arguments and its result. -/
theorem otherCore_closure {arguments' returns' : TypeExpr}
    (h : arguments'.asArguments.map TypeExpr.frame ≠ arguments.asArguments.map TypeExpr.frame ∨
      returns'.frame ≠ returns.frame) :
    TypeExpr.OtherCore ⟨.closure arguments returns throws, [], attributes, isInout, label⟩
      (.closure arguments' returns' throws) := by
  refine ⟨rfl, rfl, fun hframe => ?_⟩
  rw [TypeExpr.asArguments_of_kind_ne (by simp [TypeExpr.kind, TypeExpr.closure,
      TypeExpr.ofShape, Shape.kind]),
    TypeExpr.asArguments_of_kind_ne (by simp [TypeExpr.kind, TypeExpr.bare, Shape.kind])] at hframe
  have hshape := congrArg TypeExpr.shape (List.head_eq_of_cons_eq hframe)
  change (Shape.closure _ _ _).frame = (Shape.closure _ _ _).frame at hshape
  rw [Shape.frame_closure, Shape.frame_closure] at hshape
  obtain ⟨htuple, hreturns, -⟩ := Shape.closure.inj hshape
  rcases h with h | h
  · exact h (Shape.tuple.inj (congrArg TypeExpr.shape htuple))
  · exact h hreturns

/-- A closure whose argument has been read comes back if the argument does and the result does. -/
theorem closure_readsBack_of_argument {argument : TypeExpr} {s rest : List Char}
    (hargument : composition core s =
      some (argument, arrowText throws ++ (returns.write .full ++ rest)))
    (hback : argumentRespells arguments = true ∧ argument = argumentReread arguments ∨
      argumentRespells arguments = false ∧
        argument.asArguments.map TypeExpr.frame ≠ arguments.asArguments.map TypeExpr.frame)
    (hreturns : ReadsBack false returns ∧ Opens (returns.write .full)) (hrest : Ends rest) :
    CoreOutcome ⟨.closure arguments returns throws, [], attributes, isInout, label⟩
      (argumentRespells arguments && returns.respells)
      (.closure (argumentReread arguments) returns.reread throws) rest (core s) := by
  have hcore := core_of_arrow hargument (hreturns.2.append rest).head
  have hnot (h : returns.respells = false) :
      (argumentRespells arguments && returns.respells) = false := by
    simp [h]
  rcases hreturns.1 rest hrest with
    ⟨hreturn, hread⟩ | ⟨hreturn, hread | ⟨u, r, hread, hstuck | ⟨rfl, hother⟩⟩⟩
  · rw [hread] at hcore
    rcases hback with ⟨harg, rfl⟩ | ⟨harg, hother⟩
    · exact .inl ⟨by simp [harg, hreturn], hcore⟩
    · exact .inr ⟨by simp [harg],
        .inr ⟨_, rest, hcore, .inr ⟨rfl, otherCore_closure (.inl hother)⟩⟩⟩
  · -- the result is refused: the argument alone is read, and the arrow is left
    rw [hread] at hcore
    exact .inr ⟨hnot hreturn, .inr ⟨_, _, hcore, .inl (stuck_arrowText throws _)⟩⟩
  · rw [hread] at hcore
    exact .inr ⟨hnot hreturn, .inr ⟨_, r, hcore, .inl hstuck⟩⟩
  · rw [hread] at hcore
    exact .inr ⟨hnot hreturn, .inr ⟨_, r, hcore, .inr ⟨rfl, otherCore_closure (.inr hother.2)⟩⟩⟩

/-- A closure, less its decorations and those of a tuple that is its argument. -/
theorem closure_readsBack (throws : Bool) (attributes : List Attribute) (isInout : Bool)
    (label : Option String) (hoperand : arguments.kind ≠ .closure → OperandReadsBack arguments)
    (harguments : ReadsBack true arguments ∧ Opens (arguments.write .full))
    (hlabel : arguments.label = none)
    (hreturns : ReadsBack false returns ∧ Opens (returns.write .full)) {rest : List Char}
    (hrest : Ends rest) :
    CoreOutcome ⟨.closure arguments returns throws, [], attributes, isInout, label⟩
      (argumentRespells arguments && returns.respells)
      (.closure (argumentReread arguments) returns.reread throws) rest
      (core (argumentText arguments ++ (arrowText throws ++ (returns.write .full ++ rest)))) := by
  rcases argument_readsBack hoperand harguments hlabel throws (returns.write .full ++ rest) with
    ⟨hback, hread⟩ | ⟨hnot, hread | ⟨u, r, hread, hstuck | ⟨rfl, hother⟩⟩⟩
  · exact closure_readsBack_of_argument hread (.inl ⟨hback, rfl⟩) hreturns hrest
  · exact .inr ⟨by simp [hnot], .inl (core_of_refused hread)⟩
  · obtain ⟨s, rfl⟩ := hstuck
    have hr : ∀ c ∈ (skipBlanks ('<' :: s)).head?, c ≠ 't' ∧ c ≠ '-' := by
      rw [skipBlanks_of_head (by simp; decide)]
      simp
    exact .inr ⟨by simp [hnot], .inr ⟨u, _, core_of_operand hread hr,
      .inl (AtArguments.stuck ⟨s, rfl⟩)⟩⟩
  · exact closure_readsBack_of_argument hread (.inr ⟨hnot, hother⟩) hreturns hrest

end Closure

end Grammar

end SwiftSurface
