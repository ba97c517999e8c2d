import SwiftSurface.Proofs.Grammar.Decorations
import SwiftSurface.Proofs.TypeExpr.Frame
import SwiftSurface.Proofs.TypeExpr.Reread
import SwiftSurface.Proofs.TypeExpr.Written

/-!
# What becomes of a written piece

A written expression is read in front of a text that ends it. It comes back as `reread`, or it
does not come back: then nothing is read, or reading stops at a character that no rule around it
takes, or a type of another frame is read. `Outcome` is this alternative, and the lemmas carry it
from the elements of a list to the list, from the result of a closure to the closure and so on.
-/

namespace SwiftSurface

open Grammar SwiftSurface.Parser Text

/-- What the rules around an expression look at. -/
def TypeExpr.outline (t : TypeExpr) : Option String × Bool :=
  (t.label, t.kind = .tuple)

/-- `u` has another frame than `t`, and the rules around it treat it as they treat `t`. -/
def TypeExpr.Other (t u : TypeExpr) : Prop :=
  u.outline = t.outline ∧ u.frame ≠ t.frame

theorem TypeExpr.outline_reread (t : TypeExpr) : t.reread.outline = t.outline := by
  obtain ⟨shape, generics, attributes, isInout, label⟩ := t
  rw [outline, outline, kind_reread]
  rfl

namespace Grammar

/-- The reading of a piece in front of `rest`. -/
def Outcome (comesBack : Bool) (expected : TypeExpr) (other : TypeExpr → Prop)
    (stuck : List Char → Prop) (rest : List Char) (result : Option (TypeExpr × List Char)) : Prop :=
  (comesBack = true ∧ result = some (expected, rest)) ∨
  (comesBack = false ∧ (result = none ∨
    ∃ u r, result = some (u, r) ∧ (stuck r ∨ r = rest ∧ other u)))

/-- The text is empty or starts with a comma or a closing mark, which ends an expression. -/
def Ends (rest : List Char) : Prop :=
  ∀ c ∈ rest.head?, c = ',' ∨ c = ')' ∨ c = '>'

/-- The text starts with a character that neither continues nor ends an expression. -/
def Stuck (rest : List Char) : Prop :=
  ∃ c s, rest = c :: s ∧ c ≠ ',' ∧ c ≠ ')' ∧ c ≠ '>'

theorem Ends.skipBlanks {rest : List Char} (h : Ends rest) : skipBlanks rest = rest := by
  refine skipBlanks_of_head fun c hc => ?_
  rcases h c hc with rfl | rfl | rfl <;> decide

theorem Stuck.char_eq_none {rest : List Char} (h : Stuck rest) {c : Char}
    (hc : c = ',' ∨ c = ')' ∨ c = '>') : char c rest = none := by
  obtain ⟨d, s, rfl, h₁, h₂, h₃⟩ := h
  rcases hc with rfl | rfl | rfl
  · exact char_cons_of_ne h₁ s
  · exact char_cons_of_ne h₂ s
  · exact char_cons_of_ne h₃ s

/-- The expression is read back, with its decorations, in front of every text that ends it. -/
def ReadsBack (mayHaveLabel : Bool) (t : TypeExpr) : Prop :=
  ∀ rest, Ends rest → Outcome t.respells t.reread t.Other (fun r => Stuck (skipBlanks r)) rest
    (withDecorations mayHaveLabel core (t.write .full ++ rest))

/-! ## Lists -/

/-- The reading of a list of types in front of the mark that closes it. -/
def ListOutcome (types : List TypeExpr) (closing : Char) (rest : List Char)
    (found : List TypeExpr × List Char) : Prop :=
  (TypeExpr.respellAll types = true ∧ found = (types.map TypeExpr.reread, closing :: rest)) ∨
  (TypeExpr.respellAll types = false ∧ (char closing found.2 = none ∨
    ∃ us, found = (us, closing :: rest) ∧ us.map TypeExpr.outline = types.map TypeExpr.outline ∧
      us.map TypeExpr.frame ≠ types.map TypeExpr.frame))

/-- An expression with blanks around it. -/
theorem padded_write {mayHaveLabel : Bool} {t : TypeExpr} {rest : List Char}
    (h : ReadsBack mayHaveLabel t) (hopens : Opens (t.write .full)) (hrest : Ends rest) :
    Outcome t.respells t.reread t.Other Stuck rest
      (padded (withDecorations mayHaveLabel core) (t.write .full ++ rest)) := by
  have hskip : skipBlanks (t.write .full ++ rest) = t.write .full ++ rest :=
    skipBlanks_of_head (hopens.append rest).head
  rw [padded, hskip]
  rcases h rest hrest with ⟨hback, hread⟩ | ⟨hnot, hread | ⟨u, r, hread, hstuck | ⟨rfl, hother⟩⟩⟩
  · exact .inl ⟨hback, by simp [hread, hrest.skipBlanks]⟩
  · exact .inr ⟨hnot, .inl (by simp [hread])⟩
  · exact .inr ⟨hnot, .inr ⟨u, skipBlanks r, by simp [hread], .inl hstuck⟩⟩
  · exact .inr ⟨hnot, .inr ⟨u, r, by simp [hread, hrest.skipBlanks], .inr ⟨rfl, hother⟩⟩⟩

theorem padded_shrinks {mayHaveLabel : Bool} {s r : List Char} {t : TypeExpr}
    (h : padded (withDecorations mayHaveLabel core) s = some (t, r)) : r.length < s.length :=
  ((core_agree (s.length + 1)).withDecorations mayHaveLabel).padded.shrinks (Nat.lt_succ_self _) h

theorem padded_blank {α : Type} (p : Parser α) (s : List Char) :
    padded p (' ' :: s) = padded p s := by
  rw [padded, padded, skipBlanks_blank]

theorem ends_writeMore (types : List TypeExpr) {closing : Char} (rest : List Char)
    (hclosing : closing = ')' ∨ closing = '>') : Ends (writeMore types ++ closing :: rest) := by
  intro c hc
  cases types with
  | nil =>
      obtain rfl := Option.some.inj hc
      exact .inr hclosing
  | cons t types =>
      obtain rfl := Option.some.inj hc
      exact .inl rfl

/-- A first element and what is read of the others. -/
theorem ListOutcome.cons {t : TypeExpr} {types : List TypeExpr} {closing : Char} {rest : List Char}
    {found : List TypeExpr × List Char} (h : ListOutcome types closing rest found) {u : TypeExpr}
    (hu : t.respells = true ∧ u = t.reread ∨ t.respells = false ∧ t.Other u) :
    ListOutcome (t :: types) closing rest (u :: found.1, found.2) := by
  have houtline : u.outline = t.outline := by
    rcases hu with ⟨-, rfl⟩ | ⟨-, hother⟩
    · exact t.outline_reread
    · exact hother.1
  rcases h with ⟨hback, rfl⟩ | ⟨hnot, hclose | ⟨us, rfl, houtlines, hframe⟩⟩
  · rcases hu with ⟨ht, rfl⟩ | ⟨ht, hother⟩
    · exact .inl ⟨by simp [TypeExpr.respellAll, ht, hback], rfl⟩
    · refine .inr ⟨by simp [TypeExpr.respellAll, ht], .inr ⟨_, rfl, ?_, ?_⟩⟩
      · simp [houtline, Function.comp_def, TypeExpr.outline_reread]
      · simp [hother.2]
  · exact .inr ⟨by simp [TypeExpr.respellAll, hnot], .inl hclose⟩
  · refine .inr ⟨by simp [TypeExpr.respellAll, hnot], .inr ⟨_, rfl, ?_, ?_⟩⟩
    · simp [houtline, houtlines]
    · simp [hframe]

variable {mayHaveLabel : Bool} {closing : Char}

/-- The types behind the first one of a list. -/
theorem many_writeMore {types : List TypeExpr} (hclosing : closing = ')' ∨ closing = '>')
    (h : ∀ t ∈ types, ReadsBack mayHaveLabel t ∧ Opens (t.write .full)) (rest : List Char) :
    ListOutcome types closing rest
      (many (after (char ',') (padded (withDecorations mayHaveLabel core)))
        (writeMore types ++ closing :: rest)) := by
  have hcomma : closing ≠ ',' := by rcases hclosing with rfl | rfl <;> decide
  induction types with
  | nil =>
      rw [many_of_none (by simp [writeMore, after, char_cons_of_ne hcomma])]
      exact .inl ⟨rfl, rfl⟩
  | cons t types ih =>
      obtain ⟨hread, hopens⟩ := h t (by simp)
      have hends := ends_writeMore types rest hclosing
      have htext : writeMore (t :: types) ++ closing :: rest =
          ',' :: ' ' :: (t.write .full ++ (writeMore types ++ closing :: rest)) := by
        simp [writeMore]
      have hitem : after (char ',') (padded (withDecorations mayHaveLabel core))
          (writeMore (t :: types) ++ closing :: rest) =
          padded (withDecorations mayHaveLabel core)
            (t.write .full ++ (writeMore types ++ closing :: rest)) := by
        rw [htext, after, char_cons_self]
        exact padded_blank _ _
      have hlength : (t.write .full ++ (writeMore types ++ closing :: rest)).length <
          (writeMore (t :: types) ++ closing :: rest).length := by
        rw [htext]
        simp only [List.length_cons]
        omega
      have hrest := ih fun t ht => h t (by simp [ht])
      -- the next type comes back, is refused, is left in its middle or is read as a type of
      -- another frame
      rcases padded_write hread hopens hends with
        ⟨hback, hfound⟩ | ⟨hnot, hfound | ⟨u, r, hfound, hstuck | ⟨rfl, hother⟩⟩⟩
      · have := padded_shrinks hfound
        rw [many_of_some (hitem.trans hfound) (by omega)]
        exact hrest.cons (.inl ⟨hback, rfl⟩)
      · rw [many_of_none (hitem.trans hfound), htext]
        exact .inr ⟨by simp [TypeExpr.respellAll, hnot], .inl (char_cons_of_ne hcomma.symm _)⟩
      · have := padded_shrinks hfound
        have hstop : after (char ',') (padded (withDecorations mayHaveLabel core)) r = none := by
          rw [after, hstuck.char_eq_none (.inl rfl)]
        rw [many_of_some (hitem.trans hfound) (by omega), many_of_none hstop]
        exact .inr ⟨by simp [TypeExpr.respellAll, hnot], .inl (hstuck.char_eq_none (.inr hclosing))⟩
      · have := padded_shrinks hfound
        rw [many_of_some (hitem.trans hfound) (by omega)]
        exact hrest.cons (.inr ⟨hnot, hother⟩)

/-- A list of types. -/
theorem separatedBy_writeAll {types : List TypeExpr} (hclosing : closing = ')' ∨ closing = '>')
    (h : ∀ t ∈ types, ReadsBack mayHaveLabel t ∧ Opens (t.write .full)) (rest : List Char) :
    ListOutcome types closing rest
      (separatedBy ',' (padded (withDecorations mayHaveLabel core))
        (TypeExpr.writeAll .full types ++ closing :: rest)) := by
  cases types with
  | nil =>
      have hnone : padded (withDecorations mayHaveLabel core) (closing :: rest) = none := by
        have hends : Ends (closing :: rest) := fun c hc => .inr (Option.some.inj hc ▸ hclosing)
        rw [padded, hends.skipBlanks, withDecorations_of_ending _ (.inr hclosing), Option.map_none]
      exact .inl ⟨rfl, separatedBy_of_none hnone⟩
  | cons t types =>
      obtain ⟨hread, hopens⟩ := h t (by simp)
      have hends := ends_writeMore types rest hclosing
      have hmore := many_writeMore hclosing (fun u (hu : u ∈ types) => h u (by simp [hu])) rest
      rw [TypeExpr.writeAll_cons, List.append_assoc]
      rcases padded_write hread hopens hends with
        ⟨hback, hfound⟩ | ⟨hnot, hfound | ⟨u, r, hfound, hstuck | ⟨rfl, hother⟩⟩⟩
      · rw [separatedBy_of_some hfound]
        exact hmore.cons (.inl ⟨hback, rfl⟩)
      · rw [separatedBy_of_none hfound]
        -- nothing was read, and the text of a type does not begin with the closing mark
        obtain ⟨c, s, htext, hc⟩ := hopens
        refine .inr ⟨by simp [TypeExpr.respellAll, hnot], .inl ?_⟩
        rw [htext, List.cons_append]
        exact char_cons_of_ne (hc.ne (.inr hclosing)) _
      · have hstop : after (char ',') (padded (withDecorations mayHaveLabel core)) r = none := by
          rw [after, hstuck.char_eq_none (.inl rfl)]
        rw [separatedBy_of_some hfound, many_of_none hstop]
        exact .inr ⟨by simp [TypeExpr.respellAll, hnot], .inl (hstuck.char_eq_none (.inr hclosing))⟩
      · rw [separatedBy_of_some hfound]
        exact hmore.cons (.inr ⟨hnot, hother⟩)

end Grammar

end SwiftSurface
