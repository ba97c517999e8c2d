import SwiftSurface.Proofs.Grammar.Decorated
import SwiftSurface.Proofs.Grammar.Persistence

/-!
# Texts put together from accepted texts

An accepted text in front of a closing mark is read to the mark, as the type that it spells on its
own (`Spells.append`). So a text that puts accepted texts in parentheses, with commas or an arrow
between them, is read as the type that puts their types together (`parse_of_pieces`).
-/

namespace SwiftSurface

open Grammar SwiftSurface.Parser Text

namespace Grammar

/-! ## Whole texts -/

/-- The whole text is read as this type, at a place where a label may or may not stand. -/
def Spells (mayHaveLabel : Bool) (s : List Char) (t : TypeExpr) : Prop :=
  padded (withDecorations mayHaveLabel core) s = some (t, [])

variable {s rest : List Char} {t : TypeExpr} {mayHaveLabel : Bool} {c : Char}

theorem padded_eq_some {α : Type} {p : Parser α} {a : α} {r : List Char} :
    padded p s = some (a, r) ↔ ∃ r', p (skipBlanks s) = some (a, r') ∧ skipBlanks r' = r := by
  simp only [padded, Option.map_eq_some_iff, Prod.exists, Prod.mk.injEq]
  grind

/-- Blanks in front of the text make no difference. -/
theorem padded_congr {α : Type} {p : Parser α} {s' : List Char} (h : skipBlanks s = skipBlanks s') :
    padded p s = padded p s' := by
  rw [padded, padded, h]

theorem padded_char_self (hc : isBlank c = false) (s : List Char) :
    padded (char c) (c :: s) = some ((), skipBlanks s) := by
  rw [padded, skipBlanks_of_head (by simpa using hc), char_cons_self, Option.map_some]

/-- An accepted text is read to its end in front of a mark that ends it. Where a label may stand, a
colon would make a label of the text. -/
theorem Spells.append (h : Spells mayHaveLabel s t) (hc : c ∈ closers)
    (hcolon : mayHaveLabel = true → c ≠ ':') (rest : List Char) :
    padded (withDecorations mayHaveLabel core) (s ++ c :: rest) = some (t, c :: rest) := by
  have hmore : Closes (c :: rest) := ⟨c, rfl, hc⟩
  have hread : Persists (c :: rest) (fun r => r ≠ []) (padded (withDecorations mayHaveLabel core))
      (padded (withDecorations mayHaveLabel core)) := by
    have hrule := withDecorations_rule hmore (core_continues hmore) mayHaveLabel
    refine padded_persists hmore hrule fun r hr hnil => ?_
    -- nothing is left of the text, and the mark makes no label of it
    rcases hr with ⟨d, hd, -⟩ | ⟨hmay, hcut, -⟩
    · simp [hnil] at hd
    · exact hcolon hmay (Option.some.inj hcut)
  exact (hread s t [] h).2.resolve_right fun hr => hr rfl

/-- A type without a label is read in the same way where no label may stand. -/
theorem withDecorations_false {p : Parser TypeExpr} {r : List Char}
    (h : withDecorations true p s = some (t, r)) (hlabel : t.label = none) :
    withDecorations false p s = some (t, r) := by
  rw [withDecorations] at h ⊢
  generalize many (padded attributeMark) s = attributes at h ⊢
  obtain ⟨attributes, s₁⟩ := attributes
  dsimp only at h ⊢
  generalize optionally inoutMark s₁ = inoutRead at h ⊢
  obtain ⟨inoutRead, s₂⟩ := inoutRead
  cases hmark : labelMark s₂ with
  | none => simpa [optionally, hmark] using h
  | some found =>
      simp only [optionally, hmark, if_true] at h
      obtain ⟨⟨u, r⟩, -, h⟩ := Option.map_eq_some_iff.1 h
      obtain ⟨rfl, -⟩ := Prod.mk.inj h
      simp [decorate] at hlabel

theorem Spells.unlabeled (h : Spells true s t) (hlabel : t.label = none) : Spells false s t := by
  obtain ⟨r, hread, hr⟩ := padded_eq_some.1 h
  exact padded_eq_some.2 ⟨r, withDecorations_false hread hlabel, hr⟩

theorem decorate_nothing (t : TypeExpr) : decorate [] false none t = t := by
  cases t
  rfl

/-- A text without decorations is read by `core`. -/
theorem spells_of_core {r : List Char} (hs : Undecorated s) (hinout : inoutMark s = none)
    (h : core s = some (t, r)) (hr : skipBlanks r = []) : Spells mayHaveLabel s t := by
  have hread := @withDecorations_undecorated mayHaveLabel false [] none s (by simp) (by simp)
    (by simp) (by simp) hs fun _ _ => hinout
  refine padded_eq_some.2 ⟨r, ?_, hr⟩
  rw [skipBlanks_of_head fun c hc => (hs.head c hc).1]
  simpa [TypeExpr.writeDecorations, h, decorate_nothing] using hread

theorem spells_of_atom (hs : Undecorated s) (hinout : inoutMark s = none)
    (h : atom core s = some (t, [])) : Spells mayHaveLabel s t :=
  spells_of_core hs hinout
    (core_of_operand (composition_of_atom h (by simp [skipBlanks])) (by simp [skipBlanks])) rfl

/-! ## Lists of accepted texts -/

section Pieces

variable {pieces : List (List Char × TypeExpr)} {closing : Char}

/-- The texts with commas between them. -/
def joinPieces (pieces : List (List Char × TypeExpr)) : List Char :=
  [','].intercalate (pieces.map Prod.fst)

@[simp] theorem joinPieces_singleton (piece : List Char × TypeExpr) :
    joinPieces [piece] = piece.1 := by
  simp [joinPieces]

theorem joinPieces_cons (piece : List Char × TypeExpr) (pieces : List (List Char × TypeExpr)) :
    joinPieces (piece :: pieces) = piece.1 ++ pieces.flatMap fun piece => ',' :: piece.1 := by
  induction pieces generalizing piece with
  | nil => simp
  | cons next pieces ih =>
      rw [List.flatMap_cons, List.cons_append, ← ih next]
      simp [joinPieces, List.intercalate]

/-- Behind a piece stands a comma or the mark that closes the list. -/
theorem morePieces_eq (hclosing : closing ∈ [')', '>']) (pieces : List (List Char × TypeExpr))
    (rest : List Char) : ∃ c more, c ∈ closers ∧ c ≠ ':' ∧
      (pieces.flatMap fun piece => ',' :: piece.1) ++ closing :: rest = c :: more := by
  cases pieces with
  | nil =>
      have hmark : ∀ c ∈ [')', '>'], c ∈ closers ∧ c ≠ ':' := by simp [closers]
      exact ⟨closing, rest, (hmark closing hclosing).1, (hmark closing hclosing).2, rfl⟩
  | cons piece pieces => exact ⟨',', _, by decide, by decide, rfl⟩

theorem Spells.append_morePieces (h : Spells mayHaveLabel s t) (hclosing : closing ∈ [')', '>'])
    (pieces : List (List Char × TypeExpr)) (rest : List Char) :
    padded (withDecorations mayHaveLabel core)
      (s ++ ((pieces.flatMap fun piece => ',' :: piece.1) ++ closing :: rest)) =
      some (t, (pieces.flatMap fun piece => ',' :: piece.1) ++ closing :: rest) := by
  obtain ⟨c, more, hc, hcolon, hmore⟩ := morePieces_eq hclosing pieces rest
  rw [hmore]
  exact h.append hc (fun _ => hcolon) more

theorem many_morePieces (hclosing : closing ∈ [')', '>'])
    (h : ∀ piece ∈ pieces, Spells mayHaveLabel piece.1 piece.2) (rest : List Char) :
    many (after (char ',') (padded (withDecorations mayHaveLabel core)))
      ((pieces.flatMap fun piece => ',' :: piece.1) ++ closing :: rest) =
      (pieces.map Prod.snd, closing :: rest) := by
  induction pieces with
  | nil =>
      have hne : closing ≠ ',' := by
        rintro rfl
        simp at hclosing
      exact many_of_none (by simp [after, char_cons_of_ne hne])
  | cons piece pieces ih =>
      have hpiece := (h piece (by simp)).append_morePieces hclosing pieces rest
      have hread : after (char ',') (padded (withDecorations mayHaveLabel core))
          (((piece :: pieces).flatMap fun piece => ',' :: piece.1) ++ closing :: rest) =
          some (piece.2, (pieces.flatMap fun piece => ',' :: piece.1) ++ closing :: rest) := by
        simpa [after] using hpiece
      rw [many_of_some hread ?_, ih fun piece hpiece => h piece (by simp [hpiece])]
      · rfl
      · simp only [List.flatMap_cons, List.length_append, List.length_cons]
        omega

/-- A list of accepted texts is read as the list of their types, without the blanks in front of it
or with them. -/
theorem separatedBy_joinPieces (hclosing : closing ∈ [')', '>']) (hne : pieces ≠ [])
    (h : ∀ piece ∈ pieces, Spells mayHaveLabel piece.1 piece.2)
    (hs : skipBlanks s = skipBlanks (joinPieces pieces ++ closing :: rest)) :
    separatedBy ',' (padded (withDecorations mayHaveLabel core)) s =
      (pieces.map Prod.snd, closing :: rest) := by
  cases pieces with
  | nil => exact absurd rfl hne
  | cons piece pieces =>
      have hfirst := (h piece (by simp)).append_morePieces hclosing pieces rest
      have hmore := many_morePieces hclosing
        (fun next (hnext : next ∈ pieces) => h next (by simp [hnext])) rest
      rw [joinPieces_cons, List.append_assoc] at hs
      rw [separatedBy_of_some ((padded_congr hs).trans hfirst), hmore]
      rfl

/-! ## Groups -/

theorem group_joinPieces (hne : pieces ≠ []) (h : ∀ piece ∈ pieces, Spells true piece.1 piece.2)
    (rest : List Char) :
    group core ('(' :: (joinPieces pieces ++ ')' :: rest)) =
      some (groupOf (pieces.map Prod.snd), rest) := by
  have hopen := padded_char_self (c := '(') (by decide) (joinPieces pieces ++ ')' :: rest)
  have hlist := separatedBy_joinPieces (by simp) hne h
    (skipBlanks_skipBlanks (joinPieces pieces ++ ')' :: rest))
  simp [group_of_open hopen, hlist]

theorem spells_group (hne : pieces ≠ []) (h : ∀ piece ∈ pieces, Spells true piece.1 piece.2) :
    Spells mayHaveLabel ('(' :: (joinPieces pieces ++ [')'])) (groupOf (pieces.map Prod.snd)) := by
  have hgroup := group_joinPieces hne h []
  rw [← atomRule_of_paren] at hgroup
  exact spells_of_atom (undecorated_of_paren _) (inoutMark_of_head (by simp))
    (atom_of_rule hgroup (by simp))

/-- A single accepted text in parentheses, whatever stands behind them. -/
theorem group_of_spells (h : Spells true s t) (rest : List Char) :
    group core ('(' :: (s ++ ')' :: rest)) = some (groupOf [t], rest) := by
  have hgroup : group core ('(' :: (joinPieces [(s, t)] ++ ')' :: rest)) =
      some (groupOf [t], rest) :=
    group_joinPieces (by simp) (by simpa using h) rest
  simpa using hgroup

end Pieces

theorem groupOf_unlabeled (hlabel : t.label = none) : groupOf [t] = t := by
  simp [groupOf, hlabel]

theorem groupOf_of_two_le {types : List TypeExpr} (h : 2 ≤ types.length) :
    groupOf types = .tuple types := by
  match types with
  | _ :: _ :: _ => rfl

/-! ## Closures -/

theorem spells_closure {s' : List Char} {returns : TypeExpr} (h : Spells true s t)
    (hlabel : t.label = none) (hreturns : Spells false s' returns) (throws : Bool) :
    Spells mayHaveLabel ('(' :: (s ++ ')' :: (arrowText throws ++ s')))
      (.closure t returns throws) := by
  have hbreaks := breaks_arrowText throws s'
  have hand : ∀ c ∈ (skipBlanks (arrowText throws ++ s')).head?, c ≠ '&' := by
    obtain ⟨c, rest, htext, hc⟩ := skipBlanks_arrowText throws s'
    rw [htext]
    rcases hc with rfl | rfl <;> simp
  have hgroup := group_of_spells h (arrowText throws ++ s')
  rw [groupOf_unlabeled hlabel, ← atomRule_of_paren] at hgroup
  have hargument := composition_of_atom (atom_of_rule hgroup
    fun c hc => ⟨hbreaks.ne (by decide) c hc, hbreaks.ne (by decide) c hc⟩) hand
  obtain ⟨r, hread, hr⟩ := padded_eq_some.1 hreturns
  refine spells_of_core (undecorated_of_paren _) (inoutMark_of_head (by simp)) ?_ hr
  rw [core_eq, coreRule, hargument]
  simp [optionally, arrow_arrowText, hread]

end Grammar

/-! ## Accepted texts -/

namespace TypeExpr

variable {source : String} {t : TypeExpr}

theorem parse_eq_some : parse source = some t ↔ Spells true source.toList t := by
  rw [parse, Spells, type]
  split
  case h_1 hread => simp [hread]
  case h_2 hnot => exact iff_of_false (by simp) (hnot t)

theorem parse_parenthesized (h : parse source = some t) :
    parse ("(" ++ source ++ ")") = some (groupOf [t]) := by
  rw [parse_eq_some] at h ⊢
  have hgroup : Spells true ('(' :: (joinPieces [(source.toList, t)] ++ [')'])) (groupOf [t]) :=
    spells_group (by simp) (by simpa using h)
  simpa using hgroup

theorem parse_tuple {pieces : List (String × TypeExpr)} (hlength : 2 ≤ pieces.length)
    (h : ∀ piece ∈ pieces, parse piece.1 = some piece.2) :
    parse ("(" ++ ",".intercalate (pieces.map Prod.fst) ++ ")") =
      some (tuple (pieces.map Prod.snd)) := by
  have hne : pieces.map (fun piece => (piece.1.toList, piece.2)) ≠ [] := by
    rintro hnil
    simp [List.map_eq_nil_iff.1 hnil] at hlength
  have hpieces : ∀ piece ∈ pieces.map fun piece => (piece.1.toList, piece.2),
      Spells true piece.1 piece.2 :=
    List.forall_mem_map.2 fun piece hpiece => parse_eq_some.1 (h piece hpiece)
  have hgroup : Spells true _ _ := spells_group hne hpieces
  rw [groupOf_of_two_le (by simpa using hlength)] at hgroup
  rw [parse_eq_some]
  simpa [joinPieces, String.toList_intercalate, Function.comp_def] using hgroup

theorem parse_closure {source' : String} {returns : TypeExpr} (h : parse source = some t)
    (hreturns : parse source' = some returns) (hlabel : t.label = none)
    (hlabel' : returns.label = none) (throws : Bool) :
    parse ("(" ++ source ++ (if throws then ") throws -> " else ") -> ") ++ source') =
      some (closure t returns throws) := by
  rw [parse_eq_some] at h hreturns ⊢
  have hclosure : Spells true _ (closure t returns throws) :=
    spells_closure h hlabel (hreturns.unlabeled hlabel') throws
  cases throws <;> simpa [arrowText] using hclosure

/-- A text put together from accepted texts is read as the type put together from their types:
parentheses around one text without a label change nothing, texts with commas between them are a
tuple, and an arrow makes a closure. -/
theorem parse_of_pieces :
    (∀ source t, parse source = some t →
      parse ("(" ++ source ++ ")") = some (if t.label.isNone then t else tuple [t])) ∧
    (∀ pieces : List (String × TypeExpr), 2 ≤ pieces.length →
      (∀ piece ∈ pieces, parse piece.1 = some piece.2) →
      parse ("(" ++ ",".intercalate (pieces.map Prod.fst) ++ ")") =
        some (tuple (pieces.map Prod.snd))) ∧
    (∀ source source' t returns, parse source = some t → parse source' = some returns →
      t.label = none → returns.label = none →
      parse ("(" ++ source ++ ") -> " ++ source') = some (closure t returns false) ∧
      parse ("(" ++ source ++ ") throws -> " ++ source') = some (closure t returns true)) := by
  refine ⟨fun source t h => parse_parenthesized h, fun pieces hlength h => parse_tuple hlength h,
    fun source source' t returns h h' hlabel hlabel' => ⟨?_, ?_⟩⟩
  · exact parse_closure h h' hlabel hlabel' false
  · exact parse_closure h h' hlabel hlabel' true

theorem parse_of_pieces_inout :
    parse ("(" ++ "x: Swift.Int" ++ ")") = some (tuple [(named "Swift.Int").withLabel "x"]) ∧
    parse ("(" ++ ",".intercalate ["x: Swift.Int", "inout T"] ++ ")") =
      some (tuple [(named "Swift.Int").withLabel "x", (named "T").withInout true]) ∧
    parse ("(" ++ "inout T" ++ ") throws -> " ++ "U?") =
      some (closure ((named "T").withInout true) (generic "Swift.Optional" [named "U"]) true) := by
  have hlabeled : parse "x: Swift.Int" = some ((named "Swift.Int").withLabel "x") := by
    decide +kernel
  have hinout : parse "inout T" = some ((named "T").withInout true) := by decide +kernel
  have hreturns : parse "U?" = some (generic "Swift.Optional" [named "U"]) := by decide +kernel
  obtain ⟨hgroup, htuple, hclosure⟩ := parse_of_pieces
  refine ⟨hgroup _ _ hlabeled, ?_, (hclosure _ _ _ _ hinout hreturns rfl rfl).2⟩
  exact htuple [("x: Swift.Int", _), ("inout T", _)] (by decide)
    (List.forall_mem_cons.2 ⟨hlabeled, List.forall_mem_singleton.2 hinout⟩)

end TypeExpr

end SwiftSurface
