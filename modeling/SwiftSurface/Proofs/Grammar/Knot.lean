import SwiftSurface.Proofs.Parsing
import SwiftSurface.Proofs.Text
import SwiftSurface.TypeExpr.Grammar

/-!
# The rules of the grammar in terms of themselves

`core` recurs through a parser that refuses whatever is no shorter than the text at hand. The rules
never ask for that: each part that they hand to `inner` begins after something was read. So two
parsers that agree on shorter texts give the same rule (`Agree.coreRule`), and `core` satisfies its
grammar equation as it is written (`core_eq`).
-/

namespace SwiftSurface.Grammar

open SwiftSurface.Parser Text

variable {α : Type}

theorem identifier_shrinks {s r : List Char} {a : List Char} (h : identifier s = some (a, r)) :
    r.length < s.length := by
  obtain ⟨rfl, hne, -⟩ := run_eq_some h
  have := List.length_pos_iff.2 hne
  simp only [List.length_append]
  omega

theorem dottedName_shrinks {s r : List Char} {a : List Char} (h : dottedName s = some (a, r)) :
    r.length < s.length := by
  obtain ⟨⟨first, rest⟩, hfirst, h⟩ := Option.map_eq_some_iff.1 h
  obtain ⟨-, rfl⟩ := Prod.mk.inj h
  have := identifier_shrinks hfirst
  have := many_length_le (after (char '.') identifier) rest
  omega

theorem padded_char_shrinks {c : Char} {s r : List Char} {a : Unit}
    (h : padded (char c) s = some (a, r)) : r.length < s.length := by
  obtain ⟨⟨_, rest⟩, hchar, h⟩ := Option.map_eq_some_iff.1 h
  obtain ⟨-, rfl⟩ := Prod.mk.inj h
  have hskip := skipBlanks_length_le s
  have := skipBlanks_length_le rest
  rw [char_eq_some hchar, List.length_cons] at hskip
  omega

theorem optionally_length_le {p : Parser α} (hp : ∀ s a r, p s = some (a, r) → r.length ≤ s.length)
    (s : List Char) : (optionally p s).2.length ≤ s.length := by
  rw [optionally]
  split
  case h_1 heq => exact hp _ _ _ heq
  case h_2 => simp

theorem inoutMark_length_le {s r : List Char} {a : Unit} (h : inoutMark s = some (a, r)) :
    r.length ≤ s.length := by
  rw [inoutMark, followedBy] at h
  split at h
  case h_1 hliteral =>
      obtain ⟨⟨blanks, rest⟩, hblanks, h⟩ := Option.map_eq_some_iff.1 h
      obtain ⟨-, rfl⟩ := Prod.mk.inj h
      obtain ⟨rfl, -⟩ := run_eq_some hblanks
      rw [literal_eq_some hliteral]
      simp only [List.length_append]
      omega
  case h_2 => exact absurd h (by simp)

theorem labelMark_length_le {s r : List Char} {a : String} (h : labelMark s = some (a, r)) :
    r.length ≤ s.length := by
  obtain ⟨⟨name, rest⟩, hmark, h⟩ := Option.map_eq_some_iff.1 h
  obtain ⟨-, rfl⟩ := Prod.mk.inj h
  rw [followedBy] at hmark
  split at hmark
  case h_1 hname =>
      obtain ⟨⟨_, rest⟩, hcolon, hmark⟩ := Option.map_eq_some_iff.1 hmark
      obtain ⟨-, rfl⟩ := Prod.mk.inj hmark
      have := identifier_shrinks hname
      have := padded_char_shrinks hcolon
      omega
  case h_2 => exact absurd hmark (by simp)

end SwiftSurface.Grammar

namespace SwiftSurface.Parser.Agree

open Grammar Text

variable {α : Type} {n : Nat} {p q : Parser α} {i j : Parser TypeExpr}

/-! ## Each rule -/

theorem padded (h : Agree n p q) : Agree n (padded p) (padded q) := by
  intro s hs
  have hskip := skipBlanks_length_le s
  simp only [Grammar.padded, ← h.eq (show (skipBlanks s).length < n by omega)]
  refine ⟨trivial, fun a r hr => ?_⟩
  obtain ⟨⟨b, rest⟩, hp, hr⟩ := Option.map_eq_some_iff.1 hr
  obtain ⟨-, rfl⟩ := Prod.mk.inj hr
  have := h.shrinks (by omega) hp
  exact Nat.lt_of_le_of_lt (skipBlanks_length_le rest) (by omega)

theorem after_padded (h : Agree n p q) (c : Char) :
    Agree n (after (Grammar.padded (char c)) p) (after (Grammar.padded (char c)) q) := by
  intro s hs
  simp only [after]
  cases hc : Grammar.padded (char c) s with
  | none => simp
  | some found =>
      obtain ⟨_, rest⟩ := found
      have := padded_char_shrinks hc
      refine ⟨h.eq (by omega), fun a r hr => ?_⟩
      have := h.shrinks (by omega) hr
      omega

theorem withDecorations (h : Agree n i j) (mayHaveLabel : Bool) :
    Agree n (withDecorations mayHaveLabel i) (withDecorations mayHaveLabel j) := by
  intro s hs
  rw [Grammar.withDecorations, Grammar.withDecorations]
  -- the decorations are read without `i` and `j`, and leave no more than they were given
  have hattributes := many_length_le (Grammar.padded attributeMark) s
  generalize many (Grammar.padded attributeMark) s = attributes at hattributes
  obtain ⟨attributes, s₁⟩ := attributes
  have hinout := Grammar.optionally_length_le (fun _ _ _ => inoutMark_length_le) s₁
  dsimp only at hattributes ⊢
  generalize optionally inoutMark s₁ = inoutRead at hinout
  obtain ⟨inoutRead, s₂⟩ := inoutRead
  have hlabel : (if mayHaveLabel then optionally labelMark s₂ else (none, s₂)).2.length ≤
      s₂.length := by
    split
    · exact Grammar.optionally_length_le (fun _ _ _ => labelMark_length_le) s₂
    · exact Nat.le_refl _
  dsimp only at hinout ⊢
  generalize (if mayHaveLabel then optionally labelMark s₂ else (none, s₂)) = label at hlabel
  obtain ⟨label, s₃⟩ := label
  dsimp only at hlabel ⊢
  have hs₃ : s₃.length < n := by omega
  refine ⟨by rw [h.eq hs₃], fun t r hr => ?_⟩
  obtain ⟨⟨u, rest⟩, hu, hr⟩ := Option.map_eq_some_iff.1 hr
  obtain ⟨-, rfl⟩ := Prod.mk.inj hr
  have := h.shrinks hs₃ hu
  dsimp only
  omega

theorem genericArguments (h : Agree n i j) :
    Agree (n + 1) (genericArguments i) (genericArguments j) := by
  have hitem := (h.withDecorations false).padded
  unfold Grammar.genericArguments
  refine between (fun s hs => ?_) '<' '>'
  have heq : separatedBy ',' (unlabeled i) s = separatedBy ',' (unlabeled j) s :=
    hitem.separatedBy_eq ',' hs
  refine ⟨by simp only [heq], fun types r hr => ?_⟩
  cases hi : unlabeled i s with
  | none => simp [separatedBy_of_none hi] at hr
  | some found =>
      obtain ⟨t, rest⟩ := found
      simp only [separatedBy_of_some hi] at hr
      obtain ⟨-, rfl⟩ := Prod.mk.inj (Option.some.inj hr)
      have := hitem.shrinks hs hi
      have := many_length_le (after (char ',') (unlabeled i)) rest
      omega

theorem segment (h : Agree n i j) : Agree (n + 1) (segment i) (segment j) := by
  intro s hs
  rw [Grammar.segment, Grammar.segment]
  cases hname : dottedName s with
  | none => simp
  | some found =>
      obtain ⟨name, rest⟩ := found
      have hrest := dottedName_shrinks hname
      have harguments := h.genericArguments
      have heq := harguments.optionally_eq (show rest.length < n + 1 by omega)
      have hle := harguments.optionally_length_le (show rest.length < n + 1 by omega)
      refine ⟨by simp [heq], fun t r hr => ?_⟩
      simp only [Option.map_some, Option.some.injEq, Prod.mk.injEq] at hr
      obtain ⟨-, rfl⟩ := hr
      omega

theorem nominal (h : Agree n i j) : Agree (n + 1) (nominal i) (nominal j) := by
  intro s hs
  rw [Grammar.nominal, Grammar.nominal, ← h.segment.eq hs]
  cases hhead : Grammar.segment i s with
  | none => simp
  | some found =>
      obtain ⟨head, rest⟩ := found
      have hrest := h.segment.shrinks hs hhead
      have hmore := (h.segment.after_char '.').many_eq (show rest.length < n + 1 + 1 by omega)
      refine ⟨by simp [hmore], fun t r hr => ?_⟩
      simp only [Option.map_some, Option.some.injEq, Prod.mk.injEq] at hr
      obtain ⟨-, rfl⟩ := hr
      have := many_length_le (after (char '.') (Grammar.segment i)) rest
      omega

theorem group (h : Agree n i j) : Agree (n + 1) (group i) (group j) := by
  intro s hs
  rw [Grammar.group, Grammar.group]
  simp only [followedBy, after]
  cases hopen : Grammar.padded (char '(') s with
  | none => simp
  | some found =>
      obtain ⟨_, rest⟩ := found
      have hrest : rest.length < n := by
        have := padded_char_shrinks hopen
        omega
      have hitem := (h.withDecorations true).padded
      have heq := hitem.separatedBy_eq ',' hrest
      have hle := hitem.separatedBy_length_le ',' hrest
      refine ⟨by simp only [heq], fun t r hr => ?_⟩
      rcases hlist : separatedBy ',' (Grammar.padded (Grammar.withDecorations true i)) rest with
        ⟨elements, rest'⟩
      rw [hlist] at hle
      simp only [hlist, Option.map_map, Option.map_eq_some_iff] at hr
      obtain ⟨⟨_, rest''⟩, hclose, hr⟩ := hr
      obtain ⟨-, rfl⟩ := Prod.mk.inj hr
      have := padded_char_shrinks hopen
      simp only [char_eq_some hclose, List.length_cons] at hle ⊢
      omega

theorem collection (h : Agree n i j) : Agree (n + 1) (collection i) (collection j) := by
  have hitem := (h.withDecorations false).padded
  have hvalue : Agree n (after (Grammar.padded (char ':')) (unlabeled i))
      (after (Grammar.padded (char ':')) (unlabeled j)) := hitem.after_padded ':'
  unfold Grammar.collection
  refine between (fun s hs => ?_) '[' ']'
  have heq : unlabeled i s = unlabeled j s := hitem.eq hs
  rw [← heq]
  cases hfirst : unlabeled i s with
  | none => simp
  | some found =>
      obtain ⟨first, rest⟩ := found
      have hrest := hitem.shrinks hs hfirst
      have hoptional := hvalue.optionally_eq (show rest.length < n by omega)
      have hle := hvalue.optionally_length_le (show rest.length < n by omega)
      refine ⟨by simp [hoptional], fun t r hr => ?_⟩
      rcases hfound : optionally (after (Grammar.padded (char ':')) (unlabeled i)) rest with
        ⟨_ | _, rest'⟩ <;>
        simp only [hfound, Option.map_some, Option.some.injEq, Prod.mk.injEq] at hr hle <;>
        obtain ⟨-, rfl⟩ := hr <;> omega

theorem atom (h : Agree n i j) : Agree (n + 1) (atom i) (atom j) := by
  intro s hs
  have hrules := h.group.orElse (h.collection.orElse h.nominal)
  rw [Grammar.atom, Grammar.atom, ← hrules.eq hs]
  refine ⟨rfl, fun t r hr => ?_⟩
  obtain ⟨⟨u, rest⟩, hu, hr⟩ := Option.map_eq_some_iff.1 hr
  obtain ⟨-, rfl⟩ := Prod.mk.inj hr
  have := hrules.shrinks hs hu
  have := many_length_le optionalMark rest
  omega

theorem composition (h : Agree n i j) : Agree (n + 1) (composition i) (composition j) := by
  intro s hs
  rw [Grammar.composition, Grammar.composition, ← h.atom.eq hs]
  cases hfirst : Grammar.atom i s with
  | none => simp
  | some found =>
      obtain ⟨first, rest⟩ := found
      have hrest := h.atom.shrinks hs hfirst
      have hmore := h.atom.after_padded '&'
      have heq := hmore.many_eq (show rest.length < n + 1 by omega)
      have hle := many_length_le (after (Grammar.padded (char '&')) (Grammar.atom i)) rest
      refine ⟨by simp only [heq], fun t r hr => ?_⟩
      dsimp only at hr
      split at hr
      case h_1 hmany =>
          obtain ⟨-, rfl⟩ := Prod.mk.inj (Option.some.inj hr)
          rw [hmany] at hle
          dsimp only at hle
          omega
      case h_2 hmany =>
          obtain ⟨constituents, -, hr⟩ := Option.map_eq_some_iff.1 hr
          obtain ⟨-, rfl⟩ := Prod.mk.inj hr
          rw [hmany] at hle
          dsimp only at hle
          omega

theorem arrow (h : Agree n i j) : Agree n (arrow i) (arrow j) := by
  intro s hs
  rw [Grammar.arrow, Grammar.arrow]
  have hliteral (cs : List Char) {s r : List Char} {a : Unit}
      (hr : Grammar.padded (literal cs) s = some (a, r)) : r.length ≤ s.length := by
    obtain ⟨⟨_, rest⟩, hread, hr⟩ := Option.map_eq_some_iff.1 hr
    obtain ⟨-, rfl⟩ := Prod.mk.inj hr
    have hskip := skipBlanks_length_le s
    have := skipBlanks_length_le rest
    rw [literal_eq_some hread, List.length_append] at hskip
    omega
  have hthrows := Grammar.optionally_length_le (fun _ _ _ => hliteral "throws".toList) s
  generalize optionally (Grammar.padded (literal "throws".toList)) s = throwsRead at hthrows
  obtain ⟨throwsRead, s₁⟩ := throwsRead
  dsimp only [after] at hthrows ⊢
  cases harrow : Grammar.padded (literal "->".toList) s₁ with
  | none => simp
  | some found =>
      obtain ⟨_, s₂⟩ := found
      have hs₂ := hliteral _ harrow
      have hreturns := h.withDecorations false
      refine ⟨by simp [hreturns.eq (show s₂.length < n by omega)], fun a r hr => ?_⟩
      obtain ⟨⟨returns, rest⟩, hread, hr⟩ := Option.map_eq_some_iff.1 hr
      obtain ⟨-, rfl⟩ := Prod.mk.inj hr
      have := hreturns.shrinks (by omega) hread
      dsimp only
      omega

theorem coreRule (h : Agree n i j) : Agree (n + 1) (coreRule i) (coreRule j) := by
  intro s hs
  rw [Grammar.coreRule, Grammar.coreRule, ← h.composition.eq hs]
  cases hargument : Grammar.composition i s with
  | none => simp
  | some found =>
      obtain ⟨argument, rest⟩ := found
      have hrest := h.composition.shrinks hs hargument
      have heq := h.arrow.optionally_eq (show rest.length < n by omega)
      have hle := h.arrow.optionally_length_le (show rest.length < n by omega)
      refine ⟨by simp [heq], fun t r hr => ?_⟩
      rcases hfound : optionally (Grammar.arrow i) rest with ⟨_ | _, rest'⟩ <;>
        simp only [hfound, Option.map_some, Option.some.injEq, Prod.mk.injEq] at hr hle <;>
        obtain ⟨-, rfl⟩ := hr <;> omega

end SwiftSurface.Parser.Agree

/-! ## The knot -/

namespace SwiftSurface.Grammar

open SwiftSurface.Parser

/-- The parser that `core` recurs through agrees with `core` on shorter texts. -/
theorem core_agree (n : Nat) : Agree n core core := by
  induction n with
  | zero => exact fun s hs => absurd hs (Nat.not_lt_zero _)
  | succ n ih =>
      intro s hs
      refine ⟨rfl, fun t r hr => ?_⟩
      -- the parts of `s` that the rules ask for are shorter, so the guard lets them through
      have hguard : Agree s.length
          (fun part => if part.length < s.length then core part else none) core := by
        intro part hpart
        simp only [hpart, if_true, true_and]
        exact fun t r => ih.shrinks (by omega)
      rw [core] at hr
      exact hguard.coreRule.shrinks (Nat.lt_succ_self _) hr

/-- The grammar equation of `core`. -/
theorem core_eq (s : List Char) : core s = coreRule core s := by
  have hguard : Agree s.length
      (fun part => if part.length < s.length then core part else none) core := by
    intro part hpart
    simp only [hpart, if_true, true_and]
    exact fun t r => (core_agree s.length).shrinks hpart
  rw [core]
  exact hguard.coreRule.eq (Nat.lt_succ_self _)

end SwiftSurface.Grammar
