import SwiftSurface.Parsing

/-!
# Laws of the parsers

Three kinds of facts about the combinators of `SwiftSurface.Parser`:

* the equations of `run`, `many` and `separatedBy`, case by case;
* `Agree n p q`: on texts shorter than `n` the two parsers read the same, and they leave less than
  they were given. It is what ties the knot of a grammar whose rules recur on shorter texts;
* `Yields p P`: every value that `p` reads satisfies `P`.
-/

namespace SwiftSurface.Parser

variable {α β : Type}

/-! ## Equations -/

@[simp] theorem char_cons_self (c : Char) (s : List Char) : char c (c :: s) = some ((), s) := by
  simp [char]

theorem char_cons_of_ne {c d : Char} (h : d ≠ c) (s : List Char) : char c (d :: s) = none := by
  simp [char, h]

theorem char_eq_some {c : Char} {s r : List Char} {a : Unit} (h : char c s = some (a, r)) :
    s = c :: r := by
  cases s with
  | nil => simp [char] at h
  | cons d s =>
      rw [char] at h
      split at h
      case isTrue heq => simp_all
      case isFalse => simp at h

@[simp] theorem literal_append (cs s : List Char) : literal cs (cs ++ s) = some ((), s) := by
  induction cs with
  | nil => rfl
  | cons c cs ih => simp [literal, ih]

theorem literal_eq_some {cs s r : List Char} {a : Unit} (h : literal cs s = some (a, r)) :
    s = cs ++ r := by
  induction cs generalizing s with
  | nil => simpa [literal] using h
  | cons c cs ih =>
      cases s with
      | nil => simp [literal] at h
      | cons d s =>
          rw [literal] at h
          split at h
          case isTrue heq => rw [heq, List.cons_append, ih h]
          case isFalse => simp at h

/-- A run is read to its end. -/
theorem run_append {inClass : Char → Bool} {cs rest : List Char} (hne : cs ≠ [])
    (hall : ∀ c ∈ cs, inClass c) (hrest : ∀ c ∈ rest.head?, ¬ inClass c) :
    run inClass (cs ++ rest) = some (cs, rest) := by
  have htake : (cs ++ rest).takeWhile inClass = cs := by
    rw [List.takeWhile_append_of_pos hall]
    cases rest with
    | nil => simp
    | cons d rest => simp [hrest d rfl]
  have hdrop : (cs ++ rest).dropWhile inClass = rest := by
    rw [List.dropWhile_append_of_pos hall]
    cases rest with
    | nil => rfl
    | cons d rest => simp [hrest d rfl]
  cases cs with
  | nil => exact absurd rfl hne
  | cons c cs => simp only [run, htake, hdrop]

theorem run_all {inClass : Char → Bool} {cs : List Char} (hne : cs ≠ []) (hall : ∀ c ∈ cs, inClass c) :
    run inClass cs = some (cs, []) := by
  have hread : run inClass (cs ++ []) = some (cs, []) := run_append hne hall (by simp)
  rwa [List.append_nil] at hread

theorem run_eq_some {inClass : Char → Bool} {s cs rest : List Char}
    (h : run inClass s = some (cs, rest)) :
    s = cs ++ rest ∧ cs ≠ [] ∧ (∀ c ∈ cs, inClass c) ∧ ∀ c ∈ rest.head?, ¬ inClass c := by
  rw [run] at h
  split at h
  · exact absurd h (by simp)
  case h_2 hne =>
      obtain ⟨rfl, rfl⟩ := Prod.mk.inj (Option.some.inj h)
      refine ⟨List.takeWhile_append_dropWhile.symm, hne, fun c hc => ?_, fun c hc => ?_⟩
      · exact List.all_eq_true.1 List.all_takeWhile c hc
      · have := List.head?_dropWhile_not inClass s
        simp_all

theorem run_of_not {inClass : Char → Bool} {s : List Char} (h : ∀ c ∈ s.head?, ¬ inClass c) :
    run inClass s = none := by
  cases s with
  | nil => rfl
  | cons c s => simp [run, h c rfl]

theorem optionally_of_none {item : Parser α} {s : List Char} (h : item s = none) :
    optionally item s = (none, s) := by
  rw [optionally, h]

theorem optionally_of_some {item : Parser α} {s rest : List Char} {a : α}
    (h : item s = some (a, rest)) : optionally item s = (some a, rest) := by
  rw [optionally, h]

/-- Where nothing is read nothing is taken. -/
theorem optionally_snd_of_none {item : Parser α} {s : List Char}
    (h : (optionally item s).1 = none) : (optionally item s).2 = s := by
  cases hread : item s with
  | none => rw [optionally_of_none hread]
  | some found => simp [optionally_of_some hread] at h

theorem many_of_none {item : Parser α} {s : List Char} (h : item s = none) :
    many item s = ([], s) := by
  rw [many, h]

theorem many_of_some {item : Parser α} {s rest : List Char} {a : α}
    (h : item s = some (a, rest)) (hlt : rest.length < s.length) :
    many item s = (a :: (many item rest).1, (many item rest).2) := by
  rw [many, h]
  simp [hlt]

theorem many_snd_of_nil {item : Parser α} {s : List Char} (h : (many item s).1 = []) :
    (many item s).2 = s := by
  fun_induction many item s with
  | case1 => simp at h
  | case2 => rfl
  | case3 => rfl

theorem many_length_le (item : Parser α) (s : List Char) : (many item s).2.length ≤ s.length := by
  fun_induction many item s with
  | case1 s a rest h hlt more rest' hmore ih =>
      rw [hmore] at ih
      simp only at ih ⊢
      omega
  | case2 => simp
  | case3 => simp

/-- An item that reads something is refused where its repetition ends. -/
theorem many_stops {item : Parser α} (h : ∀ s a r, item s = some (a, r) → r.length < s.length)
    (s : List Char) : item (many item s).2 = none := by
  fun_induction many item s with
  | case1 s a rest hitem hlt more rest' hmore ih => rwa [hmore] at ih
  | case2 s a rest hitem hnot => exact absurd (h s a rest hitem) hnot
  | case3 s hitem => exact hitem

theorem separatedBy_of_none {separator : Char} {item : Parser α} {s : List Char}
    (h : item s = none) : separatedBy separator item s = ([], s) := by
  rw [separatedBy, h]

theorem separatedBy_of_some {separator : Char} {item : Parser α} {s rest : List Char} {a : α}
    (h : item s = some (a, rest)) :
    separatedBy separator item s = (a :: (many (after (char separator) item) rest).1,
      (many (after (char separator) item) rest).2) := by
  rw [separatedBy, h]

/-! ## Agreement on shorter texts -/

/-- On texts shorter than `n` the two parsers read the same and leave less than they were given. -/
def Agree (n : Nat) (p q : Parser α) : Prop :=
  ∀ s, s.length < n → p s = q s ∧ ∀ a r, p s = some (a, r) → r.length < s.length

namespace Agree

variable {n : Nat} {p q : Parser α}

theorem eq (h : Agree n p q) {s : List Char} (hs : s.length < n) : p s = q s :=
  (h s hs).1

theorem shrinks (h : Agree n p q) {s r : List Char} {a : α} (hs : s.length < n)
    (hp : p s = some (a, r)) : r.length < s.length :=
  (h s hs).2 a r hp

/-- What stands after a character is shorter than the whole. -/
theorem after_char (h : Agree n p q) (c : Char) :
    Agree (n + 1) (after (char c) p) (after (char c) q) := by
  intro s hs
  cases hc : char c s with
  | none => simp [after, hc]
  | some found =>
      obtain ⟨_, rest⟩ := found
      obtain rfl := char_eq_some hc
      have hrest : rest.length < n := by simpa using hs
      refine ⟨by simp [after, h.eq hrest], fun a r hr => ?_⟩
      have := h.shrinks hrest (by simpa [after] using hr)
      simp only [List.length_cons]
      omega

theorem orElse {p' q' : Parser α} (h : Agree n p q) (h' : Agree n p' q') :
    Agree n (orElse p p') (orElse q q') := by
  intro s hs
  simp only [Parser.orElse, ← h.eq hs, ← h'.eq hs]
  refine ⟨trivial, fun a r hr => ?_⟩
  split at hr
  case h_1 heq => exact h.shrinks hs (heq.trans hr)
  case h_2 => exact h'.shrinks hs hr

/-- Between two characters stands something shorter than the whole. -/
theorem between (h : Agree n p q) (opening closing : Char) :
    Agree (n + 1) (between opening closing p) (between opening closing q) := by
  intro s hs
  have hafter := h.after_char opening
  simp only [Parser.between, followedBy, ← hafter.eq hs]
  refine ⟨trivial, fun a r hr => ?_⟩
  split at hr
  case h_1 hopen =>
      obtain ⟨⟨_, rest⟩, hclose, hr⟩ := Option.map_eq_some_iff.1 hr
      obtain ⟨-, rfl⟩ := Prod.mk.inj hr
      have hlt := hafter.shrinks hs hopen
      rw [char_eq_some hclose, List.length_cons] at hlt
      dsimp only
      omega
  case h_2 => exact absurd hr (by simp)

theorem optionally_eq (h : Agree n p q) {s : List Char} (hs : s.length < n) :
    optionally p s = optionally q s := by
  simp only [optionally, h.eq hs]

theorem optionally_length_le (h : Agree n p q) {s : List Char} (hs : s.length < n) :
    (optionally p s).2.length ≤ s.length := by
  rw [optionally]
  split
  case h_1 heq => exact Nat.le_of_lt (h.shrinks hs heq)
  case h_2 => simp

theorem many_eq (h : Agree n p q) {s : List Char} (hs : s.length < n) : many p s = many q s := by
  fun_induction many p s with
  | case1 s a rest hp hlt more rest' hmore ih =>
      rw [many_of_some ((h.eq hs).symm.trans hp) hlt, ← ih (by omega), hmore]
  | case2 s a rest hp hnot =>
      -- an item that reads nothing would end the repetition
      exact absurd (h.shrinks hs hp) hnot
  | case3 s hp => rw [many_of_none ((h.eq hs).symm.trans hp)]

theorem separatedBy_eq (h : Agree n p q) (c : Char) {s : List Char} (hs : s.length < n) :
    separatedBy c p s = separatedBy c q s := by
  rw [separatedBy, separatedBy, h.eq hs]
  cases hq : q s with
  | none => rfl
  | some found =>
      obtain ⟨a, rest⟩ := found
      have hrest := h.shrinks hs ((h.eq hs).trans hq)
      simp only [(h.after_char c).many_eq (show rest.length < n + 1 by omega)]

theorem separatedBy_length_le (h : Agree n p q) (c : Char) {s : List Char} (hs : s.length < n) :
    (separatedBy c p s).2.length ≤ s.length := by
  cases hp : p s with
  | none => simp [separatedBy_of_none hp]
  | some found =>
      obtain ⟨a, rest⟩ := found
      rw [separatedBy_of_some hp]
      exact Nat.le_trans (many_length_le (after (char c) p) rest) (Nat.le_of_lt (h.shrinks hs hp))

end Agree

/-! ## What is read -/

/-- Every value that `p` reads satisfies `P`. -/
def Yields (p : Parser α) (P : α → Prop) : Prop :=
  ∀ s a r, p s = some (a, r) → P a

namespace Yields

variable {p q : Parser α} {P Q : α → Prop}

theorem imp (h : Yields p P) (hPQ : ∀ a, P a → Q a) : Yields p Q :=
  fun s a r hp => hPQ a (h s a r hp)

theorem after (h : Yields q P) (first : Parser β) : Yields (after first q) P := by
  intro s a r hr
  rw [Parser.after] at hr
  split at hr
  · exact h _ a r hr
  · exact absurd hr (by simp)

theorem followedBy (h : Yields p P) (second : Parser β) : Yields (followedBy p second) P := by
  intro s a r hr
  rw [Parser.followedBy] at hr
  split at hr
  case h_1 heq =>
      obtain ⟨⟨_, _⟩, -, hr⟩ := Option.map_eq_some_iff.1 hr
      obtain ⟨rfl, -⟩ := Prod.mk.inj hr
      exact h _ _ _ heq
  case h_2 => exact absurd hr (by simp)

theorem between (h : Yields p P) (opening closing : Char) :
    Yields (between opening closing p) P :=
  (h.after (char opening)).followedBy (char closing)

theorem orElse (h : Yields p P) (h' : Yields q P) : Yields (orElse p q) P := by
  intro s a r hr
  rw [Parser.orElse] at hr
  split at hr
  case h_1 heq => exact h _ _ _ (heq.trans hr)
  case h_2 => exact h' _ _ _ hr

theorem optionally (h : Yields p P) {s : List Char} {a : α}
    (ha : (optionally p s).1 = some a) : P a := by
  rw [Parser.optionally] at ha
  split at ha
  case h_1 heq =>
      obtain rfl := Option.some.inj ha
      exact h _ _ _ heq
  case h_2 => exact absurd ha (by simp)

theorem many (h : Yields p P) (s : List Char) : ∀ a ∈ (many p s).1, P a := by
  fun_induction Parser.many p s with
  | case1 s a rest hp hlt more rest' hmore ih =>
      rw [hmore] at ih
      intro b hb
      rcases List.mem_cons.1 hb with rfl | hb
      · exact h _ _ _ hp
      · exact ih b hb
  | case2 => simp
  | case3 => simp

theorem separatedBy (h : Yields p P) (c : Char) (s : List Char) :
    ∀ a ∈ (separatedBy c p s).1, P a := by
  cases hp : p s with
  | none => simp [separatedBy_of_none hp]
  | some found =>
      obtain ⟨a, rest⟩ := found
      rw [separatedBy_of_some hp]
      intro b hb
      rcases List.mem_cons.1 hb with rfl | hb
      · exact h _ _ _ hp
      · exact (h.after (char c)).many rest b hb

/-- The parser of a whole list, which accepts every text. -/
theorem some_separatedBy (h : Yields p P) (c : Char) :
    Yields (fun s => some (Parser.separatedBy c p s)) fun read => ∀ a ∈ read, P a := by
  intro s read r hr
  have hlist := h.separatedBy c s
  rw [Option.some.inj hr] at hlist
  exact hlist

end Yields

end SwiftSurface.Parser
