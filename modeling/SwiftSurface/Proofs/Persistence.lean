import SwiftSurface.Proofs.Parsing

/-!
# Reading on in a longer text

A parser may look past what it reads, so it need not read the same when more text follows.
`Persists more stuck p q` says that `q` does read with `more` behind the text what `p` reads without
it, unless `p` stops where `stuck` holds. Where a rule stops because its last part is cut off,
`stuck` names what is left of the part; a rule around it that takes no such rest then never gets
there, and the exception goes away (`Persists.followedBy`, `Persists.between`).

The two parsers differ so that `p` may be a parser of shorter texts only.
-/

namespace SwiftSurface.Parser

variable {α β γ : Type} {more : List Char} {stuck stuck' : List Char → Prop}

/-- What `p` reads, `q` reads with `more` behind the text, and leaves `more` behind the rest, unless
the rest is `stuck`. The rest is an end of the text. -/
def Persists (more : List Char) (stuck : List Char → Prop) (p q : Parser α) : Prop :=
  ∀ s a r, p s = some (a, r) → r <:+ s ∧ (q (s ++ more) = some (a, r ++ more) ∨ stuck r)

/-- `Persists` for what accepts every text. -/
def PersistsAll (more : List Char) (stuck : List Char → Prop)
    (g g' : List Char → α × List Char) : Prop :=
  ∀ s, (g s).2 <:+ s ∧ (g' (s ++ more) = ((g s).1, (g s).2 ++ more) ∨ stuck (g s).2)

/-- No rest is an exception. -/
abbrev never : List Char → Prop := fun _ => False

theorem PersistsAll.parser {g g' : List Char → α × List Char} (h : PersistsAll more stuck g g') :
    Persists more stuck (fun s => some (g s)) (fun s => some (g' s)) := by
  intro s a r hr
  have hg : g s = (a, r) := Option.some.inj hr
  obtain ⟨hsuffix, hread⟩ := h s
  rw [hg] at hsuffix hread
  exact ⟨hsuffix, hread.imp_left (congrArg some)⟩

/-- What begins no run begins none with something else behind it. -/
theorem run_append_of_none {inClass : Char → Bool} {s : List Char}
    (hmore : ∀ c ∈ more.head?, ¬ inClass c) (h : run inClass s = none) :
    run inClass (s ++ more) = none := by
  cases s with
  | nil => exact run_of_not hmore
  | cons c s =>
      cases hc : inClass c with
      | false => exact run_of_not (by simp [hc])
      | true => simp [run, hc] at h

theorem literal_cons (c : Char) (cs : List Char) :
    literal (c :: cs) = after (char c) (literal cs) := by
  funext s
  cases s with
  | nil => rfl
  | cons d s => by_cases hd : d = c <;> simp [literal, after, char, hd]

theorem followedBy_of_some {p : Parser α} {q : Parser β} {s r : List Char} {a : α}
    (h : p s = some (a, r)) : followedBy p q s = (q r).map fun (_, rest) => (a, rest) := by
  rw [followedBy, h]

theorem followedBy_eq_some {p : Parser α} {q : Parser β} {s r : List Char} {a : α}
    (h : followedBy p q s = some (a, r)) :
    ∃ rest b, p s = some (a, rest) ∧ q rest = some (b, r) := by
  rw [followedBy] at h
  split at h
  case h_1 hp =>
      obtain ⟨⟨b, r⟩, hq, h⟩ := Option.map_eq_some_iff.1 h
      obtain ⟨rfl, rfl⟩ := Prod.mk.inj h
      exact ⟨_, b, hp, hq⟩
  case h_2 => exact absurd h (by simp)

theorem orElse_eq_none {p q : Parser α} {s : List Char} :
    orElse p q s = none ↔ p s = none ∧ q s = none := by
  rw [orElse]
  cases p s <;> simp

theorem orElse_eq_some {p q : Parser α} {s : List Char} {found : α × List Char}
    (h : orElse p q s = some found) : p s = some found ∨ q s = some found := by
  rw [orElse] at h
  split at h
  case h_1 hp => exact .inl (hp.trans h)
  case h_2 => exact .inr h

theorem PersistsAll.of_never {g g' : List Char → α × List Char} (h : PersistsAll more never g g')
    (stuck : List Char → Prop) : PersistsAll more stuck g g' :=
  fun s => ⟨(h s).1, (h s).2.imp_right False.elim⟩

namespace Persists

variable {p q p' q' : Parser α}

theorem imp (h : Persists more stuck p q) (himp : ∀ r, stuck r → stuck' r) :
    Persists more stuck' p q := by
  intro s a r hr
  obtain ⟨hsuffix, hread⟩ := h s a r hr
  exact ⟨hsuffix, hread.imp_right (himp r)⟩

/-- A parser that is never stuck. -/
theorem of_never (h : Persists more never p q) (stuck : List Char → Prop) :
    Persists more stuck p q :=
  h.imp fun _ => False.elim

/-- What reads less persists as well. -/
theorem restrict (h : Persists more stuck p q)
    (hsub : ∀ s a r, p' s = some (a, r) → p s = some (a, r)) : Persists more stuck p' q :=
  fun s a r hr => h s a r (hsub s a r hr)

theorem map (f : α → β) (h : Persists more stuck p q) :
    Persists more stuck (fun s => (p s).map fun (a, r) => (f a, r))
      (fun s => (q s).map fun (a, r) => (f a, r)) := by
  intro s b r hr
  obtain ⟨⟨a, r⟩, ha, hr⟩ := Option.map_eq_some_iff.1 hr
  obtain ⟨rfl, rfl⟩ := Prod.mk.inj hr
  obtain ⟨hsuffix, hread⟩ := h s a r ha
  exact ⟨hsuffix, hread.imp_left fun hq => by simp [hq]⟩

theorem filterMap (f : α → Option β) (h : Persists more stuck p q) :
    Persists more stuck (fun s => (p s).bind fun (a, r) => (f a).map fun b => (b, r))
      (fun s => (q s).bind fun (a, r) => (f a).map fun b => (b, r)) := by
  intro s b r hr
  obtain ⟨⟨a, r⟩, ha, hr⟩ := Option.bind_eq_some_iff.1 hr
  obtain ⟨b, hb, hr⟩ := Option.map_eq_some_iff.1 hr
  obtain ⟨rfl, rfl⟩ := Prod.mk.inj hr
  obtain ⟨hsuffix, hread⟩ := h s a r ha
  exact ⟨hsuffix, hread.imp_left fun hq => by simp [hq, hb]⟩

/-! ## Words -/

theorem char (more : List Char) (c : Char) : Persists more never (char c) (char c) := by
  intro s a r hr
  obtain rfl := char_eq_some hr
  exact ⟨List.suffix_cons c r, .inl (char_cons_self c (r ++ more))⟩

theorem literal (more cs : List Char) : Persists more never (literal cs) (literal cs) := by
  intro s a r hr
  obtain rfl := literal_eq_some hr
  refine ⟨List.suffix_append cs r, .inl ?_⟩
  rw [List.append_assoc, literal_append]

/-- A run may go on in `more` if it reaches the end of the text. -/
theorem run (more : List Char) (inClass : Char → Bool) :
    Persists more (fun r => r = [] ∧ ∃ c ∈ more.head?, inClass c) (run inClass) (run inClass) := by
  intro s cs r hr
  obtain ⟨rfl, hne, hall, hstop⟩ := run_eq_some hr
  refine ⟨List.suffix_append cs r, ?_⟩
  rw [List.append_assoc]
  cases r with
  | nil =>
      by_cases hmore : ∃ c ∈ more.head?, inClass c
      · exact .inr ⟨rfl, hmore⟩
      · exact .inl (run_append hne hall fun c hc hin => hmore ⟨c, hc, hin⟩)
  | cons d r => exact .inl (run_append hne hall hstop)

/-! ## Combinators -/

theorem after {first first' : Parser β} (hfirst : Persists more never first first')
    (h : Persists more stuck p q) : Persists more stuck (after first p) (after first' q) := by
  intro s a r hr
  rw [Parser.after] at hr
  split at hr
  case h_1 b s' hs' =>
      obtain ⟨hsuffix', hfirst⟩ := hfirst s b s' hs'
      obtain ⟨hsuffix, hread⟩ := h s' a r hr
      have hfirst := hfirst.resolve_right id
      exact ⟨hsuffix.trans hsuffix', hread.imp_left fun hq => by simp [Parser.after, hfirst, hq]⟩
  case h_2 => exact absurd hr (by simp)

/-- Where `p` is stuck nothing follows. -/
theorem followedBy {second second' : Parser β} (h : Persists more stuck p q)
    (hsecond : Persists more never second second') (hstuck : ∀ r, stuck r → second r = none) :
    Persists more never (followedBy p second) (followedBy q second') := by
  intro s a r hr
  obtain ⟨s', b, hs', hr'⟩ := followedBy_eq_some hr
  obtain ⟨hsuffix', hread⟩ := h s a s' hs'
  obtain ⟨hsuffix, hsecond⟩ := hsecond s' b r hr'
  refine ⟨hsuffix.trans hsuffix', .inl ?_⟩
  rcases hread with hread | hs
  · rw [followedBy_of_some hread, hsecond.resolve_right id, Option.map_some]
  · simp [hstuck s' hs] at hr'

theorem between {opening closing : Char}
    (h : Persists more (fun r => Parser.char closing r = none) p q) :
    Persists more never (between opening closing p) (between opening closing q) :=
  ((char more opening).after h).followedBy (char more closing) fun _ => id

/-- The first choice is refused with `more` behind the text wherever the second one is taken. -/
theorem orElse (h : Persists more stuck p q) (h' : Persists more stuck p' q')
    (hother : ∀ s found, p' s = some found → q (s ++ more) = none) :
    Persists more stuck (orElse p p') (orElse q q') := by
  intro s a r hr
  rw [Parser.orElse] at hr
  split at hr
  case h_1 hp =>
      obtain ⟨hsuffix, hread⟩ := h s a r (hp.trans hr)
      exact ⟨hsuffix, hread.imp_left fun hq => by simp [Parser.orElse, hq]⟩
  case h_2 =>
      obtain ⟨hsuffix, hread⟩ := h' s a r hr
      exact ⟨hsuffix, hread.imp_left fun hq => by simp [Parser.orElse, hother s _ hr, hq]⟩

theorem optionally (h : Persists more stuck p q)
    (hnone : ∀ r, p r = none → q (r ++ more) = none ∨ stuck r) :
    PersistsAll more stuck (optionally p) (optionally q) := by
  intro s
  cases hp : p s with
  | none =>
      have hread : Parser.optionally p s = (none, s) := by simp [Parser.optionally, hp]
      rw [hread]
      exact ⟨List.suffix_rfl, (hnone s hp).imp_left fun hq => by simp [Parser.optionally, hq]⟩
  | some found =>
      obtain ⟨a, r⟩ := found
      have hread : Parser.optionally p s = (some a, r) := by simp [Parser.optionally, hp]
      obtain ⟨hsuffix, hq⟩ := h s a r hp
      rw [hread]
      exact ⟨hsuffix, hq.imp_left fun hq => by simp [Parser.optionally, hq]⟩

/-- A repetition whose item is refused where it is stuck. -/
theorem many {stuckItem : List Char → Prop} (h : Persists more stuckItem p q)
    (hstuck : ∀ r, stuckItem r → p r = none ∧ stuck r)
    (hnone : ∀ r, p r = none → q (r ++ more) = none ∨ stuck r) :
    PersistsAll more stuck (many p) (many q) := by
  intro s
  fun_induction Parser.many p s with
  | case1 s a rest hp hlt read rest' hmany ih =>
      obtain ⟨hsuffix, hread⟩ := h s a rest hp
      rw [hmany] at ih
      refine ⟨ih.1.trans hsuffix, ?_⟩
      rcases hread with hread | hs
      · refine ih.2.imp_left fun hq => ?_
        rw [many_of_some hread (by simp only [List.length_append]; omega), hq]
      · -- the repetition ends where its item is stuck
        obtain ⟨hend, hs⟩ := hstuck rest hs
        rw [many_of_none hend] at hmany
        obtain ⟨-, rfl⟩ := Prod.mk.inj hmany
        exact .inr hs
  | case2 s a rest hp hnot =>
      obtain ⟨hsuffix, hread⟩ := h s a rest hp
      obtain rfl := hsuffix.eq_of_length_le (by omega)
      refine ⟨List.suffix_rfl, ?_⟩
      rcases hread with hread | hs
      · left
        rw [Parser.many, hread]
        simp
      · exact .inr (hstuck rest hs).2
  | case3 s hp => exact ⟨List.suffix_rfl, (hnone s hp).imp_left many_of_none⟩

theorem separatedBy {stuckItem : List Char → Prop} {separator : Char}
    (h : Persists more stuckItem p q)
    (hstuck : ∀ r, stuckItem r → Parser.char separator r = none ∧ stuck r)
    (hnone : ∀ r, p r = none → q (r ++ more) = none ∨ stuck r)
    (hlast : ∀ r, Parser.after (Parser.char separator) p r = none →
      Parser.after (Parser.char separator) q (r ++ more) = none ∨ stuck r) :
    PersistsAll more stuck (separatedBy separator p) (separatedBy separator q) := by
  have hend (r : List Char) (hr : stuckItem r) :
      Parser.after (Parser.char separator) p r = none ∧ stuck r := by
    obtain ⟨hchar, hr⟩ := hstuck r hr
    exact ⟨by simp [Parser.after, hchar], hr⟩
  have hmany := ((char more separator).after h).many hend hlast
  intro s
  cases hp : p s with
  | none =>
      rw [separatedBy_of_none hp]
      exact ⟨List.suffix_rfl, (hnone s hp).imp_left separatedBy_of_none⟩
  | some found =>
      obtain ⟨a, r⟩ := found
      obtain ⟨hsuffix, hread⟩ := h s a r hp
      obtain ⟨hsuffix', hmany⟩ := hmany r
      rw [separatedBy_of_some hp]
      refine ⟨hsuffix'.trans hsuffix, ?_⟩
      rcases hread with hread | hs
      · refine hmany.imp_left fun hq => ?_
        rw [separatedBy_of_some hread, hq]
      · obtain ⟨hnext, hs⟩ := hend r hs
        rw [many_of_none hnext]
        exact .inr hs

/-- A list in front of the mark that closes it, which begins no item. -/
theorem separatedBy_closed {stuckItem : List Char → Prop} {separator closing : Char}
    (hne : closing ≠ separator) (h : Persists more stuckItem p q)
    (hstuck : ∀ r, stuckItem r →
      Parser.char separator r = none ∧ Parser.char closing r = none)
    (hclosing : ∀ r, q (closing :: r) = none) :
    PersistsAll more (fun r => Parser.char closing r = none) (Parser.separatedBy separator p)
      (Parser.separatedBy separator q) := by
  have hcases (r : List Char) : (∃ s, r = closing :: s) ∨ Parser.char closing r = none := by
    cases r with
    | nil => exact .inr rfl
    | cons d r =>
        by_cases hd : d = closing
        · exact .inl ⟨r, by rw [hd]⟩
        · exact .inr (char_cons_of_ne hd r)
  refine h.separatedBy hstuck (fun r _ => (hcases r).imp_left ?_) fun r _ => (hcases r).imp_left ?_
  · rintro ⟨s, rfl⟩
    exact hclosing (s ++ more)
  · rintro ⟨s, rfl⟩
    simp [Parser.after, char_cons_of_ne hne]

/-- A parser and, behind it, what accepts every text. -/
theorem andThen (f : α → β → γ) {g g' : List Char → β × List Char} (h : Persists more stuck' p q)
    (hg : PersistsAll more stuck g g') (hstuck : ∀ r, stuck' r → stuck (g r).2) :
    Persists more stuck (fun s => (p s).map fun (a, r) => (f a (g r).1, (g r).2))
      (fun s => (q s).map fun (a, r) => (f a (g' r).1, (g' r).2)) := by
  intro s c r hr
  obtain ⟨⟨a, s'⟩, ha, hr⟩ := Option.map_eq_some_iff.1 hr
  obtain ⟨rfl, rfl⟩ := Prod.mk.inj hr
  obtain ⟨hsuffix', hread⟩ := h s a s' ha
  obtain ⟨hsuffix, hrest⟩ := hg s'
  refine ⟨hsuffix.trans hsuffix', ?_⟩
  rcases hread with hread | hs
  · exact hrest.imp_left fun hq => by simp [hread, hq]
  · exact .inr (hstuck s' hs)

end Persists

/-- What accepts every text and, behind it, a parser that refuses where the first is stuck. -/
theorem PersistsAll.andThen {p q : Parser β} (f : α → β → γ) {g g' : List Char → α × List Char}
    (hg : PersistsAll more stuck' g g') (h : Persists more stuck p q)
    (hstuck : ∀ r, stuck' r → p r = none) :
    Persists more stuck (fun s => (p (g s).2).map fun (b, r) => (f (g s).1 b, r))
      (fun s => (q (g' s).2).map fun (b, r) => (f (g' s).1 b, r)) := by
  intro s c r hr
  obtain ⟨⟨b, r⟩, hb, hr⟩ := Option.map_eq_some_iff.1 hr
  obtain ⟨rfl, rfl⟩ := Prod.mk.inj hr
  obtain ⟨hsuffix', hrest⟩ := hg s
  obtain ⟨hsuffix, hread⟩ := h _ b r hb
  refine ⟨hsuffix.trans hsuffix', ?_⟩
  rcases hrest with hrest | hs
  · exact hread.imp_left fun hq => by simp [hrest, hq]
  · simp [hstuck _ hs] at hb

end SwiftSurface.Parser
