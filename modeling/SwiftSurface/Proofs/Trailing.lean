import SwiftSurface.Proofs.Persistence

/-!
# Reading with something ignored behind the text

`Ignores v stuck n p` says of texts shorter than `n` that `p` reads them with `v` behind them as
without it: it refuses both, or it gives the same value and leaves the same rest, but for `v`. If it
does neither, then whatever it leaves is `stuck` both times, so that a rule that goes on from there
refuses both texts after all.

Two texts that have come to their end count as alike too: one of them may have been cut off behind a
part that skips `v`.
-/

namespace SwiftSurface.Parser

variable {α β : Type} {v s s' r r' : List Char} {stuck stuck' : List Char → Prop} {n m : Nat}

/-! ## Alike texts and readings -/

/-- The second text is the first one with `v` behind it, or both have come to their end. -/
def Trailed (v s s' : List Char) : Prop :=
  s' = s ++ v ∨ s = [] ∧ s' = []

/-- Both readings give the same value and rests that are alike, or the rests are stuck. -/
def Alike (v : List Char) (stuck : List Char → Prop) (s : List Char)
    (x y : Option (α × List Char)) : Prop :=
  (∃ a r r', x = some (a, r) ∧ y = some (a, r') ∧ Trailed v r r' ∧ r <:+ s) ∨
    (∀ found ∈ x, stuck found.2) ∧ ∀ found ∈ y, stuck found.2

/-- Texts shorter than `n` are read alike with `v` behind them. -/
def Ignores (v : List Char) (stuck : List Char → Prop) (n : Nat) (p : Parser α) : Prop :=
  ∀ s s', s.length < n → Trailed v s s' → Alike v stuck s (p s) (p s')

theorem Trailed.append (v s : List Char) : Trailed v s (s ++ v) :=
  .inl rfl

theorem Trailed.eq_append (h : Trailed v s s') (hne : s ≠ []) : s' = s ++ v :=
  h.resolve_right fun hnil => hne hnil.1

theorem Alike.suffix {x y : Option (α × List Char)} (h : Alike v stuck r x y) (hr : r <:+ s) :
    Alike v stuck s x y := by
  rcases h with ⟨a, u, u', hx, hy, hrest, hsuffix⟩ | hstuck
  · exact .inl ⟨a, u, u', hx, hy, hrest, hsuffix.trans hr⟩
  · exact .inr hstuck

theorem Alike.imp {x y : Option (α × List Char)} (h : Alike v stuck s x y)
    (himp : ∀ r, stuck r → stuck' r) : Alike v stuck' s x y :=
  h.imp_right fun ⟨hx, hy⟩ => ⟨fun found hfound => himp _ (hx found hfound),
    fun found hfound => himp _ (hy found hfound)⟩

/-- What is never stuck is read both times or refused both times. -/
theorem Alike.of_never {x y : Option (α × List Char)} (h : Alike v never s x y) :
    (∃ a r r', x = some (a, r) ∧ y = some (a, r') ∧ Trailed v r r' ∧ r <:+ s) ∨
      x = none ∧ y = none :=
  h.imp_right fun ⟨hx, hy⟩ => ⟨Option.eq_none_iff_forall_not_mem.2 hx,
    Option.eq_none_iff_forall_not_mem.2 hy⟩

/-- What accepts every text reads the same both times. -/
theorem Alike.of_some {x y : α × List Char} (h : Alike v never s (some x) (some y)) :
    ∃ a r r', x = (a, r) ∧ y = (a, r') ∧ Trailed v r r' ∧ r <:+ s := by
  rcases h.of_never with ⟨a, r, r', hx, hy, hrest⟩ | ⟨hnone, -⟩
  · exact ⟨a, r, r', Option.some.inj hx, Option.some.inj hy, hrest⟩
  · exact absurd hnone (by simp)

theorem alike_none (v : List Char) (stuck : List Char → Prop) (s : List Char) :
    Alike v stuck s (none : Option (α × List Char)) none :=
  .inr ⟨by simp, by simp⟩

/-- What goes on from a reading: it is given alike rests, and it leaves stuck rests stuck. -/
theorem Alike.bind {x y : Option (α × List Char)} {k : α → Parser β} (h : Alike v stuck' s x y)
    (hk : ∀ a r r', x = some (a, r) → r <:+ s → Trailed v r r' →
      Alike v stuck r (k a r) (k a r'))
    (hstuck : ∀ a r, stuck' r → ∀ found ∈ k a r, stuck found.2) :
    Alike v stuck s (x.bind fun found => k found.1 found.2)
      (y.bind fun found => k found.1 found.2) := by
  rcases h with ⟨a, r, r', rfl, rfl, hrest, hsuffix⟩ | ⟨hx, hy⟩
  · exact (hk a r r' rfl hsuffix hrest).suffix hsuffix
  · refine .inr ⟨fun found hfound => ?_, fun found hfound => ?_⟩
    · obtain ⟨before, hbefore, hfound⟩ := Option.bind_eq_some_iff.1 hfound
      exact hstuck _ _ (hx before hbefore) found hfound
    · obtain ⟨before, hbefore, hfound⟩ := Option.bind_eq_some_iff.1 hfound
      exact hstuck _ _ (hy before hbefore) found hfound

theorem forall_rest_map {x : Option (α × List Char)} {f : α × List Char → β × List Char}
    (h : ∀ found ∈ x, stuck found.2) (hf : ∀ found, stuck found.2 → stuck' (f found).2) :
    ∀ found ∈ x.map f, stuck' found.2 := by
  intro found hfound
  obtain ⟨before, hbefore, rfl⟩ := Option.map_eq_some_iff.1 hfound
  exact hf before (h before hbefore)

theorem Alike.map {x y : Option (α × List Char)} (f : α → β) (h : Alike v stuck s x y) :
    Alike v stuck s (x.map fun (a, r) => (f a, r)) (y.map fun (a, r) => (f a, r)) := by
  rcases h with ⟨a, r, r', rfl, rfl, hrest⟩ | ⟨hx, hy⟩
  · exact .inl ⟨f a, r, r', rfl, rfl, hrest⟩
  · exact .inr ⟨forall_rest_map hx fun _ => id, forall_rest_map hy fun _ => id⟩

theorem Alike.some_of_trailed (a : α) (h : Trailed v s s') (stuck : List Char → Prop) :
    Alike v stuck s (some (a, s)) (some (a, s')) :=
  .inl ⟨a, s, s', rfl, rfl, h, List.suffix_rfl⟩

/-- What goes on from a reading, or gives `b` where nothing is read. If only one of the texts is
read, then both begin with such a part. -/
theorem Alike.elim (stuck : List Char → Prop) {x y : Option (α × List Char)}
    {k : α → List Char → β × List Char} {b : β}
    (h : Alike v stuck' s x y) (ht : Trailed v s s') (hsame : stuck s ↔ stuck s')
    (hbegins : ∀ a r, x = some (a, r) → stuck' r → stuck s)
    (hbegins' : ∀ a r, y = some (a, r) → stuck' r → stuck s')
    (hk : ∀ a r r', x = some (a, r) → r <:+ s → Trailed v r r' →
      Alike v stuck r (some (k a r)) (some (k a r')))
    (hstuck : ∀ a r, stuck' r → stuck (k a r).2) :
    Alike v stuck s (some (x.elim (b, s) fun found => k found.1 found.2))
      (some (y.elim (b, s') fun found => k found.1 found.2)) := by
  rcases h with ⟨a, r, r', rfl, rfl, hrest, hsuffix⟩ | ⟨hx, hy⟩
  · exact (hk a r r' rfl hsuffix hrest).suffix hsuffix
  · cases x with
    | none =>
        cases y with
        | none => exact .some_of_trailed b ht stuck
        | some found =>
            have hs' := hbegins' _ _ rfl (hy found rfl)
            refine .inr ⟨by simpa using hsame.2 hs', ?_⟩
            simpa using hstuck found.1 found.2 (hy found rfl)
    | some found =>
        have hleft := hstuck found.1 found.2 (hx found rfl)
        cases y with
        | none =>
            have hs := hbegins _ _ rfl (hx found rfl)
            exact .inr ⟨by simpa using hleft, by simpa using hsame.1 hs⟩
        | some found' =>
            have hleft' := hstuck found'.1 found'.2 (hy found' rfl)
            exact .inr ⟨by simpa using hleft, by simpa using hleft'⟩

/-! ## Sequences as they go on from a reading -/

theorem after_eq_bind (first : Parser β) (p : Parser α) :
    after first p = fun s => (first s).bind fun found => p found.2 := by
  funext s
  rw [after]
  cases first s <;> rfl

theorem followedBy_eq_bind (p : Parser α) (second : Parser β) :
    followedBy p second =
      fun s => (p s).bind fun found => (second found.2).map fun (_, r) => (found.1, r) := by
  funext s
  rw [followedBy]
  cases p s <;> rfl

theorem after_char_eq_some {c : Char} {p : Parser α} {a : α}
    (h : after (char c) p s = some (a, r)) : ∃ t, s = c :: t ∧ p t = some (a, r) := by
  rw [after_eq_bind] at h
  obtain ⟨found, hfound, hread⟩ := Option.bind_eq_some_iff.1 h
  exact ⟨found.2, char_eq_some hfound, hread⟩

namespace Ignores

variable {p q : Parser α}

theorem mono (h : Ignores v stuck m p) (hle : n ≤ m) : Ignores v stuck n p :=
  fun s s' hs ht => h s s' (by omega) ht

/-- What is read leaves an end of the text. -/
theorem suffix (h : Ignores v never n p) {a : α} (hs : s.length < n) (hr : p s = some (a, r)) :
    r <:+ s := by
  rcases (h s (s ++ v) hs (.append v s)).of_never with ⟨b, u, u', hread, -, -, hu⟩ | ⟨hnone, -⟩
  · obtain ⟨-, rfl⟩ := Prod.mk.inj (Option.some.inj (hread.symm.trans hr))
    exact hu
  · exact absurd (hnone.symm.trans hr) (by simp)

/-! ## Sequences -/

theorem map (f : α → β) (h : Ignores v stuck n p) :
    Ignores v stuck n fun s => (p s).map fun (a, r) => (f a, r) :=
  fun s s' hs ht => (h s s' hs ht).map f

theorem filterMap (f : α → Option β) (h : Ignores v stuck n p) :
    Ignores v stuck n fun s => (p s).bind fun (a, r) => (f a).map fun b => (b, r) := by
  intro s s' hs ht
  refine (h s s' hs ht).bind (k := fun a r => (f a).map fun b => (b, r))
    (fun a r r' _ _ hrest => ?_) fun a r hr found hfound => ?_
  · cases f a with
    | none => exact alike_none v stuck r
    | some b => exact .some_of_trailed b hrest stuck
  · obtain ⟨b, -, rfl⟩ := Option.map_eq_some_iff.1 hfound
    exact hr

/-- What stands after something is shorter than the whole. -/
theorem after {first : Parser β} (hfirst : Ignores v never (n + 1) first)
    (hshrinks : ∀ s b r, first s = some (b, r) → r.length < s.length) (h : Ignores v stuck n p) :
    Ignores v stuck (n + 1) (after first p) := by
  intro s s' hs ht
  rw [after_eq_bind]
  refine (hfirst s s' hs ht).bind (k := fun _ => p) (fun b r r' hr _ hrest => ?_)
    fun _ _ => False.elim
  have hlt := hshrinks s b r hr
  exact h r r' (by omega) hrest

theorem followedBy {second : Parser β} (h : Ignores v stuck n p)
    (hsecond : Ignores v never n second) (hstuck : ∀ r, stuck r → second r = none) :
    Ignores v never n (followedBy p second) := by
  intro s s' hs ht
  rw [followedBy_eq_bind]
  refine (h s s' hs ht).bind (k := fun a r => (second r).map fun (_, r) => (a, r))
    (fun a r r' _ hsuffix hrest => ?_) fun a r hr => by simp [hstuck r hr]
  have hle := hsuffix.length_le
  rcases (hsecond r r' (by omega) hrest).of_never with ⟨b, u, u', hu, hu', halike⟩ | ⟨hu, hu'⟩
  · exact .inl ⟨a, u, u', by simp [hu], by simp [hu'], halike⟩
  · simpa [hu, hu'] using alike_none v never r

/-- A parser and, behind it, what accepts every text. -/
theorem andThen {γ : Type} (f : α → β → γ) {g : List Char → β × List Char}
    (h : Ignores v stuck' n p) (hg : Ignores v stuck n fun s => some (g s))
    (hstuck : ∀ r, stuck' r → stuck (g r).2) :
    Ignores v stuck n fun s => (p s).map fun (a, r) => (f a (g r).1, (g r).2) := by
  intro s s' hs ht
  have hstuck (a : α) (r : List Char) (hr : stuck' r) :
      ∀ found ∈ some (f a (g r).1, (g r).2), stuck found.2 := by
    simpa using hstuck r hr
  have hseq := (h s s' hs ht).bind (k := fun a r => some (f a (g r).1, (g r).2))
    (fun a r r' _ hsuffix hrest => ?_) hstuck
  · simpa [Option.map_eq_bind, Function.comp_def] using hseq
  · have hle := hsuffix.length_le
    exact hg.map (f a) r r' (by omega) hrest

theorem orElse (h : Ignores v never n p) (h' : Ignores v never n q) :
    Ignores v never n (orElse p q) := by
  intro s s' hs ht
  simp only [Parser.orElse]
  rcases (h s s' hs ht).of_never with ⟨a, r, r', hp, hp', hrest⟩ | ⟨hp, hp'⟩
  · rw [hp, hp']
    exact .inl ⟨a, r, r', rfl, rfl, hrest⟩
  · rw [hp, hp']
    exact h' s s' hs ht

/-! ## Words -/

theorem char {c : Char} (hc : c ∉ v) (n : Nat) : Ignores v never n (char c) := by
  intro s s' _ ht
  have hv : Parser.char c v = none := by
    cases v with
    | nil => rfl
    | cons d v => exact char_cons_of_ne (fun heq => hc (by simp [heq])) v
  cases s with
  | nil =>
      have hs' : Parser.char c s' = none := by
        rcases ht with rfl | ⟨-, rfl⟩
        · simpa using hv
        · rfl
      rw [hs']
      exact alike_none v never []
  | cons d s =>
      obtain rfl := ht.eq_append (by simp)
      by_cases hd : d = c
      · subst hd
        exact .inl ⟨(), s, s ++ v, by simp, by simp, .append v s, List.suffix_cons d s⟩
      · simpa [char_cons_of_ne hd] using alike_none v never (d :: s)

theorem char_eq_none_iff {c : Char} (hc : c ∉ v) (ht : Trailed v s s') :
    Parser.char c s = none ↔ Parser.char c s' = none := by
  rcases (char hc _ s s' (Nat.lt_succ_self _) ht).of_never with
    ⟨a, r, r', hr, hr', -⟩ | ⟨hr, hr'⟩ <;> simp [hr, hr']

theorem literal {cs : List Char} (hcs : ∀ c ∈ cs, c ∉ v) (n : Nat) :
    Ignores v never n (literal cs) := by
  induction cs generalizing n with
  | nil => exact fun s s' _ ht => .some_of_trailed () ht never
  | cons c cs ih =>
      rw [literal_cons]
      refine ((char (hcs c (by simp)) (n + 1)).after (fun s b r hr => ?_)
        (ih (fun d hd => hcs d (by simp [hd])) n)).mono (Nat.le_succ n)
      rw [char_eq_some hr, List.length_cons]
      exact Nat.lt_succ_self r.length

/-- A run ends in front of what holds no character of its class. -/
theorem run {inClass : Char → Bool} (hv : ∀ c ∈ v, ¬ inClass c) (n : Nat) :
    Ignores v never n (run inClass) := by
  intro s s' _ ht
  have hhead : ∀ c ∈ v.head?, ¬ inClass c := fun c hc => hv c (List.mem_of_mem_head? hc)
  cases hs : Parser.run inClass s with
  | none =>
      have hs' : Parser.run inClass s' = none := by
        rcases ht with rfl | ⟨-, rfl⟩
        · exact run_append_of_none hhead hs
        · exact run_of_not (by simp)
      rw [hs']
      exact alike_none v never s
  | some found =>
      obtain ⟨cs, r⟩ := found
      obtain ⟨rfl, hne, hall, hstop⟩ := run_eq_some hs
      obtain rfl := ht.eq_append (by simp [hne])
      have hread : Parser.run inClass (cs ++ r ++ v) = some (cs, r ++ v) := by
        rw [List.append_assoc]
        refine run_append hne hall ?_
        cases r with
        | nil => exact hhead
        | cons d r => exact hstop
      exact .inl ⟨cs, r, r ++ v, rfl, hread, .append v r, List.suffix_append cs r⟩

theorem between {opening closing : Char} (hopening : opening ∉ v) (hclosing : closing ∉ v)
    (h : Ignores v (fun r => Parser.char closing r = none) n p) :
    Ignores v never (n + 1) (between opening closing p) :=
  ((char hopening (n + 1)).after (fun s b r hr => by simp [char_eq_some hr]) h).followedBy
    (char hclosing (n + 1)) fun _ => id

/-! ## Choices and repetitions -/

section Repetition

variable (hsame : ∀ s s', Trailed v s s' → (stuck s ↔ stuck s'))
  (hbegins : ∀ s a r, p s = some (a, r) → stuck' r → stuck s)
include hsame hbegins

theorem optionally (h : Ignores v stuck' n p) (hstuck : ∀ r, stuck' r → stuck r) :
    Ignores v stuck n fun s => some (optionally p s) := by
  intro s s' hs ht
  have hread := (h s s' hs ht).elim stuck (k := fun a r => (some a, r)) (b := none) ht
    (hsame s s' ht) (hbegins s) (hbegins s')
    (fun a r r' _ _ hrest => .some_of_trailed (some a) hrest stuck) fun a r => hstuck r
  have heq (s : List Char) :
      Parser.optionally p s = (p s).elim (none, s) fun found => (some found.1, found.2) := by
    rw [Parser.optionally]
    cases p s <;> rfl
  simpa only [heq] using hread

/-- A repetition ends where its item is stuck. -/
theorem many (h : Ignores v stuck' n p)
    (hshrinks : ∀ s a r, p s = some (a, r) → r.length < s.length)
    (hstuck : ∀ r, stuck' r → p r = none ∧ stuck r) :
    Ignores v stuck n fun s => some (many p s) := by
  have heq (s : List Char) : Parser.many p s = (p s).elim ([], s) fun found =>
      (found.1 :: (Parser.many p found.2).1, (Parser.many p found.2).2) := by
    cases hp : p s with
    | none => exact many_of_none hp
    | some found => exact many_of_some hp (hshrinks s found.1 found.2 hp)
  intro s
  induction hlength : s.length using Nat.strongRecOn generalizing s with
  | _ length ih =>
      intro s' hs ht
      have hread := (h s s' (hlength ▸ hs) ht).elim stuck
        (k := fun a r => (a :: (Parser.many p r).1, (Parser.many p r).2)) (b := []) ht
        (hsame s s' ht) (hbegins s) (hbegins s') (fun a r r' hr _ hrest => ?_) fun a r hr => ?_
      · simpa only [← heq] using hread
      · have hlt := hshrinks s a r hr
        exact (ih r.length (by omega) r rfl r' (by omega) hrest).map (a :: ·)
      · obtain ⟨hnone, hr⟩ := hstuck r hr
        simpa [many_of_none hnone] using hr

end Repetition

theorem optionally_of_never (h : Ignores v never n p) :
    Ignores v never n fun s => some (Parser.optionally p s) :=
  h.optionally (fun _ _ _ => .rfl) (fun _ _ _ _ => id) fun _ => id

theorem many_of_never (h : Ignores v never n p)
    (hshrinks : ∀ s a r, p s = some (a, r) → r.length < s.length) :
    Ignores v never n fun s => some (Parser.many p s) :=
  h.many (fun _ _ _ => .rfl) (fun _ _ _ _ => id) hshrinks fun _ => False.elim

/-- A list in front of the mark that closes it, which begins no item. -/
theorem separatedBy_closed {separator closing : Char} (hne : closing ≠ separator)
    (hseparator : separator ∉ v) (hclosing : closing ∉ v) (h : Ignores v stuck' n p)
    (hshrinks : ∀ s a r, p s = some (a, r) → r.length < s.length)
    (hstuck : ∀ r, stuck' r → Parser.char separator r = none ∧ Parser.char closing r = none)
    (hitem : ∀ r, p (closing :: r) = none) :
    Ignores v (fun r => Parser.char closing r = none) n
      fun s => some (separatedBy separator p s) := by
  have hbegins (s : List Char) (a : α) (r : List Char) (hr : p s = some (a, r)) (_ : stuck' r) :
      Parser.char closing s = none := by
    refine Option.eq_none_iff_forall_ne_some.2 fun found hfound => ?_
    rw [char_eq_some hfound, hitem] at hr
    exact absurd hr (by simp)
  have hnext (r : List Char) (hr : stuck' r) :
      Parser.after (Parser.char separator) p r = none ∧ Parser.char closing r = none := by
    obtain ⟨hchar, hclose⟩ := hstuck r hr
    exact ⟨by simp [Parser.after, hchar], hclose⟩
  have hmore : Ignores v (fun r => Parser.char closing r = none) (n + 1)
      fun s => some (Parser.many (Parser.after (Parser.char separator) p) s) := by
    refine ((char hseparator (n + 1)).after (fun s b r hr => by simp [char_eq_some hr]) h).many
      (fun _ _ => char_eq_none_iff hclosing) (fun s a r hr _ => ?_) (fun s a r hr => ?_) hnext
    · obtain ⟨t, rfl, -⟩ := after_char_eq_some hr
      exact char_cons_of_ne hne.symm t
    · obtain ⟨t, rfl, hread⟩ := after_char_eq_some hr
      exact Nat.lt_succ_of_lt (hshrinks t a r hread)
  intro s s' hs ht
  have hread := (h s s' hs ht).elim (fun r => Parser.char closing r = none) (b := [])
    (k := fun a r => (a :: (Parser.many (Parser.after (Parser.char separator) p) r).1,
      (Parser.many (Parser.after (Parser.char separator) p) r).2)) ht
    (char_eq_none_iff hclosing ht) (hbegins s) (hbegins s') (fun a r r' _ hsuffix hrest => ?_)
    fun a r hr => ?_
  · have heq (s : List Char) : Parser.separatedBy separator p s = (p s).elim ([], s) fun found =>
        (found.1 :: (Parser.many (Parser.after (Parser.char separator) p) found.2).1,
          (Parser.many (Parser.after (Parser.char separator) p) found.2).2) := by
      cases hp : p s with
      | none => exact separatedBy_of_none hp
      | some found => exact separatedBy_of_some hp
    simpa only [heq] using hread
  · have hle := hsuffix.length_le
    exact (hmore r r' (by omega) hrest).map (a :: ·)
  · obtain ⟨hnone, hclose⟩ := hnext r hr
    simpa [many_of_none hnone] using hclose

end Ignores

end SwiftSurface.Parser
