import SwiftSurface.Proofs.Text

/-!
# Laws of cutting text

Words are cut at blanks, lines at line feeds, and a fixed piece of text is found where it first
stands. Each law says what is cut out of a text that is put together in the same way: `words` of
texts with a blank between them, `lines` of lines with line feeds between them, and `splitOnce` of a
text with the piece in it.
-/

namespace SwiftSurface.Text

/-! ## Words -/

/-- Is the text without blanks, and not empty? -/
def IsWord (w : List Char) : Prop :=
  w ≠ [] ∧ ∀ c ∈ w, isBlank c = false

theorem isWord_of_all {w : List Char} (hne : w ≠ []) (h : w.all (!isBlank ·)) : IsWord w :=
  ⟨hne, fun c hc => by simpa using List.all_eq_true.1 h c hc⟩

theorem words_blank {c : Char} (h : isBlank c) (s : List Char) : words (c :: s) = words s := by
  simp [words, h]

theorem words_single {c : Char} (h : isBlank c = false) {s : List Char}
    (hs : s.head?.all isBlank) : words (c :: s) = [c] :: words s := by
  simp [words, h, hs]

theorem exists_word_of_head {s : List Char} (h : ¬ s.head?.all isBlank) :
    ∃ d s', s = d :: s' ∧ isBlank d = false := by
  cases s with
  | nil => simp at h
  | cons d s => exact ⟨d, s, rfl, by simpa using h⟩

/-- A character joins the word that starts right after it. -/
theorem words_join {c d : Char} (hc : isBlank c = false) (hd : isBlank d = false) (s : List Char) :
    ∃ word more, words (d :: s) = word :: more ∧ words (c :: d :: s) = (c :: word) :: more := by
  have hnonempty : words (d :: s) ≠ [] := by
    rw [words]
    simp only [hd, Bool.false_eq_true, if_false]
    split
    · simp
    · split <;> simp
  obtain ⟨word, more, hwords⟩ := List.exists_cons_of_ne_nil hnonempty
  refine ⟨word, more, hwords, ?_⟩
  rw [words]
  simp [hc, hd, hwords]

/-- **Words are cut at blanks.** What stands behind a blank is cut on its own. -/
theorem words_append_blank (s : List Char) {c : Char} (h : isBlank c) (t : List Char) :
    words (s ++ c :: t) = words s ++ words t := by
  induction s with
  | nil => simp [words_blank h, words]
  | cons d s ih =>
      by_cases hd : isBlank d
      · rw [List.cons_append, words_blank hd, words_blank hd, ih]
      have hword : isBlank d = false := by simpa using hd
      cases s with
      | nil =>
          rw [List.cons_append, List.nil_append, words_single hword (by simp [h]), words_blank h,
            words_single hword (by simp)]
          rfl
      | cons e s =>
          by_cases he : isBlank e
          · rw [List.cons_append, words_single hword (by simp [he]), ih,
              words_single hword (by simp [he])]
            rfl
          · have hnext : isBlank e = false := by simpa using he
            obtain ⟨word, more, hwords, hjoined⟩ := words_join hword hnext s
            obtain ⟨word', more', hwords', hjoined'⟩ := words_join hword hnext (s ++ c :: t)
            rw [List.cons_append, hwords', hwords, List.cons_append, List.cons.injEq] at ih
            rw [List.cons_append, List.cons_append, hjoined', hjoined, ih.1, ih.2]
            rfl

theorem words_of_isWord {w : List Char} (h : IsWord w) : words w = [w] := by
  obtain ⟨hne, hclass⟩ := h
  induction w with
  | nil => exact absurd rfl hne
  | cons c w ih =>
      have hc := hclass c (by simp)
      cases w with
      | nil => exact words_single hc (by simp)
      | cons d w =>
          obtain ⟨word, more, hwords, hjoined⟩ := words_join hc (hclass d (by simp)) w
          rw [ih (by simp) fun e he => hclass e (by simp [he]), List.cons.injEq] at hwords
          rw [hjoined, ← hwords.1, ← hwords.2]

theorem isWord_of_mem_words {s w : List Char} (h : w ∈ words s) : IsWord w := by
  induction s generalizing w with
  | nil => simp [words] at h
  | cons c s ih =>
      by_cases hc : isBlank c
      · rw [words_blank hc] at h
        exact ih h
      have hword : isBlank c = false := by simpa using hc
      by_cases hs : s.head?.all isBlank
      · rw [words_single hword hs] at h
        rcases List.mem_cons.1 h with rfl | h
        · exact ⟨by simp, by simpa using hword⟩
        · exact ih h
      · obtain ⟨d, s, rfl, hd⟩ := exists_word_of_head hs
        obtain ⟨word, more, hwords, hjoined⟩ := words_join hword hd s
        rw [hwords] at ih
        rw [hjoined] at h
        rcases List.mem_cons.1 h with rfl | h
        · obtain ⟨-, hclass⟩ := ih (w := word) (by simp)
          exact ⟨by simp, by simpa using ⟨hword, hclass⟩⟩
        · exact ih (by simp [h])

theorem nil_not_mem_words {s : List Char} : [] ∉ words s :=
  fun hmem => (isWord_of_mem_words hmem).1 rfl

/-- Nothing but the blanks is lost. -/
theorem flatten_words (s : List Char) : (words s).flatten = s.filter (!isBlank ·) := by
  induction s with
  | nil => rfl
  | cons c s ih =>
      by_cases hc : isBlank c
      · rw [words_blank hc, ih]
        simp [hc]
      have hword : isBlank c = false := by simpa using hc
      by_cases hs : s.head?.all isBlank
      · rw [words_single hword hs, List.flatten_cons, ih]
        simp [hword]
      · obtain ⟨d, s, rfl, hd⟩ := exists_word_of_head hs
        obtain ⟨word, more, hwords, hjoined⟩ := words_join hword hd s
        rw [hwords] at ih
        rw [hjoined, List.flatten_cons, List.cons_append, ← List.flatten_cons, ih]
        simp [hword]

theorem words_ne_nil {s : List Char} {c : Char} (hmem : c ∈ s) (hc : isBlank c = false) :
    words s ≠ [] := by
  intro hnil
  have hfilter := flatten_words s
  rw [hnil, List.flatten_nil, eq_comm, List.filter_eq_nil_iff] at hfilter
  exact hfilter c hmem (by simp [hc])

theorem words_blanks_append {bs : List Char} (h : ∀ c ∈ bs, isBlank c) (s : List Char) :
    words (bs ++ s) = words s := by
  induction bs with
  | nil => rfl
  | cons c bs ih =>
      rw [List.cons_append, words_blank (h c (by simp))]
      exact ih fun d hd => h d (by simp [hd])

theorem words_append_blanks (s : List Char) {bs : List Char} (h : ∀ c ∈ bs, isBlank c) :
    words (s ++ bs) = words s := by
  cases bs with
  | nil => rw [List.append_nil]
  | cons c bs =>
      have hrest : words bs = [] := by
        simpa [words] using words_blanks_append (fun d hd => h d (List.mem_cons_of_mem _ hd)) []
      rw [words_append_blank s (h c (by simp)), hrest, List.append_nil]

/-- Blanks between two pieces of text cut them apart. -/
theorem words_append_blanks_append (s : List Char) {bs : List Char} (hne : bs ≠ [])
    (h : ∀ c ∈ bs, isBlank c) (t : List Char) : words (s ++ bs ++ t) = words s ++ words t := by
  obtain ⟨c, bs, rfl⟩ := List.exists_cons_of_ne_nil hne
  rw [List.append_assoc, List.cons_append, words_append_blank s (h c (by simp)),
    words_blanks_append fun d hd => h d (List.mem_cons_of_mem _ hd)]

/-! ## Trimming at the end -/

/-- A text is its trimmed text and blanks behind it. -/
theorem trimEnd_append_blanks (s : List Char) :
    ∃ bs, (∀ c ∈ bs, isBlank c) ∧ s = trimEnd s ++ bs := by
  refine ⟨(s.reverse.takeWhile isBlank).reverse, fun c hc => ?_, ?_⟩
  · exact List.all_eq_true.1 List.all_takeWhile c (List.mem_reverse.1 hc)
  · rw [trimEnd, ← List.reverse_append, List.takeWhile_append_dropWhile, List.reverse_reverse]

theorem words_trimEnd (s : List Char) : words (trimEnd s) = words s := by
  obtain ⟨bs, hblank, hs⟩ := trimEnd_append_blanks s
  rw [hs, words_append_blanks _ hblank, ← hs]

/-- Text is trimmed up to its last character that is no blank. -/
theorem trimEnd_append {s bs : List Char} {c : Char} (hc : isBlank c = false)
    (hbs : ∀ d ∈ bs, isBlank d) : trimEnd (s ++ [c] ++ bs) = s ++ [c] := by
  have hreverse : (s ++ [c] ++ bs).reverse = bs.reverse ++ c :: s.reverse := by simp
  have hblank : ∀ d ∈ bs.reverse, isBlank d = true := fun d hd => hbs d (List.mem_reverse.1 hd)
  rw [trimEnd, hreverse, List.dropWhile_append_of_pos hblank]
  simp [hc]

/-! ## Lines -/

theorem lines_cons {c : Char} (hc : c ≠ '\n') {s l : List Char} {ls : List (List Char)}
    (h : lines s = l :: ls) : lines (c :: s) = (c :: l) :: ls := by
  simp [lines, h]

theorem lines_single {l : List Char} (h : '\n' ∉ l) : lines l = [l] := by
  induction l with
  | nil => rfl
  | cons c l ih =>
      rw [List.mem_cons, not_or] at h
      exact lines_cons (Ne.symm h.1) (ih h.2)

/-- A line feed ends a line. -/
theorem lines_append {l : List Char} (h : '\n' ∉ l) (s : List Char) :
    lines (l ++ '\n' :: s) = l :: lines s := by
  induction l with
  | nil => rfl
  | cons c l ih =>
      rw [List.mem_cons, not_or] at h
      exact lines_cons (Ne.symm h.1) (ih h.2)

/-- Lines with line feeds between them. -/
def joinLines (ls : List (List Char)) : List Char :=
  ['\n'].intercalate ls

/-- Lines that are put together are cut apart again. -/
theorem lines_joinLines {l : List Char} {ls : List (List Char)} (h : ∀ k ∈ l :: ls, '\n' ∉ k) :
    lines (joinLines (l :: ls)) = l :: ls := by
  induction ls generalizing l with
  | nil => simpa [joinLines, List.intercalate] using lines_single (h l (by simp))
  | cons k ls ih =>
      have hrest := ih (l := k) fun m hm => h m (List.mem_cons_of_mem _ hm)
      rw [joinLines, List.intercalate_cons_cons, List.append_assoc, List.singleton_append,
        lines_append (h l (by simp)), ← joinLines, hrest]

/-! ## Pieces -/

theorem stripStart_eq_some_iff {piece s rest : List Char} :
    stripStart piece s = some rest ↔ s = piece ++ rest := by
  induction piece generalizing s with
  | nil => simp [stripStart]
  | cons p piece ih =>
      cases s with
      | nil => simp [stripStart]
      | cons c s =>
          by_cases hpc : p = c
          · simp [stripStart, hpc, ih]
          · simp [stripStart, hpc, Ne.symm hpc]

theorem stripEnd_eq_some_iff {piece s before : List Char} :
    stripEnd piece s = some before ↔ s = before ++ piece := by
  rw [stripEnd, Option.map_eq_some_iff]
  constructor
  · rintro ⟨rest, hrest, rfl⟩
    rw [stripStart_eq_some_iff] at hrest
    simpa using congrArg List.reverse hrest
  · rintro rfl
    exact ⟨before.reverse, by simp [stripStart_eq_some_iff], by simp⟩

theorem splitOnce_of_stripStart {piece s after : List Char} (h : stripStart piece s = some after) :
    splitOnce piece s = some ([], after) := by
  cases s <;> simp [splitOnce, h]

theorem splitOnce_of_not {piece s : List Char} {c : Char} (h : stripStart piece (c :: s) = none) :
    splitOnce piece (c :: s) = (splitOnce piece s).map fun (before, after) => (c :: before, after) := by
  simp [splitOnce, h]

theorem eq_of_splitOnce {piece s before after : List Char}
    (h : splitOnce piece s = some (before, after)) : s = before ++ piece ++ after := by
  induction s generalizing before with
  | nil =>
      obtain ⟨rest, hrest, heq⟩ := Option.map_eq_some_iff.1 (by simpa only [splitOnce] using h)
      obtain ⟨rfl, rfl⟩ := Prod.mk.inj heq
      simpa using stripStart_eq_some_iff.1 hrest
  | cons c s ih =>
      cases hstart : stripStart piece (c :: s) with
      | some rest =>
          rw [splitOnce_of_stripStart hstart] at h
          obtain ⟨rfl, rfl⟩ := Prod.mk.inj (Option.some.inj h)
          simpa using stripStart_eq_some_iff.1 hstart
      | none =>
          rw [splitOnce_of_not hstart] at h
          obtain ⟨⟨before', after'⟩, hsplit, heq⟩ := Option.map_eq_some_iff.1 h
          obtain ⟨rfl, rfl⟩ := Prod.mk.inj heq
          rw [ih hsplit]
          rfl

/-- A piece that stands in a text is found, there or further to the front. -/
theorem splitOnce_of_mem (before piece after : List Char) :
    ∃ before' after', splitOnce piece (before ++ piece ++ after) = some (before', after') ∧
      after <:+ after' := by
  induction before with
  | nil => exact ⟨[], after, splitOnce_of_stripStart (stripStart_eq_some_iff.2 (by simp)),
      List.suffix_rfl⟩
  | cons c before ih =>
      cases hstart : stripStart piece (c :: (before ++ piece ++ after)) with
      | some rest =>
          refine ⟨[], rest, splitOnce_of_stripStart hstart, ?_⟩
          -- both end the text, and the piece found first leaves more of it
          have htext := stripStart_eq_some_iff.1 hstart
          have hafter : after <:+ c :: (before ++ piece ++ after) := ⟨c :: (before ++ piece), by simp⟩
          have hrest : rest <:+ c :: (before ++ piece ++ after) := ⟨piece, htext.symm⟩
          have hlength := congrArg List.length htext
          simp at hlength
          exact List.suffix_of_suffix_length_le hafter hrest (by omega)
      | none =>
          obtain ⟨before', after', hsplit, hsuffix⟩ := ih
          refine ⟨c :: before', after', ?_, hsuffix⟩
          rw [List.cons_append, List.cons_append, splitOnce_of_not hstart, hsplit]
          rfl

/-- A piece is found where it first stands: if it begins with a character that it does not have
again, no copy of it overlaps another one. -/
theorem splitOnce_first {p : Char} {piece before : List Char} (hp : p ∉ piece)
    (hbefore : ¬ (p :: piece) <:+: before) (after : List Char) :
    splitOnce (p :: piece) (before ++ p :: piece ++ after) = some (before, after) := by
  induction before with
  | nil => exact splitOnce_of_stripStart (stripStart_eq_some_iff.2 (by simp))
  | cons c before ih =>
      have hstart : stripStart (p :: piece) (c :: (before ++ p :: piece ++ after)) = none := by
        rw [Option.eq_none_iff_forall_ne_some]
        intro rest hrest
        have htext : (c :: before) ++ (p :: piece ++ after) = p :: piece ++ rest := by
          simpa using stripStart_eq_some_iff.1 hrest
        rcases List.append_eq_append_iff.1 htext with ⟨more, hpiece, hmore⟩ | ⟨more, hpiece, -⟩
        · cases more with
          | nil => exact hbefore ⟨[], [], by simp [hpiece]⟩
          | cons d more =>
              -- the copy that begins in front reaches the one behind, so it has `p` again
              obtain ⟨rfl, -⟩ := List.cons.inj hmore
              obtain ⟨-, htail⟩ := List.cons.inj hpiece
              exact hp (by rw [htail]; simp)
        · exact hbefore ⟨[], more, by simp [hpiece]⟩
      have hrest := ih fun hcopy => hbefore (hcopy.trans (List.suffix_cons c before).isInfix)
      rw [List.cons_append, List.cons_append, splitOnce_of_not hstart, hrest]
      rfl

end SwiftSurface.Text
