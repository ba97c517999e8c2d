import SwiftSurface.Text

/-!
# Laws of skipping blanks and trimming
-/

namespace SwiftSurface.Text

theorem skipBlanks_length_le (s : List Char) : (skipBlanks s).length ≤ s.length :=
  (List.dropWhile_sublist _).length_le

theorem skipBlanks_of_head {s : List Char} (h : ∀ c ∈ s.head?, isBlank c = false) :
    skipBlanks s = s := by
  cases s with
  | nil => rfl
  | cons c s => simp [skipBlanks, h c rfl]

theorem skipBlanks_blank (s : List Char) : skipBlanks (' ' :: s) = skipBlanks s := by
  have hblank : isBlank ' ' = true := by decide
  simp [skipBlanks, hblank]

theorem skipBlanks_blank_of_head {s : List Char} (h : ∀ c ∈ s.head?, isBlank c = false) :
    skipBlanks (' ' :: s) = s := by
  rw [skipBlanks_blank, skipBlanks_of_head h]

theorem head_skipBlanks (s : List Char) : ∀ c ∈ (skipBlanks s).head?, isBlank c = false := by
  intro c hc
  have := List.head?_dropWhile_not isBlank s
  rw [skipBlanks] at hc
  simp_all

theorem skipBlanks_skipBlanks (s : List Char) : skipBlanks (skipBlanks s) = skipBlanks s :=
  skipBlanks_of_head (head_skipBlanks s)

theorem skipBlanks_eq_nil_iff {s : List Char} : skipBlanks s = [] ↔ ∀ c ∈ s, isBlank c := by
  constructor
  · intro h
    have heq := List.takeWhile_append_dropWhile (p := isBlank) (l := s)
    rw [show s.dropWhile isBlank = [] from h, List.append_nil] at heq
    exact List.all_eq_true.1 (heq ▸ List.all_takeWhile)
  · intro h
    rw [skipBlanks, ← List.append_nil s, List.dropWhile_append_of_pos h, List.dropWhile_nil]

theorem trim_blank (s : List Char) : trim (' ' :: s) = trim s := by
  rw [trim, trim, skipBlanks_blank]

theorem trimEnd_cons {c : Char} (h : isBlank c = false) (s : List Char) :
    trimEnd (c :: s) = c :: trimEnd s := by
  rw [trimEnd, trimEnd, List.reverse_cons, List.dropWhile_append]
  cases hs : s.reverse.dropWhile isBlank <;> simp [h]

theorem trimEnd_of_getLast {s : List Char} (h : ∀ c ∈ s.getLast?, isBlank c = false) :
    trimEnd s = s := by
  have hskip : s.reverse.dropWhile isBlank = s.reverse := by
    rw [← List.head?_reverse] at h
    exact skipBlanks_of_head h
  rw [trimEnd, hskip, List.reverse_reverse]

/-- Trimmed text has no blank at either end. -/
theorem ends_trim (s : List Char) :
    (∀ c ∈ (trim s).head?, isBlank c = false) ∧ ∀ c ∈ (trim s).getLast?, isBlank c = false := by
  constructor
  · have hhead := head_skipBlanks s
    rw [trim]
    cases hs : skipBlanks s with
    | nil => simp [trimEnd]
    | cons c rest =>
        rw [hs] at hhead
        rw [trimEnd_cons (hhead c rfl)]
        exact hhead
  · rw [trim, trimEnd, List.getLast?_reverse]
    exact head_skipBlanks (skipBlanks s).reverse

/-- Trimming keeps just the texts without a blank at either end. -/
theorem trim_eq_self_iff {s : List Char} :
    trim s = s ↔
      (∀ c ∈ s.head?, isBlank c = false) ∧ ∀ c ∈ s.getLast?, isBlank c = false := by
  constructor
  · intro h
    rw [← h]
    exact ends_trim s
  · rintro ⟨hhead, hlast⟩
    rw [trim, skipBlanks_of_head hhead, trimEnd_of_getLast hlast]

theorem trim_trim (s : List Char) : trim (trim s) = trim s :=
  trim_eq_self_iff.2 (ends_trim s)

/-! ## Blanks behind a text -/

section Behind

variable {v : List Char} (hv : ∀ c ∈ v, isBlank c)
include hv

/-- Blanks behind a text are skipped where the whole text is. -/
theorem skipBlanks_blanks_behind (s : List Char) :
    skipBlanks (s ++ v) = if skipBlanks s = [] then [] else skipBlanks s ++ v := by
  have hskip : List.dropWhile isBlank v = [] := skipBlanks_eq_nil_iff.2 hv
  rw [skipBlanks, skipBlanks, List.dropWhile_append, hskip]
  simp

theorem trimEnd_blanks_behind (s : List Char) : trimEnd (s ++ v) = trimEnd s := by
  rw [trimEnd, trimEnd, List.reverse_append,
    List.dropWhile_append_of_pos fun c hc => hv c (List.mem_reverse.1 hc)]

theorem trim_blanks_behind (s : List Char) : trim (s ++ v) = trim s := by
  rw [trim, trim, skipBlanks_blanks_behind hv]
  by_cases hs : skipBlanks s = []
  · rw [if_pos hs, hs]
  · rw [if_neg hs, trimEnd_blanks_behind hv]

end Behind

theorem mem_of_mem_trim {c : Char} {s : List Char} (h : c ∈ trim s) : c ∈ s := by
  rw [trim, trimEnd, List.mem_reverse] at h
  have := (List.dropWhile_sublist _).subset h
  rw [List.mem_reverse] at this
  exact (List.dropWhile_sublist _).subset this

end SwiftSurface.Text
