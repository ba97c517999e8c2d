import SwiftSurface.Image.Listing
import SwiftSurface.Proofs.Pieces

/-!
# What a line of a listing says

An offset is read just when it spells a number that fits into a word (`readOffset_eq_ok_iff`). A
line that holds the phrase of a header is a header (`exists_of_isHeader`), and any other line goes
by its fields (`of_of_not_isHeader`), which are at fault in two ways (`FieldFault`).
-/

namespace SwiftSurface

open Text

/-! ## Offsets -/

/-- Do these digits spell the number in hexadecimal? -/
def SpellsHex (digits : List Char) (n : Nat) : Prop :=
  digits ≠ [] ∧ (∀ c ∈ digits, (hexDigit? c).isSome) ∧ ofDigits 16 digits = n

/-- Does the field spell the number in hexadecimal, with a plus sign in front or not? -/
def SpellsOffset (field : List Char) (n : Nat) : Prop :=
  SpellsHex field n ∨ ∃ digits, field = '+' :: digits ∧ SpellsHex digits n

/-- What a number becomes when a digit is written behind it. -/
def pushHex (value : Nat) (c : Char) : Nat :=
  value * 16 + (hexDigit? c).getD 0

theorem ofDigits_eq_foldl_pushHex (digits : List Char) :
    ofDigits 16 digits = digits.foldl pushHex 0 :=
  rfl

/-- A number only grows with the digits behind it. -/
theorem le_foldl_pushHex (value : Nat) (digits : List Char) :
    value ≤ digits.foldl pushHex value := by
  induction digits generalizing value with
  | nil => exact Nat.le_refl value
  | cons c digits ih =>
      calc value ≤ pushHex value c := by unfold pushHex; omega
        _ ≤ digits.foldl pushHex (pushHex value c) := ih _

/-- A number is read just when all characters are digits and it fits into a word in the end. -/
theorem readHexDigits_eq_ok_iff {value : Nat} (hvalue : value < UInt64.size) {digits : List Char}
    {w : UInt64} :
    readHexDigits value digits = .ok w ↔
      (∀ c ∈ digits, (hexDigit? c).isSome) ∧ digits.foldl pushHex value = w.toNat := by
  induction digits generalizing value with
  | nil =>
      have hword : (UInt64.ofNat value).toNat = value := UInt64.toNat_ofNat_of_lt' hvalue
      simp [readHexDigits, ← UInt64.toNat_inj, hword]
  | cons c digits ih =>
      cases hc : hexDigit? c with
      | none => simp [readHexDigits, hc]
      | some digit =>
          have hpush : pushHex value c = value * 16 + digit := by simp [pushHex, hc]
          by_cases hfits : value * 16 + digit < UInt64.size
          · simp [readHexDigits, hc, hfits, ih hfits, hpush]
          · have hgrows := le_foldl_pushHex (value * 16 + digit) digits
            have hw : w.toNat < UInt64.size := w.toNat_lt
            simp only [readHexDigits, hc, hfits, if_false, List.foldl_cons, hpush]
            constructor
            · simp
            · rintro ⟨-, hread⟩
              omega

/-- All hexadecimal digits lie between the blanks. -/
theorem toNat_of_hexDigit? {c : Char} (h : (hexDigit? c).isSome) :
    '0'.toNat ≤ c.toNat ∧ c.toNat ≤ 'f'.toNat := by
  simp only [hexDigit?, Bool.and_eq_true, decide_eq_true_eq, Char.le_def, UInt32.le_iff_toNat_le,
    Char.reduceVal, UInt32.reduceToNat] at h
  simp only [Char.reduceToNat]
  split at h
  · simp only [Char.toNat]; omega
  split at h
  · simp only [Char.toNat]; omega
  split at h
  · simp only [Char.toNat]; omega
  · simp at h

theorem isBlank_of_hexDigit? {c : Char} (h : (hexDigit? c).isSome) : isBlank c = false := by
  have hrange := toNat_of_hexDigit? h
  simp only [Char.reduceToNat] at hrange
  rw [← Bool.not_eq_true, isBlank]
  simp only [Bool.or_eq_true, Bool.and_eq_true, decide_eq_true_eq, beq_iff_eq]
  omega

theorem SpellsHex.isWord {digits : List Char} {n : Nat} (h : SpellsHex digits n) : IsWord digits :=
  ⟨h.1, fun c hc => isBlank_of_hexDigit? (h.2.1 c hc)⟩

/-- Every number is spelled in some way. -/
theorem exists_spellsHex (n : Nat) : ∃ digits, SpellsHex digits n := by
  have hdigit : ∀ d < 16, hexDigit? (Nat.digitChar d) = some d := by decide
  induction n using Nat.strongRecOn with
  | ind n ih =>
      have hlast := hdigit (n % 16) (Nat.mod_lt n (by decide))
      by_cases hsmall : n < 16
      · rw [Nat.mod_eq_of_lt hsmall] at hlast
        exact ⟨[Nat.digitChar n], by simp, by simp [hlast],
          by simp [ofDigits_eq_foldl_pushHex, pushHex, hlast]⟩
      · obtain ⟨digits, -, hdigits, hvalue⟩ := ih (n / 16) (by omega)
        refine ⟨digits ++ [Nat.digitChar (n % 16)], by simp, fun c hc => ?_, ?_⟩
        · rcases List.mem_append.1 hc with hc | hc
          · exact hdigits c hc
          · rw [List.mem_singleton.1 hc, hlast]
            rfl
        · rw [ofDigits_eq_foldl_pushHex] at hvalue ⊢
          rw [List.foldl_append, hvalue]
          simp [pushHex, hlast]
          omega

/-- **An offset is read as the number that it spells.** -/
theorem readOffset_eq_ok_iff {field : List Char} (hne : field ≠ []) {w : UInt64} :
    readOffset field = .ok w ↔ SpellsOffset field w.toNat := by
  have hzero : 0 < UInt64.size := by decide
  have hplus : hexDigit? '+' = none := by decide
  unfold readOffset
  split
  case h_1 digit rest =>
    simp [readHexDigits_eq_ok_iff hzero, SpellsOffset, SpellsHex, ofDigits_eq_foldl_pushHex, hplus]
  case h_2 hsigned =>
    rw [readHexDigits_eq_ok_iff hzero]
    constructor
    · exact fun ⟨hdigits, hvalue⟩ => .inl ⟨hne, hdigits, hvalue⟩
    · rintro (⟨-, hdigits, hvalue⟩ | ⟨digits, rfl, hdigits, -⟩)
      · exact ⟨hdigits, hvalue⟩
      · obtain ⟨digit, rest, rfl⟩ := List.exists_cons_of_ne_nil hdigits
        exact absurd rfl (hsigned digit rest)

/-! ## Headers -/

/-- The phrase in front of the name in a header. -/
def headerStart : List Char :=
  "(for architecture ".toList

/-- What a header ends with. -/
def headerEnd : List Char :=
  "):".toList

theorem headerStart_eq_cons : headerStart = '(' :: "for architecture ".toList := by
  decide +kernel

theorem headerStart_eq_append :
    headerStart = "(for".toList ++ ' ' :: ("architecture".toList ++ [' ']) := by
  decide +kernel

/-- Is the line the header of a slice? -/
def IsHeader (line : List Char) : Prop :=
  ∃ before name, trimEnd line = before ++ headerStart ++ name ++ headerEnd

namespace ListingLine

theorem header?_eq (line : List Char) :
    header? line = (splitOnce headerStart line).bind fun cut =>
      (stripEnd headerEnd cut.2).bind fun name => some (.ofName (String.ofList name)) :=
  rfl

theorem isSome_header?_iff {line : List Char} :
    (header? line).isSome ↔ ∃ before name, line = before ++ headerStart ++ name ++ headerEnd := by
  simp only [header?_eq, Option.isSome_iff_exists, Option.bind_eq_some_iff]
  constructor
  · rintro ⟨architecture, ⟨before, rest⟩, hsplit, name, hname, -⟩
    obtain rfl : rest = name ++ headerEnd := stripEnd_eq_some_iff.1 hname
    exact ⟨before, name, by rw [eq_of_splitOnce hsplit, ← List.append_assoc]⟩
  · rintro ⟨before, name, rfl⟩
    -- the phrase may stand further to the front as well, and the end is the same
    obtain ⟨before', rest, hsplit, more, hmore⟩ :=
      splitOnce_of_mem before headerStart (name ++ headerEnd)
    rw [← List.append_assoc _ name] at hsplit
    have hname : stripEnd headerEnd rest = some (more ++ name) :=
      stripEnd_eq_some_iff.2 (by rw [← hmore, List.append_assoc])
    exact ⟨_, (before', rest), hsplit, more ++ name, hname, rfl⟩

/-- A header names what stands behind the phrase where it first stands. -/
theorem header?_eq_ofName {before : List Char} (h : ¬ headerStart <:+: before) (name : List Char) :
    header? (before ++ headerStart ++ name ++ headerEnd) =
      some (.ofName (String.ofList name)) := by
  have hsplit : splitOnce headerStart (before ++ headerStart ++ name ++ headerEnd) =
      some (before, name ++ headerEnd) := by
    rw [headerStart_eq_cons] at h ⊢
    rw [List.append_assoc _ name]
    exact splitOnce_first (by decide +kernel) h _
  have hname : stripEnd headerEnd (name ++ headerEnd) = some name := stripEnd_eq_some_iff.2 rfl
  rw [header?_eq, hsplit, Option.bind_some, hname, Option.bind_some]

end ListingLine

instance : DecidablePred IsHeader := fun line =>
  decidable_of_iff ((ListingLine.header? (trimEnd line)).isSome) ListingLine.isSome_header?_iff

/-- A header has a word `architecture` with words in front of it and behind. -/
theorem words_of_isHeader {line : List Char} (h : IsHeader line) :
    ∃ front back, front ≠ [] ∧ back ≠ [] ∧
      words line = front ++ "architecture".toList :: back := by
  obtain ⟨before, name, hline⟩ := h
  have hword : IsWord "architecture".toList :=
    isWord_of_all (by decide +kernel) (by decide +kernel)
  refine ⟨words (before ++ "(for".toList), words (name ++ headerEnd), ?_, ?_, ?_⟩
  · have hmem : '(' ∈ "(for".toList := by decide +kernel
    exact words_ne_nil (List.mem_append_right before hmem) (by decide)
  · have hmem : ':' ∈ headerEnd := by decide +kernel
    exact words_ne_nil (List.mem_append_right name hmem) (by decide)
  · have hcut : before ++ headerStart ++ name ++ headerEnd =
        (before ++ "(for".toList) ++
          ' ' :: ("architecture".toList ++ ' ' :: (name ++ headerEnd)) := by
      simp only [headerStart_eq_append, List.append_assoc, List.cons_append, List.nil_append]
    rw [← words_trimEnd, hline, hcut, words_append_blank _ (by decide),
      words_append_blank _ (by decide), words_of_isWord hword, List.singleton_append]

/-! ## Fields -/

/-- The faults of a line with these fields: a second field that is no single letter, or the offset
of a symbol to be kept that spells no word, for whatever cause. -/
inductive FieldFault : List (List Char) → LineFault → Prop
  | typeLetter {offset letters name : List Char} {more : List (List Char)}
      (h : letters.length ≠ 1) :
      FieldFault (offset :: letters :: name :: more) (.typeLetter (String.ofList letters))
  | offset {offset name : List Char} {letter : Char} {more : List (List Char)} {cause : OffsetFault}
      (hletter : letter ∈ definedLetters) (h : ¬ ∃ w : UInt64, SpellsOffset offset w.toNat) :
      FieldFault (offset :: [letter] :: name :: more) (.offset (String.ofList offset) cause)

namespace ListingLine

theorem fieldFault_of_ofFields {fields : List (List Char)} (hfields : [] ∉ fields)
    {fault : LineFault} (h : ofFields fields = .faulty fault) : FieldFault fields fault := by
  unfold ofFields at h
  split at h
  case h_1 offset letter name more =>
    split at h
    case isFalse => simp at h
    case isTrue hletter =>
      have hne : offset ≠ [] := fun hnil => hfields (by simp [hnil])
      cases hread : readOffset offset with
      | ok w => simp [hread] at h
      | error cause =>
          rw [hread] at h
          obtain rfl := ListingLine.faulty.inj h
          refine .offset (by simpa using hletter) fun ⟨w, hspelled⟩ => ?_
          rw [(readOffset_eq_ok_iff hne).2 hspelled] at hread
          simp at hread
  case h_2 offset letters name more hletters =>
    obtain rfl := ListingLine.faulty.inj h
    refine .typeLetter fun hlength => ?_
    obtain ⟨letter, rfl⟩ := List.length_eq_one_iff.1 hlength
    exact hletters letter rfl
  case h_3 => simp at h

theorem exists_faulty_of_fieldFault {fields : List (List Char)} (hfields : [] ∉ fields)
    {fault : LineFault} (h : FieldFault fields fault) :
    ∃ fault, ofFields fields = .faulty fault := by
  cases h with
  | @typeLetter offset letters name more hlength =>
      refine ⟨.typeLetter (String.ofList letters), ?_⟩
      rcases letters with _ | ⟨letter, _ | ⟨letter', rest⟩⟩
      · rfl
      · exact absurd rfl hlength
      · rfl
  | @offset offset name letter more _ hletter hunspelled =>
      have hne : offset ≠ [] := fun hnil => hfields (by simp [hnil])
      cases hread : readOffset offset with
      | ok w => exact absurd ⟨w, (readOffset_eq_ok_iff hne).1 hread⟩ hunspelled
      | error cause =>
          exact ⟨.offset (String.ofList offset) cause, by simp [ofFields, hletter, hread]⟩

/-- No fields make a header. -/
theorem ofFields_ne_header (fields : List (List Char)) (architecture : Architecture) :
    ofFields fields ≠ .header architecture := by
  unfold ofFields
  repeat' split
  all_goals simp

/-! ## Lines -/

theorem of_of_header? {line : List Char} {architecture : Architecture}
    (h : header? (trimEnd line) = some architecture) : of line = .header architecture := by
  unfold of
  split
  case h_1 hblank =>
    have hnone : header? [] = none := rfl
    rw [hblank, hnone] at h
    simp at h
  case h_2 => rw [h]

theorem exists_of_isHeader {line : List Char} (h : IsHeader line) :
    ∃ architecture, of line = .header architecture := by
  obtain ⟨architecture, hheader⟩ := Option.isSome_iff_exists.1 (isSome_header?_iff.2 h)
  exact ⟨architecture, of_of_header? hheader⟩

/-- A line that is no header goes by its fields, and a blank one has none. -/
theorem of_of_not_isHeader {line : List Char} (h : ¬ IsHeader line) :
    of line = .blank ∧ words line = [] ∨ of line = ofFields (words line) := by
  have hheader : header? (trimEnd line) = none :=
    Option.not_isSome_iff_eq_none.1 fun hsome => h (isSome_header?_iff.1 hsome)
  unfold of
  split
  case h_1 hblank => exact .inl ⟨rfl, by rw [← words_trimEnd, hblank]; rfl⟩
  case h_2 => exact .inr (by rw [hheader, words_trimEnd])

theorem of_eq_header_iff {line : List Char} :
    (∃ architecture, of line = .header architecture) ↔ IsHeader line := by
  refine ⟨fun ⟨architecture, hof⟩ => Decidable.of_not_not fun h => ?_, exists_of_isHeader⟩
  rcases of_of_not_isHeader h with ⟨hblank, -⟩ | hfields
  · simp [hof] at hblank
  · exact ofFields_ne_header _ _ (hfields.symm.trans hof)

/-- A faulty line is no header, and its fields are at fault. -/
theorem fieldFault_of_faulty {line : List Char} {fault : LineFault} (h : of line = .faulty fault) :
    ¬ IsHeader line ∧ FieldFault (words line) fault := by
  have hheader : ¬ IsHeader line := fun hheader => by
    obtain ⟨architecture, hof⟩ := exists_of_isHeader hheader
    simp [hof] at h
  refine ⟨hheader, ?_⟩
  rcases of_of_not_isHeader hheader with ⟨hof, -⟩ | hof
  · simp [hof] at h
  · exact fieldFault_of_ofFields nil_not_mem_words (hof.symm.trans h)

theorem exists_faulty {line : List Char} (hheader : ¬ IsHeader line) {fault : LineFault}
    (h : FieldFault (words line) fault) : ∃ fault, of line = .faulty fault := by
  rcases of_of_not_isHeader hheader with ⟨-, hwords⟩ | hof
  · rw [hwords] at h
    cases h
  · rw [hof]
    exact exists_faulty_of_fieldFault nil_not_mem_words h

end ListingLine

end SwiftSurface
