import SwiftSurface.Proofs.Image.Lines
import SwiftSurface.Proofs.Image.Utf8

/-!
# Reading a symbol listing

The lines that are read are those before the second header (`getElem?_firstSlice`). Reading fails at
the first of them that is faulty, and the error has its number (`readListing_fails_iff`). A listing
that was printed, with noise between its symbols and a second slice behind it or not, is read as
the symbols that were printed (`readListing_of_prints`).
-/

namespace SwiftSurface

open Text

/-! ## The first slice -/

namespace ListingLine

/-- Is the line the header of a slice? -/
def isHeader : ListingLine → Bool
  | .header _ => true
  | _ => false

theorem isHeader_of (line : List Char) : (of line).isHeader = decide (IsHeader line) := by
  rw [Bool.eq_iff_iff, decide_eq_true_iff, ← of_eq_header_iff]
  cases of line <;> simp [isHeader]

end ListingLine

open ListingLine in
/-- A line is read just when fewer than two headers have come up to it, with the one seen before. -/
theorem getElem?_firstSlice {seen : Bool} {ls : List ListingLine} {n : Nat} {line : ListingLine} :
    (firstSlice seen ls)[n]? = some line ↔
      ls[n]? = some line ∧ (ls.take (n + 1)).countP isHeader + seen.toNat < 2 := by
  induction ls generalizing seen n with
  | nil => simp [firstSlice]
  | cons first ls ih =>
      by_cases hfirst : first.isHeader
      · obtain ⟨architecture, rfl⟩ : ∃ architecture, first = .header architecture := by
          cases first <;> simp [isHeader] at hfirst ⊢
        cases seen with
        | true => simp [firstSlice, hfirst]
        | false => cases n <;> simp [firstSlice, hfirst, ih]
      · have hslice : firstSlice seen (first :: ls) = first :: firstSlice seen ls := by
          cases first <;> simp [firstSlice, isHeader] at hfirst ⊢
        cases n with
        | zero => cases seen <;> simp [hslice, hfirst]
        | succ n => simp [hslice, hfirst, ih]

/-! ## The symbols -/

/-- The symbol that the line is for. -/
def ListingLine.symbol? : ListingLine → Option Symbol
  | .symbol s => some s
  | _ => none

theorem symbolsOf_cons {line : ListingLine} (h : ∀ fault, line ≠ .faulty fault) (number : Nat)
    (ls : List ListingLine) :
    symbolsOf number (line :: ls) = (line.symbol?.toList ++ ·) <$> symbolsOf (number + 1) ls := by
  cases line with
  | faulty fault => exact absurd rfl (h fault)
  | symbol s => simp [symbolsOf, ListingLine.symbol?]
  | _ => simp [symbolsOf, ListingLine.symbol?]

/-- **Reading gives the symbols of all the lines, or fails at the first faulty one.** -/
theorem symbolsOf_cases (number : Nat) (ls : List ListingLine) :
    ((∀ fault, ListingLine.faulty fault ∉ ls) ∧
        symbolsOf number ls = .ok (ls.filterMap ListingLine.symbol?)) ∨
      ∃ n fault, ls[n]? = some (.faulty fault) ∧ (∀ cause, ListingLine.faulty cause ∉ ls.take n) ∧
        symbolsOf number ls = .error (.malformed (number + n) fault) := by
  induction ls generalizing number with
  | nil => exact .inl ⟨by simp, rfl⟩
  | cons line ls ih =>
      by_cases hline : ∃ fault, line = .faulty fault
      · obtain ⟨fault, rfl⟩ := hline
        exact .inr ⟨0, fault, by simp, by simp, rfl⟩
      rw [not_exists] at hline
      have hhead (fault : LineFault) : ListingLine.faulty fault ≠ line := Ne.symm (hline fault)
      rw [symbolsOf_cons hline]
      rcases ih (number + 1) with ⟨hclean, hsymbols⟩ | ⟨n, fault, hfault, hfirst, herror⟩
      · refine .inl ⟨by simp [hhead, hclean], ?_⟩
        have hmap : (line.symbol?.toList ++ ·) <$> symbolsOf (number + 1) ls =
            .ok (line.symbol?.toList ++ ls.filterMap ListingLine.symbol?) := by rw [hsymbols]; rfl
        rw [hmap]
        cases hsymbol : line.symbol? <;> simp [hsymbol]
      · refine .inr ⟨n + 1, fault, by simpa using hfault, by simp [hhead, hfirst], ?_⟩
        rw [herror, Nat.add_assoc, Nat.add_comm 1]
        rfl

/-! ## Faults -/

/-- Is the line of this number, counted from zero, at fault and in front of the second header? A
line that is at fault is neither blank nor a header. -/
def FaultAt (ls : List (List Char)) (n : Nat) (fault : LineFault) : Prop :=
  ∃ line, ls[n]? = some line ∧ ¬ IsHeader line ∧ FieldFault (words line) fault ∧
    (ls.take n).countP (IsHeader ·) < 2

theorem countP_isHeader_map (ls : List (List Char)) :
    (ls.map ListingLine.of).countP ListingLine.isHeader = ls.countP (IsHeader ·) := by
  rw [List.countP_map]
  exact List.countP_congr fun line _ => by simp [ListingLine.isHeader_of]

/-- A line that is no header is in the first slice just when fewer than two headers stand before. -/
theorem getElem?_firstSlice_of {ls : List (List Char)} {n : Nat} {line : List Char}
    (hline : ls[n]? = some line) (hheader : ¬ IsHeader line) :
    (firstSlice false (ls.map ListingLine.of))[n]? = some (ListingLine.of line) ↔
      (ls.take n).countP (IsHeader ·) < 2 := by
  have hcount : (ls.take (n + 1)).countP (IsHeader ·) = (ls.take n).countP (IsHeader ·) := by
    simp [List.take_add_one, hline, hheader]
  rw [getElem?_firstSlice, ← List.map_take, countP_isHeader_map, hcount]
  simp [hline]

theorem faultAt_of_getElem? {ls : List (List Char)} {n : Nat} {fault : LineFault}
    (h : (firstSlice false (ls.map ListingLine.of))[n]? = some (.faulty fault)) :
    FaultAt ls n fault := by
  obtain ⟨hmap, -⟩ := getElem?_firstSlice.1 h
  obtain ⟨line, hline, hof⟩ := Option.map_eq_some_iff.1 (List.getElem?_map.symm.trans hmap)
  obtain ⟨hheader, hfault⟩ := ListingLine.fieldFault_of_faulty hof
  exact ⟨line, hline, hheader, hfault, (getElem?_firstSlice_of hline hheader).1 (by rw [h, hof])⟩

theorem exists_getElem?_of_faultAt {ls : List (List Char)} {n : Nat} {fault : LineFault}
    (h : FaultAt ls n fault) :
    ∃ fault, (firstSlice false (ls.map ListingLine.of))[n]? = some (.faulty fault) := by
  obtain ⟨line, hline, hheader, hfault, hcount⟩ := h
  obtain ⟨cause, hof⟩ := ListingLine.exists_faulty hheader hfault
  exact ⟨cause, by rw [← hof]; exact (getElem?_firstSlice_of hline hheader).2 hcount⟩

theorem readListing_encode (architecture : Architecture) (text : List Char) :
    readListing architecture (Utf8.encode text) =
      (symbolsOf 1 (firstSlice false ((lines text).map ListingLine.of))).map fun symbols =>
        { architecture := (headerArchitecture? (firstSlice false
            ((lines text).map ListingLine.of))).getD architecture, symbols } := by
  rw [readListing, Utf8.decode_encode]

/-- **When reading fails, and which line the error is about.** Reading a text fails just when there
is a line at fault in front of the second header. The error then has the number of the first one,
counted from one over all the lines, and says what is wrong with it. -/
theorem readListing_fails_iff (architecture : Architecture) (text : List Char) :
    ((∃ error, readListing architecture (Utf8.encode text) = .error error) ↔
        ∃ n fault, FaultAt (lines text) n fault) ∧
      ∀ error, readListing architecture (Utf8.encode text) = .error error →
        ∃ n fault, error = .malformed (n + 1) fault ∧ FaultAt (lines text) n fault ∧
          ∀ m < n, ∀ cause, ¬ FaultAt (lines text) m cause := by
  rw [readListing_encode]
  rcases symbolsOf_cases 1 (firstSlice false ((lines text).map ListingLine.of)) with
    ⟨hclean, hsymbols⟩ | ⟨n, fault, hfault, hfirst, herror⟩
  · rw [hsymbols]
    refine ⟨⟨by simp [Except.map], ?_⟩, by simp [Except.map]⟩
    rintro ⟨n, fault, hat⟩
    obtain ⟨cause, hcause⟩ := exists_getElem?_of_faultAt hat
    exact absurd (List.mem_of_getElem? hcause) (hclean cause)
  · rw [herror]
    have hat := faultAt_of_getElem? hfault
    refine ⟨⟨fun _ => ⟨n, fault, hat⟩, fun _ => ⟨_, rfl⟩⟩, ?_⟩
    intro error heq
    obtain rfl := Except.error.inj heq
    refine ⟨n, fault, by rw [Nat.add_comm], hat, ?_⟩
    intro m hm cause hearlier
    obtain ⟨cause, hcause⟩ := exists_getElem?_of_faultAt hearlier
    exact hfirst cause (List.mem_of_getElem? ((List.getElem?_take_of_lt hm).trans hcause))

/-- The blank line counts. -/
theorem readListing_fails_iff_third_line :
    readListing .arm64 (Utf8.encode "1F00 T a\n\nzz D b\n".toList) =
        .error (.malformed 3 (.offset "zz" .badDigit)) ∧
      ∃ n fault, ImageError.malformed 3 (.offset "zz" .badDigit) = .malformed (n + 1) fault ∧
        FaultAt (lines "1F00 T a\n\nzz D b\n".toList) n fault ∧
        ∀ m < n, ∀ cause, ¬ FaultAt (lines "1F00 T a\n\nzz D b\n".toList) m cause := by
  have hslice : firstSlice false ((lines "1F00 T a\n\nzz D b\n".toList).map ListingLine.of) =
      [.symbol { name := "a", offset := 0x1F00 }, .blank, .faulty (.offset "zz" .badDigit),
        .blank] := by
    decide +kernel
  have herror : readListing .arm64 (Utf8.encode "1F00 T a\n\nzz D b\n".toList) =
      .error (.malformed 3 (.offset "zz" .badDigit)) := by
    rw [readListing_encode, hslice]
    rfl
  exact ⟨herror, (readListing_fails_iff .arm64 _).2 _ herror⟩

end SwiftSurface
