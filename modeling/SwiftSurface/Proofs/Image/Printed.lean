import SwiftSurface.Proofs.Image.Listing

/-!
# Printed listings

A listing that was printed, with noise between its symbols and a second slice behind it or not, is
read as the symbols that were printed (`readListing_of_prints`).
-/

namespace SwiftSurface

open Text

/-! ## Printed listings -/

/-- The lines that print a symbol: the offset in any spelling, the letter and the name with blanks
between them. -/
inductive PrintsSymbol (symbol : Symbol) : List Char → Prop
  | intro {indent digits gap gap' pad : List Char} {letter : Char}
      (hindent : ∀ c ∈ indent, isBlank c) (hdigits : SpellsHex digits symbol.offset.toNat)
      (hgap : gap ≠ []) (hgapBlank : ∀ c ∈ gap, isBlank c) (hletter : letter ∈ definedLetters)
      (hgap' : gap' ≠ []) (hgapBlank' : ∀ c ∈ gap', isBlank c) (hname : IsWord symbol.name.toList)
      (hpad : ∀ c ∈ pad, isBlank c) :
      PrintsSymbol symbol
        (indent ++ digits ++ gap ++ [letter] ++ gap' ++ symbol.name.toList ++ pad)

/-- The lines that are no headers and print nothing: they have fewer than three fields, or the
second one is a single letter of symbols that are not kept. -/
def IsNoise (line : List Char) : Prop :=
  ¬ IsHeader line ∧ ((words line).length < 3 ∨
    ∃ letter, (words line)[1]? = some [letter] ∧ letter ∉ definedLetters)

/-- Lines that print these symbols in order, with noise between them. -/
inductive Prints : List (List Char) → List Symbol → Prop
  | nil : Prints [] []
  | symbol {line ls symbol symbols} (hline : PrintsSymbol symbol line) (hrest : Prints ls symbols) :
      Prints (line :: ls) (symbol :: symbols)
  | noise {line ls symbols} (hline : IsNoise line) (hrest : Prints ls symbols) :
      Prints (line :: ls) symbols

/-- The headers of a slice for the architecture of this name. -/
inductive PrintsHeader (name : List Char) : List Char → Prop
  | intro {before pad : List Char} (hbefore : ¬ headerStart <:+: before)
      (hpad : ∀ c ∈ pad, isBlank c) :
      PrintsHeader name (before ++ headerStart ++ name ++ headerEnd ++ pad)

/-- The lines of a listing of these symbols: without a header, with one for the architecture of this
name in front, or with a second slice of any lines behind as well. -/
inductive PrintsListing : Option (List Char) → List Symbol → List (List Char) → Prop
  | bare {ls symbols} (h : Prints ls symbols) : PrintsListing none symbols ls
  | slice {name header ls symbols} (hheader : PrintsHeader name header) (h : Prints ls symbols) :
      PrintsListing (some name) symbols (header :: ls)
  | slices {name header ls symbols second more} (hheader : PrintsHeader name header)
      (h : Prints ls symbols) (hsecond : IsHeader second) :
      PrintsListing (some name) symbols (header :: (ls ++ second :: more))

theorem isBlank_of_mem_definedLetters {c : Char} (h : c ∈ definedLetters) : isBlank c = false := by
  have hall : definedLetters.all (!isBlank ·) := by decide
  simpa using List.all_eq_true.1 hall c h

theorem forall_isBlank_space : ∀ c ∈ [' '], isBlank c :=
  List.all_eq_true.1 (by decide)

theorem PrintsSymbol.words {symbol : Symbol} {line : List Char} (h : PrintsSymbol symbol line) :
    ∃ digits letter, words line = [digits, [letter], symbol.name.toList] ∧
      SpellsHex digits symbol.offset.toNat ∧ letter ∈ definedLetters := by
  cases h with
  | @intro indent digits gap gap' pad letter hindent hdigits hgap hgapBlank hletter hgap' hgapBlank'
      hname hpad =>
      have hword : IsWord [letter] :=
        ⟨by simp, by simpa using isBlank_of_mem_definedLetters hletter⟩
      refine ⟨digits, letter, ?_, hdigits, hletter⟩
      rw [words_append_blanks _ hpad, words_append_blanks_append _ hgap' hgapBlank',
        words_append_blanks_append _ hgap hgapBlank, words_blanks_append hindent,
        words_of_isWord hdigits.isWord, words_of_isWord hword, words_of_isWord hname]
      rfl

theorem PrintsSymbol.not_isHeader {symbol : Symbol} {line : List Char}
    (h : PrintsSymbol symbol line) : ¬ IsHeader line := by
  intro hheader
  obtain ⟨digits, letter, hfields, -, -⟩ := h.words
  obtain ⟨front, back, hfront, hback, hwords⟩ := words_of_isHeader hheader
  rw [hfields] at hwords
  -- with words on both sides of it, `architecture` would be the letter
  rcases front with _ | ⟨first, _ | ⟨second, front⟩⟩
  · exact hfront rfl
  · have hletter : [letter] = "architecture".toList := (List.cons.inj (List.cons.inj hwords).2).1
    have hlength : "architecture".toList.length ≠ 1 := by decide +kernel
    exact hlength (congrArg List.length hletter.symm)
  · have hlength := congrArg List.length hwords
    have := List.length_pos_iff.2 hback
    simp at hlength
    omega

theorem PrintsSymbol.of_eq {symbol : Symbol} {line : List Char} (h : PrintsSymbol symbol line) :
    ListingLine.of line = .symbol symbol := by
  obtain ⟨digits, letter, hfields, hdigits, hletter⟩ := h.words
  rcases ListingLine.of_of_not_isHeader h.not_isHeader with ⟨-, hnone⟩ | hof
  · simp [hfields] at hnone
  · have hread : readOffset digits = .ok symbol.offset :=
      (readOffset_eq_ok_iff hdigits.1).2 (.inl hdigits)
    simp [hof, hfields, ListingLine.ofFields, hletter, hread]

theorem IsNoise.of_eq {line : List Char} (h : IsNoise line) :
    ListingLine.of line = .blank ∨ ListingLine.of line = .dropped := by
  obtain ⟨hheader, hnoise⟩ := h
  refine (ListingLine.of_of_not_isHeader hheader).imp And.left fun hof => ?_
  rw [hof]
  rcases hwords : words line with _ | ⟨offset, _ | ⟨letters, _ | ⟨name, more⟩⟩⟩
  · rfl
  · rfl
  · simp [ListingLine.ofFields]
  · obtain ⟨letter, rfl, hletter⟩ : ∃ letter, letters = [letter] ∧ letter ∉ definedLetters := by
      simpa [hwords] using hnoise.resolve_left (by simp [hwords])
    simp [ListingLine.ofFields, hletter]

/-- Whatever the symbols, they can be printed if their names are words. -/
theorem exists_prints {symbols : List Symbol} (h : ∀ symbol ∈ symbols, IsWord symbol.name.toList) :
    ∃ ls, Prints ls symbols ∧ ∀ line ∈ ls, '\n' ∉ line := by
  induction symbols with
  | nil => exact ⟨[], .nil, by simp⟩
  | cons symbol symbols ih =>
      obtain ⟨ls, hls, hfeeds⟩ := ih fun s hs => h s (List.mem_cons_of_mem _ hs)
      obtain ⟨digits, hdigits⟩ := exists_spellsHex symbol.offset.toNat
      have hname := h symbol List.mem_cons_self
      have hfeed : isBlank '\n' ≠ false := by decide
      refine ⟨_ :: ls, .symbol (@PrintsSymbol.intro symbol [] digits [' '] [' '] [] 'T' (by simp)
        hdigits (by simp) forall_isBlank_space (by decide) (by simp) forall_isBlank_space hname
        (by simp)) hls, ?_⟩
      intro line hline
      rcases List.mem_cons.1 hline with rfl | hline
      · intro hmem
        have hcases : '\n' ∈ digits ∨ '\n' ∈ symbol.name.toList := by simpa using hmem
        exact hcases.elim (fun hd => hfeed (hdigits.isWord.2 _ hd)) fun hn => hfeed (hname.2 _ hn)
      · exact hfeeds line hline

/-! ## Reading what is printed -/

section Lines

variable {ls : List (List Char)} {symbols : List Symbol}

theorem Prints.not_isHeader (h : Prints ls symbols) {line : List Char} (hmem : line ∈ ls) :
    ¬ IsHeader line := by
  induction h with
  | nil => simp at hmem
  | symbol hline _ ih =>
      rcases List.mem_cons.1 hmem with rfl | hmem
      · exact hline.not_isHeader
      · exact ih hmem
  | noise hline _ ih =>
      rcases List.mem_cons.1 hmem with rfl | hmem
      · exact hline.1
      · exact ih hmem

theorem Prints.symbolsOf_eq (h : Prints ls symbols) (number : Nat) :
    symbolsOf number (ls.map ListingLine.of) = .ok symbols := by
  induction h generalizing number with
  | nil => rfl
  | symbol hline _ ih =>
      rw [List.map_cons, hline.of_eq, symbolsOf, ih]
      rfl
  | noise hline _ ih =>
      rcases hline.of_eq with hof | hof <;> simp [hof, symbolsOf, ih]

/-- Printed lines are all read, whether a header has been seen or not. -/
theorem Prints.firstSlice_append (h : Prints ls symbols) (seen : Bool) (tail : List ListingLine) :
    firstSlice seen (ls.map ListingLine.of ++ tail) =
      ls.map ListingLine.of ++ firstSlice seen tail := by
  induction h with
  | nil => rfl
  | symbol hline _ ih => simp [hline.of_eq, firstSlice, ih]
  | noise hline _ ih => rcases hline.of_eq with hof | hof <;> simp [hof, firstSlice, ih]

theorem Prints.headerArchitecture?_eq (h : Prints ls symbols) :
    headerArchitecture? (ls.map ListingLine.of) = none := by
  unfold headerArchitecture?
  rw [List.findSome?_eq_none_iff]
  intro parsed hmem
  obtain ⟨line, hline, rfl⟩ := List.mem_map.1 hmem
  have hheader := h.not_isHeader hline
  rw [← ListingLine.of_eq_header_iff] at hheader
  split
  case h_1 architecture hof => exact absurd ⟨architecture, hof⟩ hheader
  case h_2 => rfl

theorem PrintsHeader.of_eq {name line : List Char} (h : PrintsHeader name line) :
    ListingLine.of line = .header (.ofName (String.ofList name)) := by
  cases h with
  | @intro before pad hbefore hpad =>
      refine ListingLine.of_of_header? ?_
      have hend : headerEnd = [')'] ++ [':'] := by decide +kernel
      have htrim : trimEnd (before ++ headerStart ++ name ++ headerEnd ++ pad) =
          before ++ headerStart ++ name ++ headerEnd := by
        rw [hend, ← List.append_assoc _ [')']]
        exact trimEnd_append (by decide) hpad
      rw [htrim]
      exact ListingLine.header?_eq_ofName hbefore name

/-- The first slice of a printed listing has its header, if there is one, and the lines that print
its symbols. -/
theorem PrintsListing.firstSlice_eq {name? : Option (List Char)}
    (h : PrintsListing name? symbols ls) :
    ∃ body, Prints body symbols ∧ firstSlice false (ls.map ListingLine.of) =
      (name?.map fun name => ListingLine.header (.ofName (String.ofList name))).toList ++
        body.map ListingLine.of := by
  cases h with
  | bare h => exact ⟨ls, h, by simpa [firstSlice] using h.firstSlice_append false []⟩
  | @slice name header body _ hheader h =>
      refine ⟨body, h, ?_⟩
      have hbody := h.firstSlice_append true []
      simp only [firstSlice, List.append_nil] at hbody
      simp [hheader.of_eq, firstSlice, hbody]
  | @slices name header body _ second more hheader h hsecond =>
      refine ⟨body, h, ?_⟩
      obtain ⟨architecture, hof⟩ := ListingLine.exists_of_isHeader hsecond
      have hbody := h.firstSlice_append true ((second :: more).map ListingLine.of)
      simp only [List.map_cons, hof, firstSlice, if_true, List.append_nil] at hbody
      simp [hheader.of_eq, firstSlice, hof, hbody]

end Lines

/-- The text of lines is cut into lines that print the same. -/
theorem PrintsListing.lines_joinLines {name? : Option (List Char)} {symbols : List Symbol}
    {ls : List (List Char)} (h : PrintsListing name? symbols ls)
    (hfeed : ∀ line ∈ ls, '\n' ∉ line) :
    PrintsListing name? symbols (lines (joinLines ls)) := by
  cases ls with
  | nil =>
      -- no line at all makes a blank one
      cases h with
      | bare h => exact .bare (.noise ⟨by decide, .inl (by decide)⟩ h)
  | cons line ls => rwa [Text.lines_joinLines hfeed]

/-- **What was printed is read back.** A listing of symbols with noise between them is read as just
these symbols in order. Its architecture is the one that its header names, or the one given if it
has no header; from a second header on nothing counts. -/
theorem readListing_of_prints (architecture : Architecture) {name? : Option (List Char)}
    {symbols : List Symbol} {ls : List (List Char)} (h : PrintsListing name? symbols ls)
    (hfeed : ∀ line ∈ ls, '\n' ∉ line) :
    readListing architecture (Utf8.encode (joinLines ls)) =
      .ok {
        architecture := name?.elim architecture fun name => .ofName (String.ofList name)
        symbols } := by
  obtain ⟨body, hbody, hslice⟩ := (h.lines_joinLines hfeed).firstSlice_eq
  rw [readListing_encode, hslice]
  cases name? with
  | none => simp [hbody.symbolsOf_eq, hbody.headerArchitecture?_eq, Except.map]
  | some name => simp [symbolsOf, hbody.symbolsOf_eq, headerArchitecture?, Except.map]

/-- The listing of an image for two architectures, with a blank line between the slices. -/
theorem readListing_of_prints_two_slices :
    readListing .unknown (Utf8.encode (joinLines
      ["libM.dylib (for architecture arm64):".toList, "0000000000001F00 T _$s1M4mainyyF".toList, [],
        "libM.dylib (for architecture x86_64):".toList, "zz T rest".toList])) =
      .ok {
        architecture := .arm64
        symbols := [{ name := "_$s1M4mainyyF", offset := 0x1F00 }] } := by
  have hheader : PrintsHeader "arm64".toList "libM.dylib (for architecture arm64):".toList := by
    have hline : "libM.dylib (for architecture arm64):".toList =
        "libM.dylib ".toList ++ headerStart ++ "arm64".toList ++ headerEnd ++ [] := by
      decide +kernel
    rw [hline]
    exact .intro (by decide +kernel) (by simp)
  have hsymbol : PrintsSymbol { name := "_$s1M4mainyyF", offset := 0x1F00 }
      "0000000000001F00 T _$s1M4mainyyF".toList := by
    have hline : "0000000000001F00 T _$s1M4mainyyF".toList =
        [] ++ "0000000000001F00".toList ++ [' '] ++ ['T'] ++ [' '] ++
          "_$s1M4mainyyF".toList ++ [] := by
      decide +kernel
    rw [hline]
    have hdigits : "0000000000001F00".toList.all fun c => (hexDigit? c).isSome := by decide +kernel
    have hname : IsWord "_$s1M4mainyyF".toList :=
      isWord_of_all (by decide +kernel) (by decide +kernel)
    exact .intro (by simp) ⟨by decide +kernel, List.all_eq_true.1 hdigits, by decide +kernel⟩
      (by simp) forall_isBlank_space (by decide) (by simp) forall_isBlank_space hname (by simp)
  have hsecond : IsHeader "libM.dylib (for architecture x86_64):".toList := by decide +kernel
  have hname : Architecture.ofName (String.ofList "arm64".toList) = .arm64 := by decide +kernel
  rw [← hname]
  exact readListing_of_prints .unknown
    (.slices hheader (.symbol hsymbol (.noise ⟨by decide, .inl (by decide)⟩ .nil)) hsecond)
    (by decide +kernel)

end SwiftSurface
