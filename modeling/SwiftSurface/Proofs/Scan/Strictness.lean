import SwiftSurface.Declaration.Sample
import SwiftSurface.Proofs.Inventory.Atomicity
import SwiftSurface.Scan.Basic

/-!
# Strict and lenient scans

A strict scan is a lenient one that ends at the first refusal (`Scanner.extend_withStrict`). Symbols
that cannot be decoded and hidden functions have the same fate in both. So the two agree for as long
as nothing is refused (`scanSymbols_withStrict`), and as a refused declaration leaves the inventory
as it was, the strict scan ends with what the lenient one had before the symbol. An image that
cannot be read fails the strict scan and is one more error in the records of the lenient one.
-/

namespace SwiftSurface

/-- Why the declaration was refused, if it was and the scan went on. -/
def SymbolReport.refusal? (r : SymbolReport) : Option SlotTaken :=
  match r.fate with
  | .refused rejection => some rejection
  | _ => none

namespace Scanner

/-- The same scanner, strict or lenient. -/
def withStrict (s : Scanner) (strict : Bool) : Scanner :=
  { s with options := { s.options with strict } }

/-- The symbols of a table that a scan handles, in order. -/
def entryPoints (s : Scanner) (table : SymbolTable) : List Symbol :=
  table.symbols.filter fun symbol => s.options.isEntryPoint symbol.name

/-- Does a scan of these symbols that goes on after refusals refuse a declaration, that of `symbol`
after the symbols `before` first and for this reason? It goes on with the rest from the inventory
that it had before the symbol. -/
structure FirstRefusal (s : Scanner) (oldMangling : Bool) (i : Inventory)
    (symbols before : List Symbol) (symbol : Symbol) (rejection : SlotTaken) : Prop where
  accepted : ∀ r ∈ (s.scanSymbols oldMangling i before).2, r.refusal? = none
  refused : ∃ r rest, symbols = before ++ symbol :: rest ∧ r.symbol = symbol ∧
    r.refusal? = some rejection ∧
    let scanned := s.scanSymbols oldMangling i before
    let later := s.scanSymbols oldMangling scanned.1 rest
    s.scanSymbols oldMangling i symbols = (later.1, scanned.2 ++ r :: later.2)

variable (s : Scanner) (oldMangling : Bool)

/-! ## One symbol -/

/-- **What one symbol does to a scan.** It has the same fate in a strict scan and a lenient one, or
its declaration is refused and the inventory stays as it was. -/
theorem scanSymbol_cases (i : Inventory) (symbol : Symbol) :
    (∃ after report, report.refusal? = none ∧ report.fatal? = none ∧ ∀ strict,
      (s.withStrict strict).scanSymbol oldMangling i symbol = (after, report)) ∨
    ∃ rejection events, ∀ strict, (s.withStrict strict).scanSymbol oldMangling i symbol =
      (i, { symbol, fate := .ofFiling strict (some rejection), events }) := by
  cases hdecoded : s.decoder symbol.name oldMangling symbol.offset with
  | error error =>
      refine .inl ⟨i, { symbol, fate := .undecoded error }, rfl, rfl, fun strict => ?_⟩
      simp [scanSymbol, withStrict, hdecoded]
  | ok d =>
      by_cases hhidden : s.options.skipHidden && d.function?.any (·.isHidden)
      · refine .inl ⟨i, { symbol, fate := .hidden }, rfl, rfl, fun strict => ?_⟩
        simp only [scanSymbol, withStrict, hdecoded, hhidden, if_true]
      · cases hrejection : (i.add d).rejection with
        | none =>
            refine .inl ⟨(i.add d).after, { symbol, fate := .filed, events := (i.add d).events },
              rfl, rfl, fun strict => ?_⟩
            simp [scanSymbol, withStrict, hdecoded, hhidden, hrejection, Fate.ofFiling]
        | some rejection =>
            refine .inr ⟨rejection, (i.add d).events, fun strict => ?_⟩
            have hkept := i.add_keeps d (by simp [hrejection])
            simp [scanSymbol, withStrict, hdecoded, hhidden, hrejection, hkept]

/-! ## Scans of several symbols -/

variable {s oldMangling} {i after : Inventory} {symbol : Symbol} {report : SymbolReport}

/-- A scan that goes on after a symbol scans the rest from there. -/
theorem scanSymbols_cons_of_continues
    (h : s.scanSymbol oldMangling i symbol = (after, report)) (hfatal : report.fatal? = none)
    (rest : List Symbol) :
    s.scanSymbols oldMangling i (symbol :: rest) =
      ((s.scanSymbols oldMangling after rest).1,
        report :: (s.scanSymbols oldMangling after rest).2) := by
  simp [scanSymbols, h, hfatal]

theorem scanSymbols_cons_of_fatal {rejection : SlotTaken}
    (h : s.scanSymbol oldMangling i symbol = (after, report))
    (hfatal : report.fatal? = some rejection) (rest : List Symbol) :
    s.scanSymbols oldMangling i (symbol :: rest) = (after, [report]) := by
  simp [scanSymbols, h, hfatal]

/-- What is refused first after a symbol that is not refused is what is refused first. -/
theorem FirstRefusal.cons {symbols before : List Symbol} {refused : Symbol} {rejection : SlotTaken}
    (h : s.FirstRefusal oldMangling after symbols before refused rejection)
    (hscan : s.scanSymbol oldMangling i symbol = (after, report)) (hfatal : report.fatal? = none)
    (hrefusal : report.refusal? = none) :
    s.FirstRefusal oldMangling i (symbol :: symbols) (symbol :: before) refused rejection := by
  obtain ⟨haccepted, r, rest, hsymbols, hsymbol, hr, hreports⟩ := h
  refine ⟨?_, r, rest, by rw [hsymbols]; rfl, hsymbol, hr, ?_⟩
  · rw [scanSymbols_cons_of_continues hscan hfatal]
    exact List.forall_mem_cons.2 ⟨hrefusal, haccepted⟩
  · simp only [scanSymbols_cons_of_continues hscan hfatal, hreports, List.cons_append]

variable (s oldMangling)

/-- A lenient scan never ends early. -/
theorem fatal?_of_lenient (i : Inventory) (symbols : List Symbol) :
    ∀ r ∈ ((s.withStrict false).scanSymbols oldMangling i symbols).2, r.fatal? = none := by
  induction symbols generalizing i with
  | nil => simp [scanSymbols]
  | cons symbol rest ih =>
      rcases s.scanSymbol_cases oldMangling i symbol with
        ⟨after, report, -, hfatal, hscan⟩ | ⟨rejection, events, hscan⟩
      · rw [scanSymbols_cons_of_continues (hscan false) hfatal]
        exact List.forall_mem_cons.2 ⟨hfatal, ih after⟩
      · rw [scanSymbols_cons_of_continues (hscan false) rfl]
        exact List.forall_mem_cons.2 ⟨rfl, ih i⟩

/-- **A strict scan of symbols is the lenient one, or ends at its first refusal**, with what the
lenient one had before the symbol and a last report that is fatal. -/
theorem scanSymbols_withStrict (i : Inventory) (symbols : List Symbol) :
    ((∀ r ∈ ((s.withStrict false).scanSymbols oldMangling i symbols).2, r.refusal? = none) ∧
      (s.withStrict true).scanSymbols oldMangling i symbols =
        (s.withStrict false).scanSymbols oldMangling i symbols) ∨
    ∃ before symbol rejection events,
      (s.withStrict false).FirstRefusal oldMangling i symbols before symbol rejection ∧
      (s.withStrict true).scanSymbols oldMangling i symbols =
        (((s.withStrict false).scanSymbols oldMangling i before).1,
          ((s.withStrict false).scanSymbols oldMangling i before).2 ++
            [{ symbol, fate := .fatal rejection, events }]) := by
  induction symbols generalizing i with
  | nil => exact .inl ⟨by simp [scanSymbols], rfl⟩
  | cons symbol rest ih =>
      rcases s.scanSymbol_cases oldMangling i symbol with
        ⟨after, report, hrefusal, hfatal, hscan⟩ | ⟨rejection, events, hscan⟩
      · rw [scanSymbols_cons_of_continues (hscan true) hfatal,
          scanSymbols_cons_of_continues (hscan false) hfatal]
        rcases ih after with ⟨hnone, hsame⟩ |
          ⟨before, refused, rejection, events, hfirst, hstrict⟩
        · exact .inl ⟨List.forall_mem_cons.2 ⟨hrefusal, hnone⟩, by rw [hsame]⟩
        · refine .inr ⟨symbol :: before, refused, rejection, events,
            hfirst.cons (hscan false) hfatal hrefusal, ?_⟩
          rw [hstrict, scanSymbols_cons_of_continues (hscan false) hfatal]
          rfl
      · -- the first symbol is refused, so nothing was scanned before
        refine .inr ⟨[], symbol, rejection, events, ⟨by simp [scanSymbols], ?_⟩,
          scanSymbols_cons_of_fatal (hscan true) rfl rest⟩
        exact ⟨_, rest, rfl, rfl, rfl, scanSymbols_cons_of_continues (hscan false) rfl rest⟩

/-! ## Scans of an image -/

/-- The failure that the fatal report among these tells of. -/
def failureOf (reports : List SymbolReport) : Option ScanError :=
  reports.findSome? fun r => r.fatal?.map (ScanError.refused r.symbol.name)

theorem failureOf_eq_none {reports : List SymbolReport} (h : ∀ r ∈ reports, r.fatal? = none) :
    failureOf reports = none := by
  rw [failureOf, List.findSome?_eq_none_iff]
  intro r hr
  rw [h r hr, Option.map_none]

theorem failureOf_concat_fatal {reports : List SymbolReport} (h : ∀ r ∈ reports, r.fatal? = none)
    (symbol : Symbol) (rejection : SlotTaken) (events : List FilingEvent) :
    failureOf (reports ++ [{ symbol, fate := .fatal rejection, events }]) =
      some (.refused symbol.name rejection) := by
  have hnone := failureOf_eq_none h
  rw [failureOf] at hnone ⊢
  rw [List.findSome?_append, hnone]
  rfl

/-- What the scan of an image that can be read leaves is read off the scan of its entry points. -/
theorem extend_of_readable {bytes : List UInt8} {table : SymbolTable}
    (hread : s.reader bytes = .ok table) (strict : Bool) (i : Inventory) (ds : Diagnostics)
    (source : String) :
    let scan := (s.withStrict strict).extend i ds bytes source
    let scanned := (s.withStrict strict).scanSymbols
      (s.options.showsOldMangling (table.symbols.map (·.name)))
      { i with architecture := table.architecture } (s.entryPoints table)
    scan.inventory = scanned.1 ∧
      scan.diagnostics.records = ds.records ++ scanned.2.filterMap (·.diagnostic?) ∧
      scan.failure = failureOf scanned.2 := by
  have hread' : (s.withStrict strict).reader bytes = .ok table := hread
  simp only [extend, hread']
  exact ⟨rfl, rfl, rfl⟩

/-- Where something is refused first, something is refused. -/
theorem FirstRefusal.exists_refusal {i : Inventory} {symbols before : List Symbol} {symbol : Symbol}
    {rejection : SlotTaken} {s : Scanner} {oldMangling : Bool}
    (h : s.FirstRefusal oldMangling i symbols before symbol rejection) :
    ∃ r ∈ (s.scanSymbols oldMangling i symbols).2, r.refusal? ≠ none := by
  obtain ⟨r, rest, -, -, hr, hscan⟩ := h.refused
  exact ⟨r, by simp [hscan], by simp [hr]⟩

/-- **Strict and lenient scans agree up to the first refusal.** An image that cannot be read fails
the strict scan, which records nothing, and is one more error behind the records of the lenient one;
neither changes the inventory. Otherwise the strict scan succeeds just if the lenient one refuses
nothing, and both leave the same; if the lenient one refuses a declaration, the strict scan fails
for the first one and leaves the inventory and the records that the lenient scan had before its
symbol. -/
theorem extend_withStrict (s : Scanner) (i : Inventory) (ds : Diagnostics) (bytes : List UInt8)
    (source : String) :
    let strict := (s.withStrict true).extend i ds bytes source
    let lenient := (s.withStrict false).extend i ds bytes source
    (∀ error, s.reader bytes = .error error →
      (strict.failure = some (.unreadable source error) ∧ strict.inventory = i ∧
        strict.diagnostics = ds) ∧
      lenient.failure = none ∧ lenient.inventory = i ∧
        lenient.diagnostics.records = ds.records ++
          [{ severity := .error, symbol := source, message := error.message }]) ∧
    ∀ table, s.reader bytes = .ok table →
      let oldMangling := s.options.showsOldMangling (table.symbols.map (·.name))
      let start := { i with architecture := table.architecture }
      let symbols := s.entryPoints table
      let scanned := (s.withStrict false).scanSymbols oldMangling start
      (lenient.failure = none ∧ lenient.inventory = (scanned symbols).1 ∧
        lenient.diagnostics.records =
          ds.records ++ (scanned symbols).2.filterMap (·.diagnostic?)) ∧
      (strict.failure = none ↔ ∀ r ∈ (scanned symbols).2, r.refusal? = none) ∧
      (strict.failure = none →
        strict.inventory = lenient.inventory ∧ strict.diagnostics = lenient.diagnostics) ∧
      ((∃ r ∈ (scanned symbols).2, r.refusal? ≠ none) → ∃ before symbol rejection,
        (s.withStrict false).FirstRefusal oldMangling start symbols before symbol rejection ∧
        strict.failure = some (.refused symbol.name rejection) ∧
        strict.inventory = (scanned before).1 ∧
        strict.diagnostics.records =
          ds.records ++ (scanned before).2.filterMap (·.diagnostic?)) := by
  intro strict lenient
  refine ⟨fun error hread => ?_, fun table hread => ?_⟩
  · have hread' (b : Bool) : (s.withStrict b).reader bytes = .error error := hread
    simp only [strict, lenient, extend, hread']
    exact ⟨⟨rfl, rfl, rfl⟩, rfl, rfl, rfl⟩
  · intro oldMangling start symbols scanned
    obtain ⟨hinventory, hrecords, hfailure⟩ := s.extend_of_readable hread true i ds source
    obtain ⟨hinventory', hrecords', hfailure'⟩ := s.extend_of_readable hread false i ds source
    have hcontinues := s.fatal?_of_lenient oldMangling start
    refine ⟨⟨hfailure'.trans (failureOf_eq_none (hcontinues symbols)), hinventory', hrecords'⟩, ?_⟩
    rcases s.scanSymbols_withStrict oldMangling start symbols with
      ⟨hnone, hsame⟩ | ⟨before, symbol, rejection, events, hfirst, hscan⟩
    · rw [hsame] at hinventory hrecords hfailure
      have hok : strict.failure = none := hfailure.trans (failureOf_eq_none (hcontinues symbols))
      have hdiagnostics : strict.diagnostics = lenient.diagnostics :=
        congrArg Diagnostics.mk (hrecords.trans hrecords'.symm)
      refine ⟨iff_of_true hok hnone, fun _ => ⟨hinventory.trans hinventory'.symm, hdiagnostics⟩,
        fun ⟨r, hr, hrefused⟩ => ?_⟩
      exact absurd (hnone r hr) hrefused
    · rw [hscan] at hinventory hrecords hfailure
      have hfails : strict.failure = some (.refused symbol.name rejection) :=
        hfailure.trans (failureOf_concat_fatal (hcontinues before) symbol rejection events)
      obtain ⟨r, hr, hrefused⟩ := hfirst.exists_refusal
      refine ⟨iff_of_false (by simp [hfails]) fun hnone => hrefused (hnone r hr),
        fun hok => absurd hok (by simp [hfails]),
        fun _ => ⟨before, symbol, rejection, hfirst, hfails, hinventory, ?_⟩⟩
      -- the last report of the strict scan is fatal and no diagnostic
      simpa [SymbolReport.diagnostic?] using hrecords

/-- Behind a symbol that cannot be decoded a second metadata accessor of a class ends the strict
scan; the lenient one refuses it and goes on. An image that cannot be read ends the strict scan too,
and the lenient one records it behind what was there. -/
theorem extend_withStrict_second_accessor :
    let table : SymbolTable := { symbols := [⟨"_$sA", 1⟩, ⟨"_$sB", 2⟩, ⟨"_$sC", 3⟩] }
    let s : Scanner :=
      { reader := .fixed table
        decoder := fun name _ _ =>
          if name = "_$sA" then .error (.malformed "unknown")
          else .ok (.function (Sample.classConstructor "M" "Foo" name)) }
    let taken : SlotTaken := { slot := .classConstructor, owner := "M.Foo", member := none }
    let fault : ImageError := .malformed 2 (.typeLetter "text")
    let broken : Scanner := { s with reader := fun _ => .error fault }
    let earlier : Diagnostics := ⟨[⟨.warning, "_$sD", "unsupported feature `macro`"⟩]⟩
    (((s.withStrict true).extend {} {} [] "M").failure = some (.refused "_$sC" taken) ∧
      ((s.withStrict false).extend {} {} [] "M").failure = none ∧
      ∃ r ∈ ((s.withStrict false).scanSymbols false {} table.symbols).2, r.refusal? ≠ none) ∧
    ((broken.withStrict true).extend {} earlier [] "M").failure = some (.unreadable "M" fault) ∧
      ((broken.withStrict true).extend {} earlier [] "M").diagnostics.records =
        [⟨.warning, "_$sD", "unsupported feature `macro`"⟩] ∧
      ((broken.withStrict false).extend {} earlier [] "M").failure = none ∧
      ((broken.withStrict false).extend {} earlier [] "M").diagnostics.records =
        [⟨.warning, "_$sD", "unsupported feature `macro`"⟩,
          ⟨.error, "M", "line 2: expected a single symbol type letter, got `text`"⟩] := by
  intro table s taken fault broken earlier
  obtain ⟨⟨hunreadable, -, hkept⟩, hgoesOn, -, hrecorded⟩ :=
    (extend_withStrict broken {} earlier [] "M").1 fault rfl
  have hmessage : fault.message = "line 2: expected a single symbol type letter, got `text`" := by
    decide
  rw [hmessage] at hrecorded
  refine ⟨?_, hunreadable, congrArg Diagnostics.records hkept, hgoesOn, hrecorded⟩
  have hfails : ((s.withStrict true).extend {} {} [] "M").failure =
      some (.refused "_$sC" taken) := by
    decide
  have hmangling : s.options.showsOldMangling (table.symbols.map (·.name)) = false := by decide
  have hentries : s.entryPoints table = table.symbols := by decide
  obtain ⟨⟨hlenient, -, -⟩, hok, -⟩ := (extend_withStrict s {} {} [] "M").2 table rfl
  rw [hmangling, hentries] at hok
  refine ⟨hfails, hlenient, ?_⟩
  by_contra hnone
  have hstrict := hok.2 (by simpa using hnone)
  rw [hfails] at hstrict
  exact absurd hstrict (by simp)

end Scanner

end SwiftSurface
