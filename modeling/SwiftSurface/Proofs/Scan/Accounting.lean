import SwiftSurface.Proofs.Inventory.Runs
import SwiftSurface.Proofs.Scan.Strictness

/-!
# Every entry point is accounted for

A lenient scan of an image that can be read handles each entry point once, in the order of the
symbol table, and each has one fate: its declaration is filed, it is left out as hidden, or one
diagnostic names it (`Scanner.extend_accounts`). `Fares` says how one symbol fares at an inventory,
and `Accounts` how the symbols of a scan fare one after another; both are told by the decoder, the
options and what filing says, without the scan.

Symbols that are no entry points count only where they show the mangling, so two tables with the
same symbols that bear on a scan leave the same.
-/

namespace SwiftSurface

/-- Does this symbol matter to a scan, as an entry point or as a mark of the older mangling? -/
def ScanOptions.concerns (o : ScanOptions) (name : String) : Bool :=
  o.isEntryPoint name || Text.startsWith name o.oldManglingMarker

namespace Scanner

variable (s : Scanner) (oldMangling : Bool)

/-- Is this declaration left out because its name is hidden? -/
def leavesOut (d : Declaration) : Bool :=
  s.options.skipHidden && d.function?.any (·.isHidden)

/-- The declaration of a symbol that is to be filed, if there is one. -/
def declaration? (symbol : Symbol) : Option Declaration :=
  match s.decoder symbol.name oldMangling symbol.offset with
  | .ok d => if s.leavesOut d then none else some d
  | .error _ => none

/-- How an entry point fares in a lenient scan that has come to the inventory `i`: its fate and the
diagnostics that it leaves. -/
inductive Fares (i : Inventory) (symbol : Symbol) : Fate → List Diagnostic → Prop where
  | unsupported {feature : String}
      (decoded : s.decoder symbol.name oldMangling symbol.offset =
        .error (.unsupported feature)) :
      Fares i symbol (.undecoded (.unsupported feature))
        [⟨.warning, symbol.name, (DecodeError.unsupported feature).message⟩]
  | malformed {reason : String}
      (decoded : s.decoder symbol.name oldMangling symbol.offset = .error (.malformed reason)) :
      Fares i symbol (.undecoded (.malformed reason))
        [⟨.error, symbol.name, (DecodeError.malformed reason).message⟩]
  | hidden {d : Declaration}
      (decoded : s.decoder symbol.name oldMangling symbol.offset = .ok d)
      (left : s.leavesOut d = true) :
      Fares i symbol .hidden []
  | refused {d : Declaration} {rejection : SlotTaken}
      (decoded : s.decoder symbol.name oldMangling symbol.offset = .ok d)
      (kept : s.leavesOut d = false) (rejected : (i.add d).rejection = some rejection) :
      Fares i symbol (.refused rejection) [⟨.error, symbol.name, rejection.message⟩]
  | filed {d : Declaration}
      (decoded : s.decoder symbol.name oldMangling symbol.offset = .ok d)
      (kept : s.leavesOut d = false) (accepted : (i.add d).rejection = none) :
      Fares i symbol .filed []

/-- How these entry points fare one after another from the inventory `i`: their fates, and the
diagnostics that they leave in order. Each finds the inventory with the declarations of those before
it. -/
inductive Accounts : Inventory → List Symbol → List Fate → List Diagnostic → Prop where
  | nil {i : Inventory} : Accounts i [] [] []
  | cons {i : Inventory} {symbol : Symbol} {rest : List Symbol} {fate : Fate} {fates : List Fate}
      {left more : List Diagnostic} (first : s.Fares oldMangling i symbol fate left)
      (others : Accounts (i.addAll (s.declaration? oldMangling symbol).toList) rest fates more) :
      Accounts i (symbol :: rest) (fate :: fates) (left ++ more)

/-! ## One fate each -/

section

variable {s oldMangling} {i : Inventory} {symbol : Symbol} {fate fate' : Fate}
  {left left' : List Diagnostic}

/-- A symbol fares in one way. -/
theorem Fares.unique (h : s.Fares oldMangling i symbol fate left)
    (h' : s.Fares oldMangling i symbol fate' left') : fate' = fate ∧ left' = left := by
  cases h <;> cases h' <;> simp_all

/-- A symbol is filed, or hidden, or leaves one diagnostic. -/
theorem Fares.count (h : s.Fares oldMangling i symbol fate left) :
    [fate].count .filed + ([fate].count .hidden + left.length) = 1 := by
  cases h <;> rfl

/-- The diagnostics of a symbol name it. -/
theorem Fares.names (h : s.Fares oldMangling i symbol fate left) :
    ∀ d ∈ left, d.symbol = symbol.name := by
  cases h <;> simp

variable {symbols : List Symbol} {fates fates' : List Fate} {all all' : List Diagnostic}

theorem Accounts.unique (h : s.Accounts oldMangling i symbols fates all)
    (h' : s.Accounts oldMangling i symbols fates' all') : fates' = fates ∧ all' = all := by
  induction h generalizing fates' all' with
  | nil =>
      cases h'
      exact ⟨rfl, rfl⟩
  | cons first _ ih =>
      obtain _ | ⟨first', others'⟩ := h'
      obtain ⟨rfl, rfl⟩ := first.unique first'
      obtain ⟨rfl, rfl⟩ := ih others'
      exact ⟨rfl, rfl⟩

/-- The symbols that are filed and those that are not are all symbols. -/
theorem Accounts.count (h : s.Accounts oldMangling i symbols fates all) :
    fates.count .filed + (fates.count .hidden + all.length) = symbols.length := by
  induction h with
  | nil => rfl
  | @cons i symbol rest fate fates left more first others ih =>
      have hfirst := first.count
      have hcount (a : Fate) : (fate :: fates).count a = [fate].count a + fates.count a := by
        rw [← List.count_append, List.singleton_append]
      simp only [hcount, List.length_append, List.length_cons]
      omega

end

/-! ## The scan -/

variable {s} (hlenient : s.options.strict = false)
include hlenient

/-- What a lenient scan does with one symbol. -/
theorem scanSymbol_fares (i : Inventory) (symbol : Symbol) :
    ∃ report, s.scanSymbol oldMangling i symbol =
        (i.addAll (s.declaration? oldMangling symbol).toList, report) ∧
      report.symbol = symbol ∧ report.fatal? = none ∧
      s.Fares oldMangling i symbol report.fate report.diagnostic?.toList := by
  cases hdecoded : s.decoder symbol.name oldMangling symbol.offset with
  | error error =>
      refine ⟨{ symbol, fate := .undecoded error }, ?_, rfl, rfl, ?_⟩
      · simp [scanSymbol, declaration?, hdecoded]
      · cases error with
        | unsupported feature => exact .unsupported hdecoded
        | malformed reason => exact .malformed hdecoded
  | ok d =>
      cases hleft : s.leavesOut d with
      | true =>
          refine ⟨{ symbol, fate := .hidden }, ?_, rfl, rfl, .hidden hdecoded hleft⟩
          simp only [scanSymbol, declaration?, hdecoded, hleft, if_true]
          rw [leavesOut] at hleft
          simp [hleft]
      | false =>
          refine ⟨{
            symbol
            fate := .ofFiling false (i.add d).rejection
            events := (i.add d).events }, ?_, rfl, ?_⟩
          · simp only [scanSymbol, declaration?, hdecoded, hleft, hlenient]
            rw [leavesOut] at hleft
            simp [hleft]
          · cases hrejection : (i.add d).rejection with
            | none => exact ⟨rfl, .filed hdecoded hleft hrejection⟩
            | some rejection => exact ⟨rfl, .refused hdecoded hleft hrejection⟩

/-- **A lenient scan accounts for every symbol**: it leaves the inventory with their declarations
filed in order, and a report on each of them, which tells how it fared. -/
theorem scanSymbols_accounts (i : Inventory) (symbols : List Symbol) :
    let scanned := s.scanSymbols oldMangling i symbols
    scanned.1 = i.addAll (symbols.filterMap (s.declaration? oldMangling)) ∧
      scanned.2.map (·.symbol) = symbols ∧
      s.Accounts oldMangling i symbols (scanned.2.map (·.fate))
        (scanned.2.filterMap (·.diagnostic?)) := by
  induction symbols generalizing i with
  | nil => exact ⟨rfl, rfl, .nil⟩
  | cons symbol rest ih =>
      obtain ⟨report, hscan, hsymbol, hfatal, hfares⟩ :=
        scanSymbol_fares oldMangling hlenient i symbol
      obtain ⟨hinventory, hsymbols, haccounts⟩ :=
        ih (i.addAll (s.declaration? oldMangling symbol).toList)
      have hleft (rs : List SymbolReport) : (report :: rs).filterMap (·.diagnostic?) =
          report.diagnostic?.toList ++ rs.filterMap (·.diagnostic?) := by
        cases hdiagnostic : report.diagnostic? <;> simp [hdiagnostic]
      rw [scanSymbols_cons_of_continues hscan hfatal]
      refine ⟨?_, by simp [hsymbol, hsymbols], hleft _ ▸ .cons hfares haccounts⟩
      rw [hinventory]
      cases hdeclaration : s.declaration? oldMangling symbol <;>
        simp [hdeclaration]

/-- What is read off the reports of a lenient scan: who was called, what is recorded and the line at
the end, which counts the filed symbols and the others. -/
theorem extend_of_lenient {bytes : List UInt8} {table : SymbolTable}
    (hread : s.reader bytes = .ok table) (i : Inventory) (ds : Diagnostics) (source : String) :
    let scan := s.extend i ds bytes source
    let oldMangling := s.options.showsOldMangling (table.symbols.map (·.name))
    let scanned := s.scanSymbols oldMangling { i with architecture := table.architecture }
      (s.entryPoints table)
    scan.failure = none ∧
      scan.calls = scanned.2.map (fun r => { symbol := r.symbol, oldMangling }) ∧
      scan.inventory = scanned.1 ∧
      scan.diagnostics.records = ds.records ++ scanned.2.filterMap (·.diagnostic?) ∧
      scan.log.getLast? = some (summary source table scanned.2) := by
  intro scan oldMangling scanned
  have hsame : s.withStrict false = s := by
    rw [withStrict, ← hlenient]
  have hfatal := s.fatal?_of_lenient oldMangling { i with architecture := table.architecture }
    (s.entryPoints table)
  rw [hsame] at hfatal
  have hfailure : failureOf scanned.2 = none := failureOf_eq_none hfatal
  have hscan : scan = s.scanTable i ds table source := by
    simp only [scan, extend, hread]
  rw [hscan]
  have hlast (lines : List Log.Line) :
      (lines ++ if (failureOf scanned.2).isNone then [summary source table scanned.2]
        else []).getLast? = some (summary source table scanned.2) := by
    rw [hfailure]
    exact List.getLast?_concat
  exact ⟨hfailure, rfl, rfl, rfl, hlast _⟩

omit hlenient

/-! ## Symbols that do not matter -/

/-- The entry points and the mangling are read off the symbols that matter. -/
theorem entryPoints_eq_of_concerns {table table' : SymbolTable}
    (h : table'.symbols.filter (fun symbol => s.options.concerns symbol.name) =
      table.symbols.filter fun symbol => s.options.concerns symbol.name) :
    s.entryPoints table' = s.entryPoints table ∧
      s.options.showsOldMangling (table'.symbols.map (·.name)) =
        s.options.showsOldMangling (table.symbols.map (·.name)) := by
  have hentries (table : SymbolTable) : s.entryPoints table =
      (table.symbols.filter fun symbol => s.options.concerns symbol.name).filter
        fun symbol => s.options.isEntryPoint symbol.name := by
    rw [entryPoints, List.filter_filter]
    refine List.filter_congr fun symbol _ => ?_
    simp +contextual [ScanOptions.concerns]
  have hmangling (table : SymbolTable) :
      s.options.showsOldMangling (table.symbols.map (·.name)) =
        (table.symbols.filter fun symbol => s.options.concerns symbol.name).any
          fun symbol => Text.startsWith symbol.name s.options.oldManglingMarker := by
    rw [ScanOptions.showsOldMangling, List.any_map, List.any_filter]
    refine List.any_congr rfl fun symbol => ?_
    simp +contextual [ScanOptions.concerns]
  exact ⟨by rw [hentries, hentries, h], by rw [hmangling, hmangling, h]⟩

/-- What becomes of symbols has nothing to do with how images are read. -/
theorem scanSymbols_withReader (reader : ImageReader) (i : Inventory) (symbols : List Symbol) :
    ({ s with reader } : Scanner).scanSymbols oldMangling i symbols =
      s.scanSymbols oldMangling i symbols := by
  induction symbols generalizing i with
  | nil => rfl
  | cons symbol rest ih =>
      have hsymbol : ({ s with reader } : Scanner).scanSymbol oldMangling i symbol =
          s.scanSymbol oldMangling i symbol := rfl
      simp only [scanSymbols, hsymbol, ih]

/-! ## The account of a scan -/

/-- The line at the end of a scan counts what was filed and what was not. -/
theorem summary_eq (source : String) (table : SymbolTable) {reports : List SymbolReport}
    {filed skipped : Nat} (hfiled : reports.countP (·.isFiled) = filed)
    (hall : filed + skipped = reports.length) :
    summary source table reports = ⟨.info, source ++ " (" ++ table.architecture.render ++ "): "
      ++ toString filed ++ " declarations filed, " ++ toString skipped
      ++ " symbols skipped out of " ++ toString table.symbols.length⟩ := by
  have hskipped : reports.length - filed = skipped := by omega
  rw [summary, hfiled, hskipped]

/-- **Every entry point is accounted for once.** A lenient scan of an image that can be read decodes
the entry points in order, all with one mangling. It leaves the inventory with their declarations
filed in order, and the diagnostics of those that are neither filed nor hidden behind the earlier
ones. The line at its end counts the filed and the others, which together are all entry points. A
table with the same symbols that matter leaves the same. -/
theorem extend_accounts (s : Scanner) (hlenient : s.options.strict = false) {bytes : List UInt8}
    {table : SymbolTable} (hread : s.reader bytes = .ok table) (i : Inventory) (ds : Diagnostics)
    (source : String) :
    let scan := s.extend i ds bytes source
    let oldMangling := s.options.showsOldMangling (table.symbols.map (·.name))
    let start := { i with architecture := table.architecture }
    let symbols := s.entryPoints table
    scan.failure = none ∧
    (oldMangling = true ↔ ∃ symbol ∈ table.symbols,
      s.options.oldManglingMarker.toList <+: symbol.name.toList) ∧
    scan.calls = symbols.map (fun symbol => { symbol, oldMangling }) ∧
    scan.inventory = start.addAll (symbols.filterMap (s.declaration? oldMangling)) ∧
    (∃ fates left, s.Accounts oldMangling start symbols fates left ∧
      (∀ fates' left', s.Accounts oldMangling start symbols fates' left' →
        fates' = fates ∧ left' = left) ∧
      scan.diagnostics.records = ds.records ++ left ∧
      ∃ filed skipped : Nat, scan.log.getLast? = some ⟨.info, source ++ " ("
          ++ table.architecture.render ++ "): " ++ toString filed ++ " declarations filed, "
          ++ toString skipped ++ " symbols skipped out of " ++ toString table.symbols.length⟩ ∧
        filed = fates.count .filed ∧ skipped = fates.count .hidden + left.length ∧
        filed + skipped = symbols.length) ∧
    ∀ (reader : ImageReader) (bytes' : List UInt8) (table' : SymbolTable) (source' : String),
      reader bytes' = .ok table' → table'.architecture = table.architecture →
      table'.symbols.filter (fun symbol => s.options.concerns symbol.name) =
        table.symbols.filter (fun symbol => s.options.concerns symbol.name) →
      let scan' := ({ s with reader } : Scanner).extend i ds bytes' source'
      scan'.inventory = scan.inventory ∧ scan'.diagnostics = scan.diagnostics := by
  intro scan oldMangling start symbols
  obtain ⟨hfailure, hcalls, hinventory, hdiagnostics, hlog⟩ :=
    extend_of_lenient hlenient hread i ds source
  obtain ⟨hafter, hsymbols, haccounts⟩ :=
    scanSymbols_accounts oldMangling hlenient start symbols
  refine ⟨hfailure, ?_, ?_, hinventory.trans hafter, ?_, ?_⟩
  · simp [oldMangling, ScanOptions.showsOldMangling, Text.startsWith]
  · conv_rhs => rw [← hsymbols, List.map_map]
    exact hcalls
  · have hcount := haccounts.count
    have hfiled : (s.scanSymbols oldMangling start symbols).2.countP (·.isFiled) =
        ((s.scanSymbols oldMangling start symbols).2.map (·.fate)).count .filed := by
      rw [List.count, List.countP_map]
      rfl
    have hlength := congrArg List.length hsymbols
    rw [List.length_map] at hlength
    exact ⟨_, _, haccounts, fun _ _ h => haccounts.unique h, hdiagnostics, _, _,
      hlog.trans (congrArg some (summary_eq source table hfiled (hcount.trans hlength.symm))),
      rfl, rfl, hcount⟩
  · intro reader bytes' table' source' hread' harchitecture hconcerns scan'
    obtain ⟨hentries, hmangling⟩ := entryPoints_eq_of_concerns hconcerns
    obtain ⟨-, -, hinventory', hdiagnostics', -⟩ :=
      extend_of_lenient (s := { s with reader }) hlenient hread' i ds source'
    have hscanned : ({ s with reader } : Scanner).scanSymbols
        (s.options.showsOldMangling (table'.symbols.map (·.name)))
        { i with architecture := table'.architecture } (s.entryPoints table') =
        s.scanSymbols oldMangling start symbols := by
      rw [scanSymbols_withReader, hentries, hmangling, harchitecture]
    refine ⟨?_, ?_⟩
    · exact hinventory'.trans ((congrArg Prod.fst hscanned).trans hinventory.symm)
    · have hrecords : scan'.diagnostics.records = scan.diagnostics.records := by
        rw [hdiagnostics, ← hscanned]
        exact hdiagnostics'
      exact congrArg Diagnostics.mk hrecords

/-- One symbol for each fate, behind one that is no entry point. -/
theorem extend_accounts_five_fates :
    let table : SymbolTable := { symbols := [⟨"_main", 0⟩, ⟨"_$sA", 1⟩, ⟨"_$sB", 2⟩, ⟨"_$sC", 3⟩,
      ⟨"_$sD", 4⟩, ⟨"_$sE", 5⟩] }
    let s : Scanner :=
      { reader := .fixed table
        decoder := fun name _ _ =>
          if name = "_$sA" then .error (.unsupported "macro")
          else if name = "_$sB" then .error (.malformed "unknown")
          else if name = "_$sE" then .ok (.function (Sample.method "M" "Foo" "..." name))
          else .ok (.function (Sample.classConstructor "M" "Foo" name)) }
    let taken : SlotTaken := { slot := .classConstructor, owner := "M.Foo", member := none }
    s.options.strict = false ∧ s.reader [] = .ok table ∧
      (s.extend {} {} [] "M").diagnostics.records =
        [⟨.warning, "_$sA", "unsupported feature `macro`"⟩,
          ⟨.error, "_$sB", "malformed symbol: unknown"⟩, ⟨.error, "_$sD", taken.message⟩] ∧
      (s.extend {} {} [] "M").log.getLast? =
        some ⟨.info, "M (unknown): 1 declarations filed, 4 symbols skipped out of 6"⟩ := by
  intro table s taken
  have hread : s.reader [] = .ok table := rfl
  have hmangling : s.options.showsOldMangling (table.symbols.map (·.name)) = false := by decide
  have hentries : s.entryPoints table = table.symbols.tail := by decide
  have haccounts : s.Accounts false {} table.symbols.tail
      [.undecoded (.unsupported "macro"), .undecoded (.malformed "unknown"), .filed,
        .refused taken, .hidden] _ :=
    .cons (.unsupported rfl) (.cons (.malformed rfl) (.cons
      (.filed (d := .function (Sample.classConstructor "M" "Foo" "_$sC")) rfl rfl (by decide))
      (.cons (.refused (d := .function (Sample.classConstructor "M" "Foo" "_$sD")) rfl rfl
        (by decide))
      (.cons (.hidden (d := .function (Sample.method "M" "Foo" "..." "_$sE")) rfl (by decide))
        .nil))))
  obtain ⟨-, -, -, -, ⟨fates, left, -, hunique, hdiagnostics, filed, skipped, hlog, hfiled,
    hskipped, -⟩, -⟩ := extend_accounts s rfl hread {} {} "M"
  rw [hmangling, hentries] at hunique
  obtain ⟨rfl, rfl⟩ := hunique _ _ haccounts
  refine ⟨rfl, hread, hdiagnostics, hlog.trans ?_⟩
  rw [hfiled, hskipped]
  decide +kernel

end Scanner

end SwiftSurface
