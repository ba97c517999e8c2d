import SwiftSurface.Image.Symbols
import SwiftSurface.Inventory.Basic
import SwiftSurface.Scan.Diagnostics
import SwiftSurface.Scan.Options

/-!
# Scanning images

A `Scanner` reads the symbol table of an image, decodes every entry point and files the declarations
in an inventory. Each entry point has one `Fate`: it was filed, left out because its name is hidden,
or not processed because it could not be decoded or was refused. What a scan tells about itself, its
diagnostics and log lines, is read off the fates.

A lenient scan goes on after a refusal and records it. A strict one ends there, and also fails on an
image that cannot be read.
-/

namespace SwiftSurface

/-! ## Decoders -/

/-- Why a symbol has no declaration. -/
inductive DecodeError where
  /-- The symbol uses a feature of the language that has no model. -/
  | unsupported (feature : String)
  | malformed (reason : String)
deriving DecidableEq

namespace DecodeError

/-- The reason in words. -/
def message : DecodeError → String
  | unsupported feature => "unsupported feature `" ++ feature ++ "`"
  | malformed reason => "malformed symbol: " ++ reason

/-- An unsupported feature is expected to occur; a malformed symbol is not. -/
def severity : DecodeError → Severity
  | unsupported _ => .warning
  | malformed _ => .error

end DecodeError

/-- Decodes a mangled name, of the older mangling or not, at an offset. -/
abbrev SymbolDecoder := (mangled : String) → (oldMangling : Bool) → (offset : UInt64) →
  Except DecodeError Declaration

/-- The decoder that looks a symbol up. What it finds is moved to the offset of the symbol, and a
symbol that it does not find is malformed. -/
def SymbolDecoder.ofLookup (lookup : Bool → String → Option (Except DecodeError Declaration)) :
    SymbolDecoder := fun mangled oldMangling offset =>
  match lookup oldMangling mangled with
  | some found => found.map (·.withOffset offset)
  | none => .error (.malformed ("no entry for `" ++ mangled ++ "`"))

/-! ## Fates of symbols -/

/-- What became of an entry point. -/
inductive Fate where
  | undecoded (error : DecodeError)
  | hidden
  /-- The declaration was refused, and the scan went on. -/
  | refused (rejection : SlotTaken)
  /-- The declaration was refused, and the scan ended. -/
  | fatal (rejection : SlotTaken)
  | filed
deriving DecidableEq

/-- The fate of a declaration after filing it, in a strict scan or a lenient one. -/
def Fate.ofFiling (strict : Bool) : Option SlotTaken → Fate
  | none => .filed
  | some rejection => if strict then .fatal rejection else .refused rejection

/-- What became of one entry point, and what happened while its declaration was filed. -/
structure SymbolReport where
  symbol : Symbol
  fate : Fate
  events : List FilingEvent := []

namespace SymbolReport

/-- Was the declaration filed? -/
def isFiled (r : SymbolReport) : Bool :=
  r.fate = .filed

/-- Why the scan ended here, if it did. -/
def fatal? (r : SymbolReport) : Option SlotTaken :=
  match r.fate with
  | .fatal rejection => some rejection
  | _ => none

/-- The diagnostic that is recorded. -/
def diagnostic? (r : SymbolReport) : Option Diagnostic :=
  match r.fate with
  | .undecoded error => some ⟨error.severity, r.symbol.name, error.message⟩
  | .refused rejection => some ⟨.error, r.symbol.name, rejection.message⟩
  | .hidden | .fatal _ | .filed => none

/-- The log lines. -/
def log (r : SymbolReport) : List Log.Line :=
  let name := "`" ++ r.symbol.name ++ "`"
  r.events.map FilingEvent.line ++
    match r.fate with
    | .undecoded error => [⟨.warn, "skipping " ++ name ++ ": " ++ error.message⟩]
    | .hidden => [⟨.debug, "skipping privatized " ++ name⟩]
    | .refused rejection =>
      [⟨.warn, "unable to classify " ++ name ++ ": " ++ rejection.message⟩]
    | .fatal _ | .filed => []

end SymbolReport

/-! ## Scans -/

/-- Why a strict scan failed. -/
inductive ScanError where
  | unreadable (image : String) (source : ImageError)
  | refused (symbol : String) (source : SlotTaken)
deriving DecidableEq

/-- The failure in words. -/
def ScanError.message : ScanError → String
  | .unreadable image source =>
    "Unable to retrieve symbols from '" ++ image ++ "': " ++ source.message
  | .refused symbol source =>
    "Error dispensing declaration decoded from `" ++ symbol ++ "`: " ++ source.message

/-- A symbol handed to the decoder. -/
structure DecoderCall where
  symbol : Symbol
  oldMangling : Bool
deriving DecidableEq

/-- What a scan of one image leaves: the inventory and the diagnostics afterwards, the failure if it
failed, the calls of the decoder and the log lines in order. -/
structure Scan where
  inventory : Inventory
  diagnostics : Diagnostics
  failure : Option ScanError := none
  calls : List DecoderCall := []
  log : List Log.Line := []

/-- Reads images, decodes their symbols and files the declarations. -/
structure Scanner where
  reader : ImageReader
  decoder : SymbolDecoder
  options : ScanOptions := {}

namespace Scanner

/-- Decodes one entry point and files its declaration. -/
def scanSymbol (s : Scanner) (oldMangling : Bool) (i : Inventory) (symbol : Symbol) :
    Inventory × SymbolReport :=
  match s.decoder symbol.name oldMangling symbol.offset with
  | .error error => (i, { symbol, fate := .undecoded error })
  | .ok d =>
    if s.options.skipHidden && d.function?.any (·.isHidden) then
      (i, { symbol, fate := .hidden })
    else
      let filed := i.add d
      (filed.after,
        { symbol
          fate := .ofFiling s.options.strict filed.rejection
          events := filed.events })

/-- Scans entry points in order, up to a fatal one. -/
def scanSymbols (s : Scanner) (oldMangling : Bool) (i : Inventory) :
    List Symbol → Inventory × List SymbolReport
  | [] => (i, [])
  | symbol :: rest =>
    let (i, report) := s.scanSymbol oldMangling i symbol
    match report.fatal? with
    | some _ => (i, [report])
    | none =>
      let (i, reports) := s.scanSymbols oldMangling i rest
      (i, report :: reports)

/-- The line that sums up a scan. -/
def summary (source : String) (table : SymbolTable) (reports : List SymbolReport) : Log.Line :=
  let filed := reports.countP (·.isFiled)
  ⟨.info, source ++ " (" ++ table.architecture.render ++ "): " ++ toString filed
    ++ " declarations filed, " ++ toString (reports.length - filed) ++ " symbols skipped out of "
    ++ toString table.symbols.length⟩

/-- Scans the symbol table of an image. -/
def scanTable (s : Scanner) (i : Inventory) (ds : Diagnostics) (table : SymbolTable)
    (source : String) : Scan :=
  let oldMangling := s.options.showsOldMangling (table.symbols.map (·.name))
  let entryPoints := table.symbols.filter fun symbol => s.options.isEntryPoint symbol.name
  let (inventory, reports) :=
    s.scanSymbols oldMangling { i with architecture := table.architecture } entryPoints
  let failure := reports.findSome? fun r => r.fatal?.map (ScanError.refused r.symbol.name)
  let opening : List Log.Line :=
    if oldMangling then [⟨.debug, "`" ++ source ++ "` uses the older mangling scheme"⟩] else []
  let closing := if failure.isNone then [summary source table reports] else []
  { inventory
    diagnostics := ds.append ⟨reports.filterMap (·.diagnostic?)⟩
    failure
    calls := reports.map fun r => { symbol := r.symbol, oldMangling }
    log := opening ++ reports.flatMap (·.log) ++ closing }

/-- Scans an image into an inventory and diagnostics that are there already. -/
def extend (s : Scanner) (i : Inventory) (ds : Diagnostics) (bytes : List UInt8)
    (source : String) : Scan :=
  match s.reader bytes with
  | .ok table => s.scanTable i ds table source
  | .error error =>
    if s.options.strict then
      { inventory := i, diagnostics := ds, failure := some (.unreadable source error) }
    else
      { inventory := i
        diagnostics := ds.push ⟨.error, source, error.message⟩
        log := [⟨.warn, "unable to read symbols of `" ++ source ++ "`: " ++ error.message⟩] }

/-- Scans an image into an inventory of its own. -/
def scan (s : Scanner) (bytes : List UInt8) (source : String) : Scan :=
  s.extend {} {} bytes source

end Scanner

end SwiftSurface
