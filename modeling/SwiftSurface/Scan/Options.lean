import SwiftSurface.Text

/-!
# Options of a scan
-/

namespace SwiftSurface

/-- How a symbol table is made into an inventory. -/
structure ScanOptions where
  /-- Does the scan end at the first declaration that is refused? -/
  strict : Bool := false
  /-- Are functions left out whose names the compiler has hidden? -/
  skipHidden : Bool := true
  /-- Only symbols that start with one of these are decoded. -/
  entryPointPrefixes : List String := ["__T", "_$s", "_$S"]
  /-- An image with a symbol that starts with this uses the older mangling. -/
  oldManglingMarker : String := "__TMd"
deriving DecidableEq

namespace ScanOptions

/-- Is this a symbol to decode? -/
def isEntryPoint (o : ScanOptions) (symbol : String) : Bool :=
  symbol != "" && o.entryPointPrefixes.any (Text.startsWith symbol)

/-- Does one of these symbols show that the image uses the older mangling? -/
def showsOldMangling (o : ScanOptions) (symbols : List String) : Bool :=
  symbols.any (Text.startsWith · o.oldManglingMarker)

end ScanOptions

/-! ## Where the options are kept -/

/-- The directory with `part` appended. An absolute part stands for itself. -/
def appendPath (directory part : String) : String :=
  if Text.startsWith part "/" then part
  else if directory == "" || directory.toList.getLast? == some '/' then directory ++ part
  else directory ++ "/" ++ part

/-- What the environment says about the place of configuration files. -/
structure ConfigEnvironment where
  /-- The file itself. -/
  configPath : Option String
  /-- The directory of configuration files. -/
  configHome : Option String
  /-- The home directory. -/
  home : Option String

namespace ConfigEnvironment

/-- The directory of configuration files. -/
def directory (e : ConfigEnvironment) : String :=
  match e.configHome, e.home with
  | some configHome, _ => appendPath "" configHome
  | none, some home => appendPath (appendPath "" home) ".config"
  | none, none => ""

/-- The path of the options file. -/
def optionsPath (e : ConfigEnvironment) : String :=
  e.configPath.getD (appendPath (appendPath e.directory "dyreflect") "scan.toml")

end ConfigEnvironment

end SwiftSurface
