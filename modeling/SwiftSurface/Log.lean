/-!
# Log lines

What the library has to say about its work, apart from its results: a level and a text. Functions
return the lines of the work they did, in order.
-/

namespace SwiftSurface.Log

/-- How much a line matters. -/
inductive Level where
  | error
  | warn
  | info
  | debug
deriving DecidableEq

/-- The level as it stands in front of a line. -/
def Level.render : Level → String
  | .error => "ERROR"
  | .warn => "WARN"
  | .info => "INFO"
  | .debug => "DEBUG"

/-- One line of a log. -/
structure Line where
  level : Level
  text : String
deriving DecidableEq

/-- The line with its level in front. -/
def Line.render (line : Line) : String :=
  line.level.render ++ " " ++ line.text

end SwiftSurface.Log
