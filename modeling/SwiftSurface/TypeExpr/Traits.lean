import SwiftSurface.TypeExpr.Builtin
import SwiftSurface.TypeExpr.Identity

/-!
# Traits: what holds of a type expression

The answers to the yes-or-no questions about a type expression at a glance.
-/

namespace SwiftSurface.TypeExpr

/-- The questions about a type expression by name, with their answers. -/
def questions (t : TypeExpr) : List (String × Bool) :=
  [("named", t.kind = .named), ("tuple", t.kind = .tuple), ("closure", t.kind = .closure),
    ("protocol_list", t.kind = .composition), ("empty_tuple", t.isUnit), ("array", t.isArray),
    ("inout", t.isInout), ("has_attributes", !t.attributes.isEmpty),
    ("contains_generics", !t.generics.isEmpty),
    ("bound_generic_closure", t.holdsInnerClosure), ("integral", t.isIntegral),
    ("floating", t.isFloatingPoint), ("boolean", t.isBoolean), ("builtin", t.isBuiltinValue),
    ("escaping", t.isEscaping), ("autoclosure", t.isAutoclosure), ("thin", t.hasAttribute "thin"),
    ("inout_set_equal", (t.withInout true).same t)]

/-- The names of the questions that are answered with yes. -/
def traits (t : TypeExpr) : List String :=
  t.questions.filterMap fun (name, holds) => if holds then some name else none

end SwiftSurface.TypeExpr
