import SwiftSurface.TypeExpr.Basic

/-!
# Built-in value types

The closed sets of names of the numeric and boolean types. Only full names count: `Int` alone may be
anyone's type.
-/

namespace SwiftSurface.TypeExpr

/-- The integer types, and the character type. -/
def integralNames : List String :=
  ["Swift.Int", "Swift.UInt", "Swift.Int8", "Swift.UInt8", "Swift.Int16", "Swift.UInt16",
    "Swift.Int32", "Swift.UInt32", "Swift.Int64", "Swift.UInt64", "Swift.Char"]

/-- The floating point types. -/
def floatingPointNames : List String :=
  ["Swift.Float", "Swift.Double", "CoreGraphics.CGFloat"]

/-- Is this a named type whose name is one of `names`? -/
def isNamedIn (t : TypeExpr) (names : List String) : Bool :=
  t.named?.any fun type => names.contains type.name

/-- Is this an integer type? -/
def isIntegral (t : TypeExpr) : Bool :=
  t.isNamedIn integralNames

/-- Is this a floating point type? -/
def isFloatingPoint (t : TypeExpr) : Bool :=
  t.isNamedIn floatingPointNames

/-- Is this the boolean type? -/
def isBoolean (t : TypeExpr) : Bool :=
  t.isNamedIn ["Swift.Bool"]

/-- Is this one of the built-in value types? -/
def isBuiltinValue (t : TypeExpr) : Bool :=
  t.isIntegral || t.isFloatingPoint || t.isBoolean

end SwiftSurface.TypeExpr
