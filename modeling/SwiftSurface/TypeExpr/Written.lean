import SwiftSurface.TypeExpr.Basic

/-!
# The written form of a type expression

`TypeExpr.write` spells a type expression, either with full names or with the module qualifiers
dropped. In front of the shape stand the attributes, `inout` and the label; behind it the generic
arguments and then the inner type.

A closure's argument that is no tuple is put in parentheses if it is a closure or carries a
modifier, so that it cannot be read as the whole closure or as the closure's modifier.
-/

namespace SwiftSurface

/-- Does a name keep its module qualifier when it is written? -/
inductive NameStyle where
  /-- The whole name, `Swift.Int`. -/
  | full
  /-- The name without its module, `Int`. -/
  | short
deriving DecidableEq

/-- The spelling of a name. -/
def NameStyle.spell : NameStyle → String → List Char
  | .full, name => name.toList
  | .short, name => (NamedType.unqualifiedName name).toList

/-- The pieces, with `separator` between two of them. -/
def joinChars (separator : List Char) : List (List Char) → List Char
  | [] => []
  | [piece] => piece
  | piece :: rest => piece ++ separator ++ joinChars separator rest

namespace Attribute

/-- `@name`, with its parameters in parentheses if it has any. -/
def write (a : Attribute) : List Char :=
  '@' :: a.name.toList ++
    match a.parameters with
    | [] => []
    | parameters => '(' :: joinChars [',', ' '] (parameters.map String.toList) ++ [')']

/-- The attribute as text. -/
def render (a : Attribute) : String :=
  String.ofList a.write

end Attribute

namespace TypeExpr

/-- What stands in front of a shape: each attribute with a blank, `inout`, the label. -/
def writeDecorations (attributes : List Attribute) (isInout : Bool) (label : Option String) :
    List Char :=
  attributes.flatMap (fun a => a.write ++ [' '])
    ++ (if isInout then "inout ".toList else [])
    ++ (match label with
        | some label => label.toList ++ [':', ' ']
        | none => [])

/-- Is this closure argument, if it is no tuple, one that must stand in parentheses? -/
def needsParentheses (argument : TypeExpr) : Bool :=
  argument.kind != .tuple
    && (argument.kind == .closure || argument.isInout || argument.label.isSome
      || !argument.attributes.isEmpty)

end TypeExpr

mutual

/-- Writes a type expression. -/
def TypeExpr.write (style : NameStyle) : TypeExpr → List Char
  | ⟨shape, generics, attributes, isInout, label⟩ =>
    TypeExpr.writeDecorations attributes isInout label ++ shape.write style
      ++ (if generics.isEmpty then [] else '<' :: TypeExpr.writeAll style generics ++ ['>'])
      ++ shape.writeInner style
termination_by structural t => t

/-- Writes a shape, less the inner type of a named type. -/
def Shape.write (style : NameStyle) : Shape → List Char
  | .named ⟨name, _⟩ => style.spell name
  | .tuple elements => '(' :: TypeExpr.writeAll style elements ++ [')']
  | .closure arguments returns throws =>
    (if arguments.needsParentheses then '(' :: arguments.write style ++ [')']
      else arguments.write style)
      ++ (if throws then " throws -> " else " -> ").toList ++ returns.write style
  | .composition constituents => TypeExpr.writeConstituents style constituents
termination_by structural shape => shape

/-- Writes the inner type of a shape, with its dot. -/
def Shape.writeInner (style : NameStyle) : Shape → List Char
  | .named ⟨_, some inner⟩ => '.' :: inner.write style
  | _ => []
termination_by structural shape => shape

/-- Writes types with commas between them. -/
def TypeExpr.writeAll (style : NameStyle) : List TypeExpr → List Char
  | [] => []
  | t :: rest =>
    t.write style ++ (if rest.isEmpty then [] else ", ".toList) ++ TypeExpr.writeAll style rest
termination_by structural types => types

/-- Writes the constituents of a composition. -/
def TypeExpr.writeConstituents (style : NameStyle) : List NamedType → List Char
  | [] => []
  | ⟨name, none⟩ :: rest =>
    style.spell name ++ (if rest.isEmpty then [] else " & ".toList)
      ++ TypeExpr.writeConstituents style rest
  | ⟨name, some inner⟩ :: rest =>
    style.spell name ++ '.' :: inner.write style
      ++ (if rest.isEmpty then [] else " & ".toList) ++ TypeExpr.writeConstituents style rest
termination_by structural constituents => constituents

end

namespace TypeExpr

/-- The type with full names, its canonical text. -/
def render (t : TypeExpr) : String :=
  String.ofList (t.write .full)

/-- The type with module qualifiers dropped. -/
def renderShort (t : TypeExpr) : String :=
  String.ofList (t.write .short)

end TypeExpr

/-- The name of a named type with its inner type. -/
def NamedType.write (style : NameStyle) (type : NamedType) : List Char :=
  style.spell type.name ++ (Shape.named type).writeInner style

/-- The named type with full names, its canonical text. -/
def NamedType.render (type : NamedType) : String :=
  String.ofList (type.write .full)

end SwiftSurface
