import SwiftSurface.TypeExpr.Basic

/-!
# Generic parameters in scope

Declarations nest, so a name refers to a generic parameter of the declaration itself or of one
around it. `TypeExpr.refersTo` asks whether a type expression refers to a parameter in scope; a type
that does not is bound.
-/

namespace SwiftSurface

/-- The generic parameters of a declaration, and the scope around it. -/
structure GenericScope where
  parameters : List String
  parent : Option GenericScope := none

namespace GenericScope

/-- Is `name` a parameter of this scope or of one around it? -/
def declares : GenericScope → String → Bool
  | ⟨parameters, none⟩, name => parameters.contains name
  | ⟨parameters, some parent⟩, name => parameters.contains name || parent.declares name
termination_by structural scope => scope

/-- The innermost of these scopes, given outermost first, each nested in the one before it. Without
any there is one scope without parameters. -/
def nest : List (List String) → GenericScope
  | [] => { parameters := [] }
  | outermost :: inner =>
    inner.foldl (fun scope parameters => { parameters, parent := some scope })
      { parameters := outermost }

end GenericScope

namespace TypeExpr

mutual

/-- Does the expression refer to a name in scope? A reference is the name of the expression itself,
or one in its generic arguments (for a named type), its elements, its arguments or its result. -/
def refersTo (inScope : String → Bool) : TypeExpr → Bool
  | ⟨.named ⟨name, _⟩, generics, _, _, _⟩ => inScope name || anyRefersTo inScope generics
  | ⟨.tuple elements, _, _, _, _⟩ => anyRefersTo inScope elements
  | ⟨.closure arguments returns _, _, _, _, _⟩ =>
    arguments.refersTo inScope || returns.refersTo inScope
  | ⟨.composition _, _, _, _, _⟩ => false
termination_by structural t => t

/-- Does one of these types refer to a name in scope? -/
def anyRefersTo (inScope : String → Bool) : List TypeExpr → Bool
  | [] => false
  | t :: rest => t.refersTo inScope || anyRefersTo inScope rest
termination_by structural types => types

end

/-- Does the expression refer to no name in scope? -/
def refersToNone (inScope : String → Bool) (t : TypeExpr) : Bool :=
  !t.refersTo inScope

end TypeExpr

end SwiftSurface
