import SwiftSurface.Decimal
import SwiftSurface.Declaration.Basic
import SwiftSurface.Declaration.Nominal
import SwiftSurface.Declaration.Sample
import SwiftSurface.Declaration.Signature
import SwiftSurface.Document.Basic
import SwiftSurface.Document.Compact
import SwiftSurface.Document.Declaration
import SwiftSurface.Document.Diagnostics
import SwiftSurface.Document.Inventory
import SwiftSurface.Document.Json
import SwiftSurface.Document.TypeExpr
import SwiftSurface.Image.Architecture
import SwiftSurface.Image.Listing
import SwiftSurface.Image.Symbols
import SwiftSurface.Image.Utf8
import SwiftSurface.Inventory.Basic
import SwiftSurface.Inventory.Census
import SwiftSurface.Inventory.Destination
import SwiftSurface.Inventory.Filing
import SwiftSurface.Inventory.Functions
import SwiftSurface.Inventory.ModuleSurface
import SwiftSurface.Inventory.Properties
import SwiftSurface.Inventory.Thunks
import SwiftSurface.Inventory.TypeSurface
import SwiftSurface.Inventory.Variables
import SwiftSurface.Inventory.Witnesses
import SwiftSurface.Log
import SwiftSurface.Parsing
import SwiftSurface.Proofs.Document.Declaration
import SwiftSurface.Proofs.Document.Inventory
import SwiftSurface.Proofs.Document.Laws
import SwiftSurface.Proofs.Document.TypeExpr
import SwiftSurface.Proofs.Grammar.Accepted
import SwiftSurface.Proofs.Grammar.Attributes
import SwiftSurface.Proofs.Grammar.Closers
import SwiftSurface.Proofs.Grammar.Closure
import SwiftSurface.Proofs.Grammar.Constituents
import SwiftSurface.Proofs.Grammar.Decorated
import SwiftSurface.Proofs.Grammar.Decorations
import SwiftSurface.Proofs.Grammar.Grouping
import SwiftSurface.Proofs.Grammar.Knot
import SwiftSurface.Proofs.Grammar.LastWord
import SwiftSurface.Proofs.Grammar.Modifiers
import SwiftSurface.Proofs.Grammar.NominalPaths
import SwiftSurface.Proofs.Grammar.NormalForm
import SwiftSurface.Proofs.Grammar.Operand
import SwiftSurface.Proofs.Grammar.Outcome
import SwiftSurface.Proofs.Grammar.Persistence
import SwiftSurface.Proofs.Grammar.Readback
import SwiftSurface.Proofs.Grammar.RoundTrip
import SwiftSurface.Proofs.Grammar.Selection
import SwiftSurface.Proofs.Grammar.ShortForms
import SwiftSurface.Proofs.Grammar.ShortText
import SwiftSurface.Proofs.Grammar.SurroundingBlanks
import SwiftSurface.Proofs.Grammar.Tokens
import SwiftSurface.Proofs.Grammar.TrailingBlanks
import SwiftSurface.Proofs.Image.Lines
import SwiftSurface.Proofs.Image.Listing
import SwiftSurface.Proofs.Image.Printed
import SwiftSurface.Proofs.Image.Utf8
import SwiftSurface.Proofs.Inventory.Atomicity
import SwiftSurface.Proofs.Inventory.Batches
import SwiftSurface.Proofs.Inventory.Callables
import SwiftSurface.Proofs.Inventory.Cells
import SwiftSurface.Proofs.Inventory.Conservation
import SwiftSurface.Proofs.Inventory.Containers
import SwiftSurface.Proofs.Inventory.Fallbacks
import SwiftSurface.Proofs.Inventory.Finality
import SwiftSurface.Proofs.Inventory.Keeping
import SwiftSurface.Proofs.Inventory.Links
import SwiftSurface.Proofs.Inventory.Lookup
import SwiftSurface.Proofs.Inventory.Receivers
import SwiftSurface.Proofs.Inventory.Reordering
import SwiftSurface.Proofs.Inventory.Repeats
import SwiftSurface.Proofs.Inventory.Representation
import SwiftSurface.Proofs.Inventory.Resolution
import SwiftSurface.Proofs.Inventory.Runs
import SwiftSurface.Proofs.Inventory.Slots
import SwiftSurface.Proofs.Inventory.StaticFunctions
import SwiftSurface.Proofs.Inventory.Symbols
import SwiftSurface.Proofs.Inventory.Waiting
import SwiftSurface.Proofs.Parsing
import SwiftSurface.Proofs.Persistence
import SwiftSurface.Proofs.Pieces
import SwiftSurface.Proofs.Scan.Accounting
import SwiftSurface.Proofs.Scan.Strictness
import SwiftSurface.Proofs.Table
import SwiftSurface.Proofs.Text
import SwiftSurface.Proofs.Trailing
import SwiftSurface.Proofs.TypeExpr.Brackets
import SwiftSurface.Proofs.TypeExpr.Chains
import SwiftSurface.Proofs.TypeExpr.Composition
import SwiftSurface.Proofs.TypeExpr.CompositionSets
import SwiftSurface.Proofs.TypeExpr.Congruence
import SwiftSurface.Proofs.TypeExpr.Equivalence
import SwiftSurface.Proofs.TypeExpr.Frame
import SwiftSurface.Proofs.TypeExpr.InnerClosures
import SwiftSurface.Proofs.TypeExpr.InnerTypes
import SwiftSurface.Proofs.TypeExpr.Names
import SwiftSurface.Proofs.TypeExpr.Normal
import SwiftSurface.Proofs.TypeExpr.Recognition
import SwiftSurface.Proofs.TypeExpr.References
import SwiftSurface.Proofs.TypeExpr.Renamed
import SwiftSurface.Proofs.TypeExpr.Reread
import SwiftSurface.Proofs.TypeExpr.Respelling
import SwiftSurface.Proofs.TypeExpr.Unqualified
import SwiftSurface.Proofs.TypeExpr.Written
import SwiftSurface.Scan.Basic
import SwiftSurface.Scan.Diagnostics
import SwiftSurface.Scan.Options
import SwiftSurface.Scan.OptionsFile
import SwiftSurface.Table
import SwiftSurface.Text
import SwiftSurface.Toml.Document
import SwiftSurface.Toml.Scalar
import SwiftSurface.Toml.Value
import SwiftSurface.TypeExpr.Basic
import SwiftSurface.TypeExpr.Builtin
import SwiftSurface.TypeExpr.Composition
import SwiftSurface.TypeExpr.Grammar
import SwiftSurface.TypeExpr.Identity
import SwiftSurface.TypeExpr.Scope
import SwiftSurface.TypeExpr.Traits
import SwiftSurface.TypeExpr.Written
