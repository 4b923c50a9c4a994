import Conform.Decode.Attributes
import Conform.Decode.Children
import Conform.Decode.Document
import Conform.Decode.Options
import Conform.Decode.Pass
import Conform.Decode.Raw
import Conform.Decode.Text
import Conform.Decode.Tree
import Conform.Diagnostic
import Conform.Failure
import Conform.Identity.Check
import Conform.Identity.Constraint
import Conform.Identity.Counter
import Conform.Identity.Tuples
import Conform.Identity.Value
import Conform.Json.Basic
import Conform.Json.Printer
import Conform.Json.Reader
import Conform.Json.Record
import Conform.Limits
import Conform.Listing
import Conform.Markup.Document
import Conform.Markup.Element
import Conform.Markup.Entity
import Conform.Markup.Event
import Conform.Markup.Scanner
import Conform.Model.Advance
import Conform.Model.Attribution
import Conform.Model.Tally
import Conform.Model.Walk
import Conform.Name.Basic
import Conform.Name.Plain
import Conform.Name.Scope
import Conform.Number.Decimal
import Conform.Number.Integer
import Conform.Occurs.Basic
import Conform.Occurs.Fold
import Conform.Path.Basic
import Conform.Path.Select
import Conform.Schema.Assembly
import Conform.Schema.Basic
import Conform.Schema.Build
import Conform.Schema.Components
import Conform.Schema.Declaration
import Conform.Schema.Facts
import Conform.Schema.Group
import Conform.Schema.Handle
import Conform.Schema.Order
import Conform.Schema.Traversal
import Conform.Schema.Types
import Conform.Schema.Version
import Conform.Schema.Wildcard
import Conform.Settings
import Conform.Simple.Builtin
import Conform.Simple.WhiteSpace
import Conform.Text.Alphabetic
import Conform.Text.Blank
import Conform.Text.Cut
import Conform.Text.Letter
import Conform.Text.Numeral
import Conform.Text.Quoted
import Conform.Text.Ranges
import Conform.Text.Recent
import Conform.Text.Unprintable
import Conform.Text.Utf8
import Conform.Validation
import Conform.Proofs.Schema.Built
import Conform.Proofs.Model.AllGroup
import Conform.Proofs.Model.Flat
import Conform.Proofs.Model.FlatWalk
import Conform.Proofs.Model.Repeated
import Conform.Proofs.Model.Parts
import Conform.Proofs.Model.OnceThrough
import Conform.Proofs.Model.Emptiness
import Conform.Proofs.Model.Leaves
import Conform.Proofs.Model.Loosened
import Conform.Proofs.Model.Repetitions
import Conform.Proofs.Model.Nesting
import Conform.Proofs.Model.Residue
import Conform.Proofs.Model.Surplus
import Conform.Proofs.Model.Closing
import Conform.Proofs.Model.Soundness
import Conform.Proofs.Model.Acceptance
import Conform.Proofs.Model.Hollow
import Conform.Proofs.Model.Hops
import Conform.Proofs.Model.Breaking
import Conform.Proofs.Model.Placement
import Conform.Proofs.Model.Bulk
import Conform.Proofs.Model.Load
import Conform.Proofs.Model.Budget
import Conform.Proofs.Model.Standing
import Conform.Proofs.Model.Outcome
import Conform.Proofs.Model.Bounded
import Conform.Proofs.Decode.Parts
import Conform.Proofs.Decode.Modes
import Conform.Proofs.Schema.Rules
import Conform.Proofs.Schema.Handles
import Conform.Proofs.Identity.References
import Conform.Proofs.Decode.References
import Conform.Proofs.Decode.Pruning
import Conform.Proofs.Decode.Depth
import Conform.Proofs.Decode.Bounded
import Conform.Proofs.Decode.Skipping
import Conform.Proofs.Decode.Mirror
import Conform.Proofs.Listing
import Conform.Proofs.Identity.Defaults
import Conform.Proofs.Decode.Defaults
import Conform.Proofs.Decode.Failures
import Conform.Proofs.Model.Gauge
import Conform.Proofs.Model.Tracking
import Conform.Proofs.Model.Departure
import Conform.Proofs.Model.Pursuit
import Conform.Proofs.Model.Completeness
import Conform.Proofs.Text.Words
import Conform.Proofs.Number.Integer
import Conform.Proofs.Number.Notation
import Conform.Proofs.Number.Decimal
import Conform.Proofs.Simple.RoundTrip
import Conform.Proofs.Simple.Encoding
import Conform.Proofs.Markup.Tokens
import Conform.Proofs.Decode.Paths
import Conform.Proofs.Identity.Places
import Conform.Proofs.Decode.Places
import Conform.Proofs.Markup.Tree
import Conform.Proofs.Markup.Scoping
import Conform.Proofs.Markup.Attributes
import Conform.Proofs.Number.Canonical
import Conform.Proofs.Number.Rounding
import Conform.Proofs.Simple.Exactness
import Conform.Proofs.Model.Offers
import Conform.Proofs.Schema.Traversal
import Conform.Proofs.Schema.Outline
import Conform.Proofs.Model.Sizes
import Conform.Proofs.Model.Dissolving
import Conform.Proofs.Model.Childless
import Conform.Proofs.Model.Silence
import Conform.Proofs.Decode.Childless
import Conform.Proofs.Schema.Ancestry
import Conform.Proofs.Model.Derivations
import Conform.Proofs.Model.Frequency
import Conform.Proofs.Schema.Overall
import Conform.Proofs.Identity.Duplicates
import Conform.Proofs.Identity.Absence
import Conform.Proofs.Simple.Integers
import Conform.Proofs.Path.Grammar
import Conform.Proofs.Path.Compilation
import Conform.Proofs.Simple.LexicalSpace
import Conform.Proofs.Path.Selection
import Conform.Proofs.Identity.Policies
import Conform.Proofs.Decode.Policies
import Conform.Proofs.Name.Rendering
import Conform.Proofs.Decode.Rendering
import Conform.Proofs.Schema.Calls
import Conform.Proofs.Occurs.Algebra
import Conform.Proofs.Schema.Order
import Conform.Proofs.Schema.Caches
import Conform.Proofs.Model.Paces
import Conform.Proofs.Model.Ledger
import Conform.Proofs.Model.Balance
import Conform.Proofs.Model.Estimate
