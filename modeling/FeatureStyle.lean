import FeatureStyle.Bag.Basic
import FeatureStyle.Bag.Store
import FeatureStyle.Choice.Basic
import FeatureStyle.Choice.Template
import FeatureStyle.Condition.Basic
import FeatureStyle.Condition.Evaluation
import FeatureStyle.Condition.Lexeme
import FeatureStyle.Condition.Parsing
import FeatureStyle.Condition.SyntaxError
import FeatureStyle.Condition.Token
import FeatureStyle.Description
import FeatureStyle.Double.Basic
import FeatureStyle.Double.Rounding
import FeatureStyle.Event
import FeatureStyle.Fault
import FeatureStyle.Feature
import FeatureStyle.Json.Basic
import FeatureStyle.Json.Compact
import FeatureStyle.Json.Reader
import FeatureStyle.Layer.Overlay
import FeatureStyle.Layer.Tree
import FeatureStyle.Numeral.Decimal
import FeatureStyle.Numeral.Layout
import FeatureStyle.Numeral.Scan
import FeatureStyle.Numeral.Shortest
import FeatureStyle.Pipeline.Basic
import FeatureStyle.Pipeline.Resolution
import FeatureStyle.Pipeline.Settings
import FeatureStyle.Proofs.Bag.Coherence
import FeatureStyle.Proofs.Bag.Eviction
import FeatureStyle.Proofs.Bag.History
import FeatureStyle.Proofs.Bag.Queue
import FeatureStyle.Proofs.Choice.Dependence
import FeatureStyle.Proofs.Choice.Selection
import FeatureStyle.Proofs.Condition.Acceptance
import FeatureStyle.Proofs.Condition.Commutation
import FeatureStyle.Proofs.Condition.Comparison
import FeatureStyle.Proofs.Condition.Depth
import FeatureStyle.Proofs.Condition.Grammar
import FeatureStyle.Proofs.Condition.Literal
import FeatureStyle.Proofs.Condition.Missing
import FeatureStyle.Proofs.Condition.Nesting
import FeatureStyle.Proofs.Condition.Phrase
import FeatureStyle.Proofs.Condition.Reading
import FeatureStyle.Proofs.Condition.Rendering
import FeatureStyle.Proofs.Condition.Rules
import FeatureStyle.Proofs.Condition.Spans
import FeatureStyle.Proofs.Condition.Spelling
import FeatureStyle.Proofs.Condition.Splitting
import FeatureStyle.Proofs.Condition.Tower
import FeatureStyle.Proofs.Entries
import FeatureStyle.Proofs.Layer.Extent
import FeatureStyle.Proofs.Layer.Mismatches
import FeatureStyle.Proofs.Layer.Ordered
import FeatureStyle.Proofs.Layer.Pathwise
import FeatureStyle.Proofs.Layer.Plain
import FeatureStyle.Proofs.Layer.Reapplication
import FeatureStyle.Proofs.Layer.Regrouping
import FeatureStyle.Proofs.Numeral.Exact
import FeatureStyle.Proofs.Numeral.Scanning
import FeatureStyle.Proofs.Numeral.Spelling
import FeatureStyle.Proofs.Pipeline.Call
import FeatureStyle.Proofs.Pipeline.Confinement
import FeatureStyle.Proofs.Pipeline.Degradation
import FeatureStyle.Proofs.Pipeline.Effects
import FeatureStyle.Proofs.Pipeline.Expressionless
import FeatureStyle.Proofs.Pipeline.Fallback
import FeatureStyle.Proofs.Pipeline.Guard
import FeatureStyle.Proofs.Pipeline.Likeness
import FeatureStyle.Proofs.Pipeline.Nesting
import FeatureStyle.Proofs.Pipeline.Outcome
import FeatureStyle.Proofs.Pipeline.Progress
import FeatureStyle.Proofs.Pipeline.Provenance
import FeatureStyle.Proofs.Pipeline.Records
import FeatureStyle.Proofs.Pipeline.Renewal
import FeatureStyle.Proofs.Pipeline.Repetition
import FeatureStyle.Proofs.Pipeline.Stability
import FeatureStyle.Proofs.Pipeline.Stateless
import FeatureStyle.Proofs.Pipeline.Unset
import FeatureStyle.Proofs.Pipeline.Walk
import FeatureStyle.Proofs.Registry.Drawing
import FeatureStyle.Proofs.Registry.Operations
import FeatureStyle.Proofs.Registry.Roll
import FeatureStyle.Proofs.Value.Alike
import FeatureStyle.Proofs.Value.RoundTrip
import FeatureStyle.Proofs.World.Accounting
import FeatureStyle.Proofs.World.Basic
import FeatureStyle.Proofs.World.Idempotence
import FeatureStyle.Proofs.World.Isolation
import FeatureStyle.Proofs.World.Keys
import FeatureStyle.Proofs.World.Release
import FeatureStyle.Proofs.World.Stability
import FeatureStyle.Proofs.World.Transparency
import FeatureStyle.Registry.Basic
import FeatureStyle.Registry.KeyShape
import FeatureStyle.Registry.KeySupply
import FeatureStyle.Session.Basic
import FeatureStyle.Session.KeyStream
import FeatureStyle.Session.Sampler
import FeatureStyle.Session.Step
import FeatureStyle.Table
import FeatureStyle.Text.Blank
import FeatureStyle.Text.Placeholder
import FeatureStyle.Text.Quoted
import FeatureStyle.Text.Shown
import FeatureStyle.Value.Authoring
import FeatureStyle.Value.Basic
import FeatureStyle.Value.Digest
import FeatureStyle.Value.Equality
import FeatureStyle.Value.Path
import FeatureStyle.Value.Text
import FeatureStyle.Proofs.Choice.Substitution
import FeatureStyle.Proofs.Value.Digest
import FeatureStyle.Proofs.Choice.Naming
import FeatureStyle.Proofs.Numeral.Nearest
import FeatureStyle.Proofs.Numeral.Printing
import FeatureStyle.Proofs.Choice.BareResult
import FeatureStyle.Proofs.Registry.Issue
import FeatureStyle.Proofs.Condition.Brackets
import FeatureStyle.Proofs.Numeral.Overflow
import FeatureStyle.Proofs.Choice.Finite
import FeatureStyle.Proofs.Condition.Quotation
import FeatureStyle.Proofs.Registry.Validation
import FeatureStyle.Proofs.Choice.Writing
import FeatureStyle.Proofs.Condition.Calls
import FeatureStyle.Proofs.Condition.Bookkeeping
