import ValueSchema.Double.Basic
import ValueSchema.Double.Layout
import ValueSchema.Double.Numeral
import ValueSchema.Entries
import ValueSchema.Json.Basic
import ValueSchema.Json.Printer
import ValueSchema.Json.Reader
import ValueSchema.Options
import ValueSchema.Outcome
import ValueSchema.Proofs.Acceptance
import ValueSchema.Proofs.BoundCalls
import ValueSchema.Proofs.Composites
import ValueSchema.Proofs.Correspondences
import ValueSchema.Proofs.DepthBalance
import ValueSchema.Proofs.DepthLimit
import ValueSchema.Proofs.Double.Nearest
import ValueSchema.Proofs.Failure.Location
import ValueSchema.Proofs.Failure.Tree
import ValueSchema.Proofs.Filling
import ValueSchema.Proofs.JsonExchange
import ValueSchema.Proofs.KeyPolicies
import ValueSchema.Proofs.Modifiers
import ValueSchema.Proofs.ObjectMerging
import ValueSchema.Proofs.Parser.Agreement
import ValueSchema.Proofs.Parser.Cases
import ValueSchema.Proofs.Parser.Lawful
import ValueSchema.Proofs.Parser.Loops
import ValueSchema.Proofs.Parser.Outputs
import ValueSchema.Proofs.Preservation
import ValueSchema.Proofs.ProducedDefaults
import ValueSchema.Proofs.Reparsing
import ValueSchema.Proofs.Schema.Determined
import ValueSchema.Proofs.Schema.FixedDefaults
import ValueSchema.Proofs.Schema.Nodes
import ValueSchema.Proofs.Schema.Visits
import ValueSchema.Proofs.Trace
import ValueSchema.Proofs.Typed.Commitment
import ValueSchema.Proofs.Typed.Encounter
import ValueSchema.Proofs.Typed.ListBounds
import ValueSchema.Proofs.Typed.Producers
import ValueSchema.Proofs.Typed.Reconversion
import ValueSchema.Proofs.Typed.Simulation
import ValueSchema.Proofs.Typed.Variants
import ValueSchema.Proofs.UnionMerging
import ValueSchema.Schema.Basic
import ValueSchema.Schema.Builders
import ValueSchema.Schema.Kind
import ValueSchema.Schema.Parse
import ValueSchema.Text.Nonprinting
import ValueSchema.Typed.Basic
import ValueSchema.Typed.Parse
import ValueSchema.Value.Basic
import ValueSchema.Value.Text
