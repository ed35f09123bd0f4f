import AuthSchema.Assembly
import AuthSchema.CommandLine.Arguments
import AuthSchema.CommandLine.Disk
import AuthSchema.CommandLine.Run
import AuthSchema.Compiled.Basic
import AuthSchema.Compiled.Codec
import AuthSchema.Compiled.Construct
import AuthSchema.Compiled.Edges
import AuthSchema.Compiled.Table
import AuthSchema.Directive.Basic
import AuthSchema.Directive.Instructions
import AuthSchema.Directive.Parser
import AuthSchema.Distinct
import AuthSchema.Json.Basic
import AuthSchema.Json.Layout
import AuthSchema.Json.Numeral
import AuthSchema.Json.Printer
import AuthSchema.Json.Reader
import AuthSchema.Json.Record
import AuthSchema.Json.Token
import AuthSchema.Main
import AuthSchema.Narrow
import AuthSchema.Proofs.Acceptance
import AuthSchema.Proofs.Advance
import AuthSchema.Proofs.Alike
import AuthSchema.Proofs.Annotation
import AuthSchema.Proofs.Arrows
import AuthSchema.Proofs.Backtracking
import AuthSchema.Proofs.Bytes
import AuthSchema.Proofs.Collected
import AuthSchema.Proofs.Comments
import AuthSchema.Proofs.CompiledEncoding
import AuthSchema.Proofs.Cutting
import AuthSchema.Proofs.DeadEnds
import AuthSchema.Proofs.Declared
import AuthSchema.Proofs.Delivery
import AuthSchema.Proofs.DepthLimit
import AuthSchema.Proofs.Encoding
import AuthSchema.Proofs.Extension
import AuthSchema.Proofs.Grammar
import AuthSchema.Proofs.Guarantees
import AuthSchema.Proofs.Halting
import AuthSchema.Proofs.Hiding
import AuthSchema.Proofs.Inclusion
import AuthSchema.Proofs.Keyed
import AuthSchema.Proofs.LaterPasses
import AuthSchema.Proofs.LeastSolution
import AuthSchema.Proofs.Leaves
import AuthSchema.Proofs.Legible
import AuthSchema.Proofs.LevelOrder
import AuthSchema.Proofs.LineByLine
import AuthSchema.Proofs.Maps
import AuthSchema.Proofs.Members
import AuthSchema.Proofs.Names
import AuthSchema.Proofs.Narrowing
import AuthSchema.Proofs.Offences
import AuthSchema.Proofs.Overriding
import AuthSchema.Proofs.Pass
import AuthSchema.Proofs.Pipeline
import AuthSchema.Proofs.Printed
import AuthSchema.Proofs.PublicNames
import AuthSchema.Proofs.Reachability
import AuthSchema.Proofs.Reading
import AuthSchema.Proofs.References
import AuthSchema.Proofs.Renewal
import AuthSchema.Proofs.Reordering
import AuthSchema.Proofs.Reshaping
import AuthSchema.Proofs.SchemaEncoding
import AuthSchema.Proofs.Semilattice
import AuthSchema.Proofs.Solution
import AuthSchema.Proofs.Spelling
import AuthSchema.Proofs.Subjects
import AuthSchema.Proofs.Termination
import AuthSchema.Proofs.Trails
import AuthSchema.Proofs.Variant
import AuthSchema.Proofs.Walk
import AuthSchema.Proofs.Widening
import AuthSchema.Resolution.Diagnostic
import AuthSchema.Resolution.Expansion
import AuthSchema.Resolution.Relations
import AuthSchema.Resolution.Solve
import AuthSchema.Schema.Basic
import AuthSchema.Schema.Codec
import AuthSchema.Settings.Basic
import AuthSchema.Settings.Codec
import AuthSchema.Settings.File
import AuthSchema.SortedMap.Basic
import AuthSchema.SortedMap.Lemmas
import AuthSchema.Subject.Basic
import AuthSchema.Subject.Map
import AuthSchema.Text.Blank
import AuthSchema.Text.Identifier
import AuthSchema.Text.Invisible
import AuthSchema.Text.Quoted
import AuthSchema.Text.Split
import AuthSchema.Text.Utf8
import AuthSchema.Toml.Document
import AuthSchema.Toml.Parser
import AuthSchema.Toml.Quotation
import AuthSchema.Toml.Scalar
import AuthSchema.Toml.Scan
