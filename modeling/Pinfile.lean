import Pinfile.Arrivals
import Pinfile.CommandLine.Basic
import Pinfile.CommandLine.Dispatch
import Pinfile.Config
import Pinfile.Digest.Sha256
import Pinfile.Environment
import Pinfile.Failure
import Pinfile.Files.Path
import Pinfile.Files.Tree
import Pinfile.Json.Basic
import Pinfile.Json.Reader
import Pinfile.Lockfile
import Pinfile.Main
import Pinfile.Manifest.Basic
import Pinfile.Manifest.EntryLine
import Pinfile.Manifest.Json
import Pinfile.Manifest.Parser
import Pinfile.Manifest.Printer
import Pinfile.Merge
import Pinfile.Name
import Pinfile.Operation.Commands
import Pinfile.Operation.Output
import Pinfile.Operation.Source
import Pinfile.Problem
import Pinfile.Program
import Pinfile.Repeats
import Pinfile.Text.Blank
import Pinfile.Text.CaseTable
import Pinfile.Text.Digits
import Pinfile.Text.Lowercase
import Pinfile.Toml.Quoted
import Pinfile.Toml.Reader
import Pinfile.Toml.Scalar
import Pinfile.Toml.Value
import Pinfile.Validate
import Pinfile.Version
import Pinfile.Proofs.Repeats
import Pinfile.Proofs.Validity
import Pinfile.Proofs.Merge.Layer
import Pinfile.Proofs.Merge.Ledger
import Pinfile.Proofs.Merge.Invariants
import Pinfile.Proofs.Merge.Union
import Pinfile.Proofs.Merge.Conflicts
import Pinfile.Proofs.Merge.TopLayer
import Pinfile.Proofs.Manifest.WellFormed
import Pinfile.Proofs.Manifest.EntryText
import Pinfile.Proofs.Manifest.RoundTrip
import Pinfile.Proofs.Merge.Override
import Pinfile.Proofs.Merge.Absorption
import Pinfile.Proofs.Merge.Markers
import Pinfile.Proofs.Merge.Valid
import Pinfile.Proofs.Environment.Filter
import Pinfile.Proofs.Manifest.Sections
import Pinfile.Proofs.Manifest.Grammar
import Pinfile.Proofs.Environment.Agreement
import Pinfile.Proofs.Files.Growth
import Pinfile.Proofs.Merge.WellFormed
import Pinfile.Proofs.Files.Upward
import Pinfile.Proofs.Operation.Reading
import Pinfile.Proofs.Operation.Search
import Pinfile.Proofs.Operation.Saving
import Pinfile.Proofs.Operation.Merging
import Pinfile.Proofs.Operation.Steps
import Pinfile.Proofs.Operation.Freshness
import Pinfile.Proofs.Merge.Stages
import Pinfile.Proofs.Toml.Quoting
import Pinfile.Proofs.Toml.Statements
import Pinfile.Proofs.Toml.Written
import Pinfile.Proofs.Lockfile
import Pinfile.Proofs.Operation.Recording
import Pinfile.Proofs.Text.LineEnds
import Pinfile.Proofs.Manifest.LineEnds
import Pinfile.Proofs.Toml.LineEnds
import Pinfile.Proofs.Toml.Refolding
import Pinfile.Proofs.Operation.LineEnds
import Pinfile.Proofs.Manifest.Faults
import Pinfile.Proofs.Report
import Pinfile.Proofs.Operation.ShownErrors
import Pinfile.Proofs.Operation.Targets
import Pinfile.Proofs.Version
import Pinfile.Proofs.Environment.Requirements
import Pinfile.Proofs.Merge.Repetition
import Pinfile.Proofs.Manifest.Concatenation
import Pinfile.Proofs.Merge.Preservation
import Pinfile.Proofs.Merge.Permutation
import Pinfile.Proofs.Arrivals
import Pinfile.Proofs.Manifest.EntryForms
import Pinfile.Proofs.Manifest.EntryGrammar
import Pinfile.Proofs.Merge.PriorPart
import Pinfile.Proofs.Text.Lowered
import Pinfile.Proofs.Key
import Pinfile.Proofs.Pointwise
import Pinfile.Proofs.Respelling.Basic
import Pinfile.Proofs.Respelling.Merge
import Pinfile.Proofs.Respelling.Selection
import Pinfile.Proofs.Json.Scalars
import Pinfile.Proofs.Json.Layouts
import Pinfile.Proofs.Manifest.Serialized
