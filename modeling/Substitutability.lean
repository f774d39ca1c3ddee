import Substitutability.Action
import Substitutability.CommandLine.Arguments
import Substitutability.CommandLine.Program
import Substitutability.Commands.Learn
import Substitutability.Commands.Options
import Substitutability.Commands.Registry
import Substitutability.Configuration.Basic
import Substitutability.Configuration.Document
import Substitutability.Context
import Substitutability.ContextSet
import Substitutability.Corpus.Basic
import Substitutability.Corpus.Loading
import Substitutability.DisjointSet
import Substitutability.Document
import Substitutability.Drawing.Dot
import Substitutability.Drawing.Page
import Substitutability.Extraction
import Substitutability.Failure
import Substitutability.Files.Tree
import Substitutability.Grammar.Basic
import Substitutability.Grammar.Induction
import Substitutability.Graph.Basic
import Substitutability.Json.Printer
import Substitutability.Json.Reader
import Substitutability.Json.Value
import Substitutability.Learning.Learned
import Substitutability.Learning.Learner
import Substitutability.Learning.Summary
import Substitutability.Main
import Substitutability.Number.Basic
import Substitutability.Number.Decimal
import Substitutability.Partition.Basic
import Substitutability.Partition.Components
import Substitutability.Proofs.Action
import Substitutability.Proofs.Action.Reaching
import Substitutability.Proofs.CommandLine.Arguments
import Substitutability.Proofs.CommandLine.Dispatch
import Substitutability.Proofs.CommandLine.Groups
import Substitutability.Proofs.CommandLine.Program
import Substitutability.Proofs.Commands.Effective
import Substitutability.Proofs.Commands.Learn
import Substitutability.Proofs.Commands.Publication
import Substitutability.Proofs.Commands.Runs
import Substitutability.Proofs.Configuration.Integers
import Substitutability.Proofs.Configuration.Loading
import Substitutability.Proofs.Configuration.Merge
import Substitutability.Proofs.Configuration.Numbers
import Substitutability.Proofs.Configuration.RoundTrip
import Substitutability.Proofs.Configuration.Settings
import Substitutability.Proofs.Configuration.Validity
import Substitutability.Proofs.Configuration.Variables
import Substitutability.Proofs.ContextSet
import Substitutability.Proofs.Corpus.Labels
import Substitutability.Proofs.Corpus.Markers
import Substitutability.Proofs.Corpus.TextFormat
import Substitutability.Proofs.Corpus.Tokens
import Substitutability.Proofs.Corpus.WellFormed
import Substitutability.Proofs.DisjointSet
import Substitutability.Proofs.DisjointSet.Chains
import Substitutability.Proofs.DisjointSet.Counting
import Substitutability.Proofs.DisjointSet.Runs
import Substitutability.Proofs.Drawing.Dot
import Substitutability.Proofs.Drawing.Payload
import Substitutability.Proofs.Drawing.Pictures
import Substitutability.Proofs.Drawing.Protection
import Substitutability.Proofs.Drawing.Statements
import Substitutability.Proofs.Extraction
import Substitutability.Proofs.Extraction.Places
import Substitutability.Proofs.Extraction.Records
import Substitutability.Proofs.Files.Siblings
import Substitutability.Proofs.Files.Tree
import Substitutability.Proofs.Grammar.Agreement
import Substitutability.Proofs.Grammar.Alphabet
import Substitutability.Proofs.Grammar.Collecting
import Substitutability.Proofs.Grammar.Contexts
import Substitutability.Proofs.Grammar.Derivation
import Substitutability.Proofs.Grammar.Induction
import Substitutability.Proofs.Grammar.Productivity
import Substitutability.Proofs.Grammar.Reading
import Substitutability.Proofs.Grammar.Soundness
import Substitutability.Proofs.Graph.Building
import Substitutability.Proofs.Graph.Degrees
import Substitutability.Proofs.Graph.Edges
import Substitutability.Proofs.Graph.Fanouts
import Substitutability.Proofs.Graph.Insertions
import Substitutability.Proofs.Graph.Neighbors
import Substitutability.Proofs.Graph.OfContexts
import Substitutability.Proofs.Graph.Tables
import Substitutability.Proofs.Interchange
import Substitutability.Proofs.Json.Calls
import Substitutability.Proofs.Json.Faults
import Substitutability.Proofs.Json.Numbers
import Substitutability.Proofs.Json.Printable
import Substitutability.Proofs.Json.Quantities
import Substitutability.Proofs.Json.RoundTrip
import Substitutability.Proofs.Json.Strings
import Substitutability.Proofs.Language
import Substitutability.Proofs.Learning.Evidence
import Substitutability.Proofs.Learning.Learner
import Substitutability.Proofs.Learning.Loading
import Substitutability.Proofs.Learning.Reversal
import Substitutability.Proofs.Learning.SentenceOrder
import Substitutability.Proofs.Learning.Statistics
import Substitutability.Proofs.Learning.Tokens
import Substitutability.Proofs.Learning.Warnings
import Substitutability.Proofs.LengthBounds
import Substitutability.Proofs.Occurrences
import Substitutability.Proofs.Partition.Checking
import Substitutability.Proofs.Partition.Classes
import Substitutability.Proofs.Partition.Components
import Substitutability.Proofs.Partition.Counting
import Substitutability.Proofs.Partition.Membership
import Substitutability.Proofs.Report.Accounting
import Substitutability.Proofs.Report.Entries
import Substitutability.Proofs.Report.Printable
import Substitutability.Proofs.Sorted
import Substitutability.Proofs.Surroundings
import Substitutability.Proofs.Text.Characters
import Substitutability.Proofs.Text.Decimal
import Substitutability.Proofs.Text.Integer
import Substitutability.Proofs.Text.Scalars
import Substitutability.Proofs.Text.WellFormed
import Substitutability.Proofs.Text.Words
import Substitutability.Proofs.Windows
import Substitutability.Report.Basic
import Substitutability.Report.Markup
import Substitutability.Sorted.Map
import Substitutability.Sorted.Set
import Substitutability.Text.Bytes
import Substitutability.Text.Utf8
