import PlanGraph.Command.Arguments
import PlanGraph.Command.Files
import PlanGraph.Command.Run
import PlanGraph.Digest.Md5
import PlanGraph.Graph.Basic
import PlanGraph.Graph.Builder
import PlanGraph.Graph.Compilation
import PlanGraph.Graph.CycleBook
import PlanGraph.Graph.Description
import PlanGraph.Graph.Export
import PlanGraph.Graph.Fingerprint
import PlanGraph.Graph.Finishing
import PlanGraph.Graph.Forest
import PlanGraph.Graph.Nursery
import PlanGraph.Graph.Outline
import PlanGraph.Graph.Propagation
import PlanGraph.Graph.Vocabulary
import PlanGraph.Hierarchy
import PlanGraph.Hierarchy.Vocabulary
import PlanGraph.Json.Reader
import PlanGraph.Json.Record
import PlanGraph.Json.Token
import PlanGraph.Json.Value
import PlanGraph.Main
import PlanGraph.OrderedMap
import PlanGraph.OrderedSet
import PlanGraph.Plan.Basic
import PlanGraph.Plan.Decoding
import PlanGraph.Plan.Document
import PlanGraph.Plan.Pattern
import PlanGraph.Plan.PatternText
import PlanGraph.Plan.Prefixes
import PlanGraph.Rdf.Format
import PlanGraph.Rdf.Iri
import PlanGraph.Rdf.IriFault
import PlanGraph.Rdf.JsonLd
import PlanGraph.Rdf.LanguageTag
import PlanGraph.Rdf.LiteralText
import PlanGraph.Rdf.Term
import PlanGraph.Rdf.TriG
import PlanGraph.Rdf.Vocabulary
import PlanGraph.Roots
import PlanGraph.Sparql.Algebra
import PlanGraph.Sparql.Block
import PlanGraph.Sparql.Expression
import PlanGraph.Sparql.Group
import PlanGraph.Sparql.Lexical
import PlanGraph.Sparql.Nested
import PlanGraph.Sparql.Parser
import PlanGraph.Sparql.Query
import PlanGraph.Sparql.Selection
import PlanGraph.Text.Blank
import PlanGraph.Text.CharClass
import PlanGraph.Text.Decoding
import PlanGraph.Text.Escape
import PlanGraph.Text.Split
import PlanGraph.Turtle.Document
import PlanGraph.Turtle.Name
import PlanGraph.Turtle.Token
import PlanGraph.Proofs.Collections
import PlanGraph.Proofs.Hierarchy.Closure
import PlanGraph.Proofs.Turtle.Reading
import PlanGraph.Proofs.Hierarchy.Histories
import PlanGraph.Proofs.Graph.Place
import PlanGraph.Proofs.Graph.Scanning
import PlanGraph.Proofs.Graph.Links
import PlanGraph.Proofs.Graph.Growth
import PlanGraph.Proofs.Graph.Nursery
import PlanGraph.Proofs.Graph.Marks
import PlanGraph.Proofs.Graph.Gains
import PlanGraph.Proofs.Graph.Inclusion
import PlanGraph.Proofs.Graph.Registry
import PlanGraph.Proofs.Graph.CycleBook
import PlanGraph.Proofs.Graph.CycleRequests
import PlanGraph.Proofs.Graph.CycleCalls
import PlanGraph.Proofs.Graph.Development
import PlanGraph.Proofs.Graph.Entries
import PlanGraph.Proofs.Graph.InitialGraph
import PlanGraph.Proofs.Graph.Trie
import PlanGraph.Proofs.Graph.Spread
import PlanGraph.Proofs.Graph.Siblings
import PlanGraph.Proofs.Graph.Propagation
import PlanGraph.Proofs.Graph.Finishing
import PlanGraph.Proofs.Graph.Compilation
import PlanGraph.Proofs.Graph.Views
import PlanGraph.Proofs.Graph.Alike
import PlanGraph.Proofs.Graph.Lengths
import PlanGraph.Proofs.Graph.Reordering
import PlanGraph.Proofs.Graph.Monotonicity
import PlanGraph.Proofs.Graph.InPlace
import PlanGraph.Proofs.Graph.Narrowing
import PlanGraph.Proofs.Graph.Passes
import PlanGraph.Proofs.Graph.Building
import PlanGraph.Proofs.Graph.Deduplication
import PlanGraph.Proofs.Graph.FailedEntries
import PlanGraph.Proofs.Graph.Extension
import PlanGraph.Proofs.Graph.WellFormed
import PlanGraph.Proofs.Graph.Failures
import PlanGraph.Proofs.Graph.Success
import PlanGraph.Proofs.Graph.Trees
import PlanGraph.Proofs.Graph.RepeatedEntries
import PlanGraph.Proofs.Graph.Separation
import PlanGraph.Proofs.Graph.Reversal
import PlanGraph.Proofs.Graph.Promotion
import PlanGraph.Proofs.Graph.Repetition
import PlanGraph.Proofs.Graph.Resumption
import PlanGraph.Proofs.Description.Labels
import PlanGraph.Proofs.Description.Records
import PlanGraph.Proofs.Description.Sections
import PlanGraph.Proofs.Description.Describable
import PlanGraph.Proofs.Description.Faithful
import PlanGraph.Proofs.Description.Closed
import PlanGraph.Proofs.Description.Names
import PlanGraph.Proofs.Description.Terms
import PlanGraph.Proofs.Description.Decoded
import PlanGraph.Proofs.Description.NQuadsReading
import PlanGraph.Proofs.Description.TriGLabels
import PlanGraph.Proofs.Command.Run
import PlanGraph.Proofs.Command.FailedRuns
import PlanGraph.Proofs.Command.Stages
import PlanGraph.Proofs.Command.Pipeline
import PlanGraph.Proofs.Text.ReadBack
import PlanGraph.Proofs.Rdf.IriCharacters
import PlanGraph.Proofs.Rdf.IriFaults
import PlanGraph.Proofs.Rdf.FormatNames
import PlanGraph.Proofs.Rdf.LiteralText
import PlanGraph.Proofs.Rdf.BlankLabel
import PlanGraph.Proofs.Rdf.LanguageTag
import PlanGraph.Proofs.Rdf.NQuads
import PlanGraph.Proofs.Rdf.NQuadsText
import PlanGraph.Proofs.Rdf.TriGText
import PlanGraph.Proofs.Json.Spelling
import PlanGraph.Proofs.Json.Lexing
import PlanGraph.Proofs.Json.StrayBytes
import PlanGraph.Proofs.Json.Reading
import PlanGraph.Proofs.Json.Accepting
import PlanGraph.Proofs.Json.Records
import PlanGraph.Proofs.Json.RecordReading
import PlanGraph.Proofs.Plan.TermText
import PlanGraph.Proofs.Plan.Documents
import PlanGraph.Proofs.Plan.Spelling
import PlanGraph.Proofs.Plan.CompactNames
import PlanGraph.Proofs.Plan.TermRoundTrip
import PlanGraph.Proofs.Plan.DocumentReading
import PlanGraph.Proofs.Plan.Faults
import PlanGraph.Proofs.Plan.DecodingOutcome
import PlanGraph.Proofs.Graph.SeedLists
import PlanGraph.Proofs.Graph.Walks
import PlanGraph.Proofs.Graph.Outline
import PlanGraph.Proofs.Sparql.Roots
