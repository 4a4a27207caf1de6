import OperandFlow.Analysis
import OperandFlow.Binary64
import OperandFlow.CommandLine
import OperandFlow.Equality
import OperandFlow.Graph.Basic
import OperandFlow.Graph.Block
import OperandFlow.Graph.Dot
import OperandFlow.Graph.Error
import OperandFlow.Graph.Execution
import OperandFlow.Graph.Growth
import OperandFlow.Graph.Linking
import OperandFlow.Graph.Node
import OperandFlow.Graph.Origin
import OperandFlow.Graph.Report
import OperandFlow.Graph.Shape
import OperandFlow.Journal.Basic
import OperandFlow.Journal.Event
import OperandFlow.Journal.Logged
import OperandFlow.Journal.Profile
import OperandFlow.Json.Basic
import OperandFlow.Json.Numeral
import OperandFlow.Json.Printer
import OperandFlow.Json.Reader
import OperandFlow.Json.Token
import OperandFlow.Main
import OperandFlow.Opcode
import OperandFlow.Options
import OperandFlow.Ordered
import OperandFlow.Proofs.Ancestors
import OperandFlow.Proofs.Anomalies
import OperandFlow.Proofs.Arena.Answers
import OperandFlow.Proofs.Arena.Basic
import OperandFlow.Proofs.Arena.Edges
import OperandFlow.Proofs.Arena.Growth
import OperandFlow.Proofs.Arena.Linking
import OperandFlow.Proofs.Arena.Producers
import OperandFlow.Proofs.Arena.Queries
import OperandFlow.Proofs.Arena.Refinement
import OperandFlow.Proofs.Arena.Representation
import OperandFlow.Proofs.Arena.Scope
import OperandFlow.Proofs.Arena.Search
import OperandFlow.Proofs.Arena.Session
import OperandFlow.Proofs.Arena.Tables
import OperandFlow.Proofs.Arrivals
import OperandFlow.Proofs.Bounds
import OperandFlow.Proofs.Calls
import OperandFlow.Proofs.Chains
import OperandFlow.Proofs.Counters
import OperandFlow.Proofs.Eagerness
import OperandFlow.Proofs.Equality
import OperandFlow.Proofs.Events
import OperandFlow.Proofs.Graph.Blocks
import OperandFlow.Proofs.Graph.Bounds
import OperandFlow.Proofs.Graph.Causality
import OperandFlow.Proofs.Graph.Census
import OperandFlow.Proofs.Graph.Chains
import OperandFlow.Proofs.Graph.Coherence
import OperandFlow.Proofs.Graph.Data
import OperandFlow.Proofs.Graph.Edge
import OperandFlow.Proofs.Graph.Faults
import OperandFlow.Proofs.Graph.Growth
import OperandFlow.Proofs.Graph.Hashing
import OperandFlow.Proofs.Graph.Lifetime
import OperandFlow.Proofs.Graph.Lookup
import OperandFlow.Proofs.Graph.Masks
import OperandFlow.Proofs.Graph.Matching
import OperandFlow.Proofs.Graph.Moves
import OperandFlow.Proofs.Graph.Outline
import OperandFlow.Proofs.Graph.Pacing
import OperandFlow.Proofs.Graph.Preimages
import OperandFlow.Proofs.Graph.Producers
import OperandFlow.Proofs.Graph.Questions
import OperandFlow.Proofs.Graph.Relink
import OperandFlow.Proofs.Graph.Resolution
import OperandFlow.Proofs.Graph.Routes
import OperandFlow.Proofs.Graph.Scope
import OperandFlow.Proofs.Graph.Search
import OperandFlow.Proofs.Graph.Skeleton
import OperandFlow.Proofs.Graph.Spans
import OperandFlow.Proofs.Graph.Stability
import OperandFlow.Proofs.Graph.Steady
import OperandFlow.Proofs.Graph.Tallies
import OperandFlow.Proofs.Graph.Unrolling
import OperandFlow.Proofs.Graph.Upkeep
import OperandFlow.Proofs.Graph.View
import OperandFlow.Proofs.Graph.ViewGrowth
import OperandFlow.Proofs.Graph.ViewLinks
import OperandFlow.Proofs.Graph.ViewSearch
import OperandFlow.Proofs.Graph.Waiting
import OperandFlow.Proofs.Graph.Wiring
import OperandFlow.Proofs.Hashes
import OperandFlow.Proofs.Idempotence
import OperandFlow.Proofs.Independence
import OperandFlow.Proofs.Interleaving
import OperandFlow.Proofs.Json.Delimiting
import OperandFlow.Proofs.Json.RoundTrip
import OperandFlow.Proofs.Json.Scan
import OperandFlow.Proofs.Lifecycle
import OperandFlow.Proofs.Links
import OperandFlow.Proofs.Literals
import OperandFlow.Proofs.Loads
import OperandFlow.Proofs.Masks
import OperandFlow.Proofs.Operands
import OperandFlow.Proofs.Order
import OperandFlow.Proofs.Origins
import OperandFlow.Proofs.Paths
import OperandFlow.Proofs.Prefix
import OperandFlow.Proofs.Records
import OperandFlow.Proofs.Refusals
import OperandFlow.Proofs.Removal
import OperandFlow.Proofs.Replay
import OperandFlow.Proofs.Runs
import OperandFlow.Proofs.Session
import OperandFlow.Proofs.Shapes
import OperandFlow.Proofs.Simulation
import OperandFlow.Proofs.Skeleton
import OperandFlow.Proofs.Spans
import OperandFlow.Proofs.Term.Brackets
import OperandFlow.Proofs.Term.Calls
import OperandFlow.Proofs.Term.Convergence
import OperandFlow.Proofs.Term.Forests
import OperandFlow.Proofs.Term.Guards
import OperandFlow.Proofs.Term.Keys
import OperandFlow.Proofs.Term.Merging
import OperandFlow.Proofs.Term.Nesting
import OperandFlow.Proofs.Term.Ranges
import OperandFlow.Proofs.Term.Reads
import OperandFlow.Proofs.Term.Replacing
import OperandFlow.Proofs.Term.Scanning
import OperandFlow.Proofs.Term.Shortening
import OperandFlow.Proofs.Term.Updates
import OperandFlow.Proofs.Term.Words
import OperandFlow.Proofs.Text.Bytes
import OperandFlow.Proofs.Text.Search
import OperandFlow.Proofs.Unknowns
import OperandFlow.Proofs.Unrolling
import OperandFlow.Sha3
import OperandFlow.Statistics
import OperandFlow.Term.Call
import OperandFlow.Term.CalldataRange
import OperandFlow.Term.Canonical
import OperandFlow.Term.Group
import OperandFlow.Term.Guard
import OperandFlow.Term.Literal
import OperandFlow.Term.Wrapper
import OperandFlow.Text.Blank
import OperandFlow.Text.Hex
import OperandFlow.Text.Numeral
import OperandFlow.Text.Search
import OperandFlow.Trace.Record
import OperandFlow.Trace.Replay
import OperandFlow.Value
