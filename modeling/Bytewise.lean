import Bytewise.Artifact
import Bytewise.ByteSet
import Bytewise.Code
import Bytewise.CommandLine.Arguments
import Bytewise.CommandLine.Run
import Bytewise.Diagnostic
import Bytewise.Exploration
import Bytewise.Graph.Basic
import Bytewise.Graph.Builder
import Bytewise.Graph.Loops
import Bytewise.Graph.Spans
import Bytewise.Graph.Walk
import Bytewise.Json.Printer
import Bytewise.Json.Reader
import Bytewise.Json.Scanner
import Bytewise.Json.Value
import Bytewise.Machine.Basic
import Bytewise.Machine.Forwarding
import Bytewise.Machine.Walk
import Bytewise.Main
import Bytewise.Manifest.Basic
import Bytewise.Manifest.Graph
import Bytewise.Manifest.Reader
import Bytewise.NameSupply
import Bytewise.Options
import Bytewise.Parser.Assembly
import Bytewise.Parser.Basic
import Bytewise.Parser.OfGraph
import Bytewise.Program.Basic
import Bytewise.Program.Fields
import Bytewise.Program.Header
import Bytewise.Program.Intrinsic
import Bytewise.Program.OfParser
import Bytewise.Program.Printer
import Bytewise.Program.Ranges
import Bytewise.Property
import Bytewise.Text.Identifier
import Bytewise.Text.Literal
import Bytewise.Text.Sha256
import Bytewise.Text.Utf8
import Bytewise.Transform
import Bytewise.Trie
import Bytewise.Proofs.Artifact
import Bytewise.Proofs.ByteSet
import Bytewise.Proofs.Code
import Bytewise.Proofs.Except
import Bytewise.Proofs.Execution.Alike
import Bytewise.Proofs.Execution.Basic
import Bytewise.Proofs.Execution.Chunks
import Bytewise.Proofs.Execution.Discipline
import Bytewise.Proofs.Execution.Indices
import Bytewise.Proofs.Execution.Literals
import Bytewise.Proofs.Execution.Pauses
import Bytewise.Proofs.Execution.Returns
import Bytewise.Proofs.Execution.Sessions
import Bytewise.Proofs.Execution.Steps
import Bytewise.Proofs.Exploration
import Bytewise.Proofs.Exploration.Checked
import Bytewise.Proofs.Exploration.Distance
import Bytewise.Proofs.Graph.Activity
import Bytewise.Proofs.Graph.Alarms
import Bytewise.Proofs.Graph.Allocation
import Bytewise.Proofs.Graph.Calls
import Bytewise.Proofs.Graph.Lawful
import Bytewise.Proofs.Graph.LiveCycles
import Bytewise.Proofs.Graph.Loops
import Bytewise.Proofs.Graph.Matching
import Bytewise.Proofs.Graph.OpenSpans
import Bytewise.Proofs.Graph.Progress
import Bytewise.Proofs.Graph.Properties
import Bytewise.Proofs.Graph.Reach
import Bytewise.Proofs.Graph.Rejections
import Bytewise.Proofs.Graph.Slots
import Bytewise.Proofs.Graph.Sound
import Bytewise.Proofs.Graph.SpanEnds
import Bytewise.Proofs.Graph.TwinLoops
import Bytewise.Proofs.Graph.TwinSpans
import Bytewise.Proofs.List
import Bytewise.Proofs.Machine.Abreast
import Bytewise.Proofs.Machine.Fixpoint
import Bytewise.Proofs.Machine.Forwarding
import Bytewise.Proofs.Machine.Onward
import Bytewise.Proofs.Machine.Skipping
import Bytewise.Proofs.Machine.Twins
import Bytewise.Proofs.Manifest.Faithful
import Bytewise.Proofs.Manifest.Loading
import Bytewise.Proofs.Manifest.Reordering
import Bytewise.Proofs.Matching
import Bytewise.Proofs.NameSupply
import Bytewise.Proofs.Numbering
import Bytewise.Proofs.Parser.Acceptance
import Bytewise.Proofs.Parser.Actions
import Bytewise.Proofs.Parser.Assembled
import Bytewise.Proofs.Parser.Chunking
import Bytewise.Proofs.Parser.Comparing
import Bytewise.Proofs.Parser.Dispatch
import Bytewise.Proofs.Parser.Edges
import Bytewise.Proofs.Parser.Formed
import Bytewise.Proofs.Parser.Image
import Bytewise.Proofs.Parser.Layout
import Bytewise.Proofs.Parser.Literals
import Bytewise.Proofs.Parser.Matching
import Bytewise.Proofs.Parser.Merging
import Bytewise.Proofs.Parser.Names
import Bytewise.Proofs.Parser.Numbering
import Bytewise.Proofs.Parser.Pausing
import Bytewise.Proofs.Parser.Prefixes
import Bytewise.Proofs.Parser.Reading
import Bytewise.Proofs.Parser.Returning
import Bytewise.Proofs.Parser.Succeeds
import Bytewise.Proofs.Parser.Tables
import Bytewise.Proofs.Parser.Tracks
import Bytewise.Proofs.Parser.Tries
import Bytewise.Proofs.Parser.Twins
import Bytewise.Proofs.Parser.TwinTries
import Bytewise.Proofs.Parser.Values
import Bytewise.Proofs.Parser.WellFormed
import Bytewise.Proofs.Program.Accesses
import Bytewise.Proofs.Program.Arithmetic
import Bytewise.Proofs.Program.Bodies
import Bytewise.Proofs.Program.BodyLines
import Bytewise.Proofs.Program.Checks
import Bytewise.Proofs.Program.Constants
import Bytewise.Proofs.Program.Declared
import Bytewise.Proofs.Program.Emission
import Bytewise.Proofs.Program.Executes
import Bytewise.Proofs.Program.Fields
import Bytewise.Proofs.Program.FieldTypes
import Bytewise.Proofs.Program.Guards
import Bytewise.Proofs.Program.LabelLines
import Bytewise.Proofs.Program.Lines
import Bytewise.Proofs.Program.MulAdd
import Bytewise.Proofs.Program.Prefixes
import Bytewise.Proofs.Program.RangeFolding
import Bytewise.Proofs.Program.Ranges
import Bytewise.Proofs.Program.Readers
import Bytewise.Proofs.Program.Resumption
import Bytewise.Proofs.Program.Shown
import Bytewise.Proofs.Program.Skipping
import Bytewise.Proofs.Program.SourceFields
import Bytewise.Proofs.Program.Spelling
import Bytewise.Proofs.Program.Statements
import Bytewise.Proofs.Program.StructLines
import Bytewise.Proofs.Program.Symbols
import Bytewise.Proofs.Program.TableBlocks
import Bytewise.Proofs.Program.TableLines
import Bytewise.Proofs.Program.Tables
import Bytewise.Proofs.Text.Accesses
import Bytewise.Proofs.Text.Entries
import Bytewise.Proofs.Text.Lines
import Bytewise.Proofs.Text.Literal
import Bytewise.Proofs.Trie.Checked
import Bytewise.Proofs.Trie.Covers
import Bytewise.Proofs.Trie.Formed
import Bytewise.Proofs.Trie.Leaves
import Bytewise.Proofs.Trie.Matching
import Bytewise.Proofs.Trie.Order
import Bytewise.Proofs.Trie.Scan
import Bytewise.Proofs.Walks
