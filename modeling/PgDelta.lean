import PgDelta.Lib.Bytes
import PgDelta.Lib.Lines
import PgDelta.Lib.Utf8
import PgDelta.Lib.Numerals
import PgDelta.Lib.Calendar
import PgDelta.Error
import PgDelta.Dump.ChunkReader
import PgDelta.Dump.ObjectSource
import PgDelta.Copy.Decode
import PgDelta.Copy.RoundTrip
import PgDelta.Scan.Lexer
import PgDelta.Scan.Scanner
import PgDelta.Scan.SqlLine
import PgDelta.Scan.LineMachine
import PgDelta.Scan.Payload
import PgDelta.Scan.Chunking
import PgDelta.Scan.RoundTrip
import PgDelta.Scan.Completeness
import PgDelta.Scan.Items
import PgDelta.Scan.TypeText
import PgDelta.Scan.Declaration
import PgDelta.Lib.Text
import PgDelta.Types.Resolve
import PgDelta.Types.Values
import PgDelta.Types.Builders
import PgDelta.Types.Rows
import PgDelta.Sink.Store
import PgDelta.Sink.Table
import PgDelta.Pipeline.Config
import PgDelta.Manifest.History
import PgDelta.Lib.Transition
import PgDelta.Pipeline.Worker
import PgDelta.Pipeline.Reader
import PgDelta.Pipeline.System
import PgDelta.Pipeline.Decoding
import PgDelta.Pipeline.Moves
import PgDelta.Scan.Blocks
import PgDelta.Lib.Family
import PgDelta.Pipeline.Reactions
import PgDelta.Pipeline.Crew
import PgDelta.Pipeline.Pool
import PgDelta.Pipeline.Alignment
import PgDelta.Pipeline.Accounting
import PgDelta.Pipeline.Progress
import PgDelta.Types.Dates
import PgDelta.Types.Decimals
import PgDelta.Types.Substitution
import PgDelta.Types.Instants
import PgDelta.Types.Agreement
import PgDelta.Types.Mapping
import PgDelta.Types.Admission
import PgDelta.Types.Overflow
import PgDelta.Types.Refusals
import PgDelta.Pipeline.Causes
import PgDelta.Pipeline.Reported
import PgDelta.Scan.Ending
import PgDelta.Scan.Influence
import PgDelta.Pipeline.Structure
import PgDelta.Pipeline.DeclarationOrder
import PgDelta.Scan.Exclusion
import PgDelta.Lib.Radix
import PgDelta.Copy.Unescape
import PgDelta.Copy.WellFormed
import PgDelta.Types.Bytea
import PgDelta.Types.ArrayText
import PgDelta.Types.Exactness
import PgDelta.Dump.Ceiling
import PgDelta.Types.Nulls
import PgDelta.Types.ArrayValues
import PgDelta.Sink.Locations
import PgDelta.Manifest.Reserved
import PgDelta.Lib.Batching
import PgDelta.Pipeline.Batches
import PgDelta.Chan.Channel
import PgDelta.Chan.Fifo
import PgDelta.Chan.Wakeups
import PgDelta.Scan.Nesting
import PgDelta.Catalog.Registration
import PgDelta.Anonymise.Synth
import PgDelta.Anonymise.Shape
import PgDelta.Anonymise.Escapes
import PgDelta.Anonymise.Marks
import PgDelta.Anonymise.Kinds
import PgDelta.Anonymise.Moments
import PgDelta.Anonymise.Texts
import PgDelta.Anonymise.Numbers
import PgDelta.Anonymise.Hours
import PgDelta.Anonymise.Columns
import PgDelta.Anonymise.Arrays
import PgDelta.Anonymise.Rewriting
import PgDelta.Pipeline.Acceptance
import PgDelta.Anonymise.Rows
import PgDelta.Anonymise.Loads
import PgDelta.Pipeline.Refinement
import PgDelta.Sink.Growth
import PgDelta.Manifest.Appending
import PgDelta.Pipeline.Visibility
import PgDelta.Lib.Replay
import PgDelta.Pipeline.Serial
import PgDelta.Pipeline.Counts
import PgDelta.Sink.Drift
import PgDelta.Pipeline.Placement
import PgDelta.Pipeline.Staging
import PgDelta.Pipeline.Headers
import PgDelta.Pipeline.Commits
import PgDelta.Pipeline.Declared
import PgDelta.Pipeline.Concluding
import PgDelta.Pipeline.Versions
import PgDelta.Pipeline.Overwriting
import PgDelta.Pipeline.Snapshots
import PgDelta.Pipeline.Containment
import PgDelta.Pipeline.Determinacy
