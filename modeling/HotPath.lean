import HotPath.Value.Basic
import HotPath.Value.Operator
import HotPath.Location
import HotPath.Instr.Capability
import HotPath.Instr.Basic
import HotPath.Policy
import HotPath.Fault
import HotPath.Program.Function
import HotPath.Program.Facts
import HotPath.Program.Basic
import HotPath.Json.Basic
import HotPath.Json.Quoted
import HotPath.Json.Number
import HotPath.Json.Reader
import HotPath.Json.Decode
import HotPath.Codec.Value
import HotPath.Codec.Instr
import HotPath.Codec.Program
import HotPath.Codec.Policy
import HotPath.Program.Assembler
import HotPath.Frame
import HotPath.Console
import HotPath.Exit
import HotPath.Machine
import HotPath.Binding
import HotPath.Trace.Basic
import HotPath.Trace.Simplify
import HotPath.Trace.Run
import HotPath.Digest
import HotPath.Table.Buckets
import HotPath.Table.Basic
import HotPath.Unit.Basic
import HotPath.Unit.Site
import HotPath.Unit.Store
import HotPath.Heat
import HotPath.Region.Basic
import HotPath.Region.Merge
import HotPath.Region.Grow
import HotPath.Promotion
import HotPath.Segment
import HotPath.Engine.Phase
import HotPath.Engine.Stats
import HotPath.Engine.Basic
import HotPath.Engine.Turn
import HotPath.Engine.Drive
import HotPath.Engine.Trial
import HotPath.Cli.Directory
import HotPath.Cli.Options
import HotPath.Cli.Run
import HotPath.Main
import HotPath.Proofs.Machine.Allowance
import HotPath.Proofs.Machine.Reach
import HotPath.Proofs.Machine.Faults
import HotPath.Proofs.Machine.Stack
import HotPath.Proofs.Machine.Capabilities
import HotPath.Proofs.Program.Checked
import HotPath.Proofs.Trace.Bounds
import HotPath.Proofs.Trace.Allowance
import HotPath.Proofs.Trace.Simplify
import HotPath.Proofs.Trace.Paths
import HotPath.Proofs.Region.Covers
import HotPath.Proofs.Region.Step
import HotPath.Proofs.Region.Merge
import HotPath.Proofs.Region.Walk
import HotPath.Proofs.Region.Entry
import HotPath.Proofs.Region.Committed
import HotPath.Proofs.Region.WellFormed
import HotPath.Proofs.Region.HotArm
import HotPath.Proofs.Region.Total
import HotPath.Proofs.Unit.Sound
import HotPath.Proofs.Engine.Decide
import HotPath.Proofs.Engine.Turn
import HotPath.Proofs.Engine.Drive
import HotPath.Proofs.Engine.Equivalence
import HotPath.Proofs.Engine.Steps
import HotPath.Proofs.Engine.Shared
import HotPath.Proofs.Engine.Phases
import HotPath.Proofs.Engine.Gaps
import HotPath.Proofs.Program.Effects
import HotPath.Proofs.Machine.Quiet
import HotPath.Proofs.Machine.Taint
import HotPath.Proofs.Json.Lexeme
import HotPath.Proofs.Json.Layout
import HotPath.Proofs.Json.Record
import HotPath.Proofs.Codec.RoundTrip
import HotPath.Proofs.Engine.Books
import HotPath.Proofs.Engine.Workers
import HotPath.Proofs.Unit.Promotions
import HotPath.Proofs.Engine.Crew
import HotPath.Proofs.Unit.Counts
import HotPath.Proofs.Engine.Thresholds
import HotPath.Proofs.Machine.Safety
import HotPath.Proofs.Engine.Segments
import HotPath.Proofs.Region.Reconcile
import HotPath.Proofs.Machine.Watch
import HotPath.Proofs.Unit.History
import HotPath.Proofs.Region.Budget
import HotPath.Proofs.Region.Course
import HotPath.Proofs.Engine.Ledger
import HotPath.Proofs.Program.Splits
import HotPath.Proofs.Engine.Generic
import HotPath.Proofs.Region.Empty
import HotPath.Proofs.Engine.Attempts
import HotPath.Proofs.Engine.Memo
import HotPath.Proofs.Region.Arms
import HotPath.Proofs.Program.Labels
import HotPath.Proofs.Region.Slots
import HotPath.Proofs.Unit.Windows
import HotPath.Proofs.Program.Calls
import HotPath.Proofs.Trace.Normal
