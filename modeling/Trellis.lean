import Trellis.Command.Arguments
import Trellis.Command.Run
import Trellis.Engine.Action
import Trellis.Engine.Basic
import Trellis.Engine.Diagnostic
import Trellis.Engine.Execute
import Trellis.Engine.Frame
import Trellis.Engine.Host
import Trellis.Engine.Output
import Trellis.Engine.Registry
import Trellis.Engine.Schedule
import Trellis.Engine.Section
import Trellis.Engine.Table
import Trellis.Fault
import Trellis.Json.Basic
import Trellis.Json.Parse
import Trellis.Json.Record
import Trellis.Json.Token
import Trellis.Json.Write
import Trellis.Main
import Trellis.Markup.Basic
import Trellis.Markup.Entity
import Trellis.Markup.Parse
import Trellis.Markup.Token
import Trellis.Number.Binary64
import Trellis.Number.Decimal
import Trellis.Number.Text
import Trellis.Operand.Operator
import Trellis.Operand.Stack
import Trellis.Operand.Value
import Trellis.Program.Basic
import Trellis.Program.Check
import Trellis.Program.Decode
import Trellis.Program.Encode
import Trellis.Program.Instruction
import Trellis.Text.Blank
import Trellis.Text.Printable
import Trellis.Text.Quoted
import Trellis.Text.Terminal
import Trellis.Tree.Basic
import Trellis.Tree.Fault
import Trellis.Tree.Handle
import Trellis.Tree.Input
import Trellis.Tree.Node
import Trellis.Proofs.Tree.Forest
import Trellis.Proofs.Tree.Sound
import Trellis.Proofs.Tree.WellFormed
import Trellis.Proofs.Engine.Stable
import Trellis.Proofs.Engine.Confined
import Trellis.Proofs.Tree.Growth
import Trellis.Proofs.Engine.Growth
import Trellis.Proofs.Rendering.Evaluator
import Trellis.Proofs.Rendering.Simulation
import Trellis.Proofs.Engine.Reachable
import Trellis.Proofs.Tree.Within
import Trellis.Proofs.Engine.Mount
import Trellis.Proofs.Rendering.Refinement
import Trellis.Proofs.Engine.Settled
import Trellis.Proofs.Engine.Echo
import Trellis.Proofs.Markup.Escape
import Trellis.Proofs.Markup.Canonical
import Trellis.Proofs.Markup.Regular
import Trellis.Proofs.Text.Scan
import Trellis.Proofs.Engine.Loading
import Trellis.Proofs.Engine.Coverage
import Trellis.Proofs.Engine.Depth
import Trellis.Proofs.Rendering.Bindings
import Trellis.Proofs.Rendering.History
import Trellis.Proofs.Number.Rounding
import Trellis.Proofs.Number.Shortest
import Trellis.Proofs.Json.Number
import Trellis.Proofs.Json.Text
import Trellis.Proofs.Json.Record
import Trellis.Proofs.Program.Forms
import Trellis.Proofs.Program.Codec
import Trellis.Proofs.Program.Presentation
import Trellis.Proofs.Scheduling.Requests
import Trellis.Proofs.Scheduling.Cycle
import Trellis.Proofs.Scheduling.Turn
import Trellis.Proofs.Scheduling.Deadline
import Trellis.Proofs.Scheduling.Window
import Trellis.Proofs.Scheduling.Storm
import Trellis.Proofs.Tree.Generations
import Trellis.Proofs.Tree.Root
import Trellis.Proofs.Listening.Marks
import Trellis.Proofs.Listening.Ledger
import Trellis.Proofs.Rendering.RawText
import Trellis.Proofs.Operand.Bounded
import Trellis.Proofs.Operand.Locality
import Trellis.Proofs.Engine.Contained
import Trellis.Proofs.Engine.Faults
import Trellis.Proofs.Engine.Nesting
import Trellis.Proofs.Engine.Trust
import Trellis.Proofs.Scheduling.Spacing
import Trellis.Proofs.Engine.Recursion
import Trellis.Proofs.Engine.Discipline
import Trellis.Proofs.Tree.Rows
import Trellis.Proofs.Tree.Rearrange
import Trellis.Proofs.Engine.AppendOnly
import Trellis.Proofs.Engine.Blind
import Trellis.Proofs.Listening.Delivery
import Trellis.Proofs.Operand.Exact
import Trellis.Proofs.Markup.Pieces
import Trellis.Proofs.Program.Findings
import Trellis.Proofs.Markup.Closings
import Trellis.Proofs.Markup.Entities
import Trellis.Proofs.Scheduling.Alignment
import Trellis.Proofs.Tree.Search
import Trellis.Proofs.Engine.Sites
import Trellis.Proofs.Markup.Positions
import Trellis.Proofs.Tree.Arena
import Trellis.Proofs.Tree.Links
