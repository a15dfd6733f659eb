import PegMachine.Bytecode.Assembly
import PegMachine.Bytecode.Decode
import PegMachine.Bytecode.Encode
import PegMachine.Bytecode.Header
import PegMachine.Bytecode.Load
import PegMachine.Bytecode.Reader
import PegMachine.Bytes
import PegMachine.CharSet
import PegMachine.CharSet.Ranges
import PegMachine.CommandLine
import PegMachine.CommandLine.Arguments
import PegMachine.CommandLine.Location
import PegMachine.Context
import PegMachine.Context.Run
import PegMachine.Error
import PegMachine.Instruction
import PegMachine.Instruction.Printer
import PegMachine.Journal
import PegMachine.JumpTable
import PegMachine.Machine
import PegMachine.Machine.Root
import PegMachine.Machine.Stacks
import PegMachine.Main
import PegMachine.Opcode
import PegMachine.Pool
import PegMachine.Profile
import PegMachine.Profile.Report
import PegMachine.Proofs.Bytecode.Acceptance
import PegMachine.Proofs.Bytecode.Canonical
import PegMachine.Proofs.Bytecode.Faults
import PegMachine.Proofs.Bytecode.Fields
import PegMachine.Proofs.Bytecode.FirstDefect
import PegMachine.Proofs.Bytecode.Format
import PegMachine.Proofs.Bytecode.Prefixes
import PegMachine.Proofs.Bytecode.Reading
import PegMachine.Proofs.Bytecode.ReadingOrder
import PegMachine.Proofs.Bytecode.RoundTrip
import PegMachine.Proofs.Bytecode.Standing
import PegMachine.Proofs.CharSet.RangeForm
import PegMachine.Proofs.CharSet.SetText
import PegMachine.Proofs.CharSet.Words
import PegMachine.Proofs.CommandLine.FailureLocation
import PegMachine.Proofs.CommandLine.MatchReport
import PegMachine.Proofs.CommandLine.Performance
import PegMachine.Proofs.Grammar.Adequacy
import PegMachine.Proofs.Grammar.Code
import PegMachine.Proofs.Grammar.Runs
import PegMachine.Proofs.Grammar.Simulation
import PegMachine.Proofs.Pool.Calls
import PegMachine.Proofs.Pool.Forest
import PegMachine.Proofs.Pool.Shift
import PegMachine.Proofs.Pool.Stored
import PegMachine.Proofs.Run.Attempts
import PegMachine.Proofs.Run.Bindings
import PegMachine.Proofs.Run.Capacities
import PegMachine.Proofs.Run.Choices
import PegMachine.Proofs.Run.Cleanup
import PegMachine.Proofs.Run.Confinement
import PegMachine.Proofs.Run.Cursor
import PegMachine.Proofs.Run.Ends
import PegMachine.Proofs.Run.Erasure
import PegMachine.Proofs.Run.Fused
import PegMachine.Proofs.Run.History
import PegMachine.Proofs.Run.Lookahead
import PegMachine.Proofs.Run.Marks
import PegMachine.Proofs.Run.Moves
import PegMachine.Proofs.Run.Positions
import PegMachine.Proofs.Run.Profiling
import PegMachine.Proofs.Run.Reloading
import PegMachine.Proofs.Run.Restoration
import PegMachine.Proofs.Run.Scoping
import PegMachine.Proofs.Run.Shift
import PegMachine.Proofs.Run.Termination
import PegMachine.Proofs.Stacks.Begins
import PegMachine.Proofs.Stacks.NodeLog
import PegMachine.Proofs.Stacks.Scopes
import PegMachine.Proofs.Text.Quoting
import PegMachine.Proofs.Text.Truncation
import PegMachine.Proofs.Trees.Dump
import PegMachine.Proofs.Trees.Forest
import PegMachine.Proofs.Trees.Heights
import PegMachine.Proofs.Trees.OpenNodes
import PegMachine.Proofs.Trees.Order
import PegMachine.Proofs.Trees.Result
import PegMachine.Proofs.Trees.RootEnd
import PegMachine.Proofs.Trees.RootShape
import PegMachine.Proofs.Trees.Spans
import PegMachine.Proofs.Trees.Tracking
import PegMachine.Text.Decimal
import PegMachine.Text.Escaped
import PegMachine.Text.Quoted
import PegMachine.Text.Terminal
import PegMachine.Text.Unprintable
import PegMachine.Text.Utf8
import PegMachine.Tree
import PegMachine.Tree.Printer
