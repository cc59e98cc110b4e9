import Picon.Lib.Cursor
import Picon.Shared
import Picon.Monitor.Data
import Picon.Monitor.Run
import Picon.Monitor.Load
import Picon.Monitor.Relocation
import Picon.Monitor.Loaded
import Picon.Monitor.LoadErrors
import Picon.Monitor.Automaton
import Picon.Monitor.Stacks
import Picon.Lib.GrowStack
import Picon.Monitor.Memory
import Picon.Monitor.MemoryRun
import Picon.Monitor.ShortReads
import Picon.Monitor.Language
import Picon.Monitor.Tracing
import Picon.Monitor.Matching
import Picon.Monitor.Moves
import Picon.Monitor.Undefined
import Picon.Monitor.Attribution
import Picon.Monitor.Errors
import Picon.Monitor.PartialReads
import Picon.Monitor.Exit
import Picon.Monitor.BlockPaths
import Picon.Monitor.Lookups
import Picon.Monitor.InitCalls
import Picon.Monitor.FinalPass
import Picon.Monitor.Invariant
import Picon.Lib.PacketPipe
import Picon.Monitor.Transport
import Picon.Lib.KeyedFold
import Picon.Prelink.Encode
import Picon.Prelink.Decode
import Picon.Prelink.Agreement
import Picon.Loader.Format
import Picon.Loader.Grammar
import Picon.Loader.FunctionTable
import Picon.Loader.Bounds
import Picon.Lib.Ledger
import Picon.Lib.Allocator
import Picon.Loader.Buffers
import Picon.Loader.Tables
import Picon.Loader.Release
import Picon.Loader.Shapes
import Picon.Loader.Leaks
import Picon.Pass.IR
import Picon.Pass.Inject
import Picon.Pass.Faithful
import Picon.Pass.Identify
import Picon.Pass.Files
import Picon.Pass.Runs
import Picon.Lib.CriticalSection
import Picon.Pass.Flags
import Picon.Lib.PostDominance
import Picon.Pass.PostDominators
import Picon.Lib.Text
import Picon.Lib.Lines
import Picon.Prelink.BlockText
import Picon.Prelink.FctidText
import Picon.Prelink.Parse
import Picon.Prelink.Source
import Picon.Program.Build
import Picon.Program.CallEdges
import Picon.Program.Order
import Picon.Program.Texts
import Picon.Program.ParallelBuild
import Picon.Program.BlockTables
import Picon.Program.Wrappers
import Picon.Program.Toolchain
import Picon.Program.ConstructorOrder
import Picon.Program.Stream
import Picon.Program.Exec
import Picon.Program.Linkage
import Picon.Program.Linked
import Picon.Program.NoFalseAlarm
import Picon.Program.Reclaimed
import Picon.Lib.Trace
import Picon.Lib.Dialogue
import Picon.Lib.Confluence
import Picon.Lib.Rehearsal
import Picon.Session.Processes
import Picon.Session.Desync
import Picon.Session.Capacity
import Picon.Session.Phases
import Picon.Session.Handshake
import Picon.Session.Scripts
import Picon.Session.Agreement
import Picon.Session.Printed
import Picon.Session.Whole
import Picon.Session.Completion
import Picon.Lib.Tickets
import Picon.Session.Forked
