import Tidbits.Transition.Reach
import Tidbits.Transition.Calls
import Tidbits.Sequence.Ring
import Tidbits.Sequence.Counting
import Tidbits.Sequence.Scan
import Tidbits.Sequence.Probe
import Tidbits.Sequence.Table
import Tidbits.Sequence.Derivation
import Tidbits.Sequence.Selection
import Tidbits.Sequence.ShellWords
import Tidbits.ThreadPool.TaskQueue
import Tidbits.ThreadPool.Fifo
import Tidbits.ThreadPool.Pool
import Tidbits.ThreadPool.Step
import Tidbits.ThreadPool.Invariant
import Tidbits.ThreadPool.Sections
import Tidbits.ThreadPool.Preservation
import Tidbits.ThreadPool.Consistency
import Tidbits.ThreadPool.Accounting
import Tidbits.ThreadPool.ExactlyOnce
import Tidbits.ThreadPool.Destroy
import Tidbits.ThreadPool.Reclaim
import Tidbits.ThreadPool.IdleTimeout
import Tidbits.ThreadPool.WorkerLists
import Tidbits.ThreadPool.IdleOrder
import Tidbits.Transition.Termination
import Tidbits.ThreadPool.Drain
import Tidbits.Crts.SubnetAddress
import Tidbits.Crts.ParentPath
import Tidbits.Crts.PluginPath
import Tidbits.Crts.GetOpt
import Tidbits.Crts.Options
import Tidbits.Libc.Memory
import Tidbits.Libc.Words
import Tidbits.Crts.Readline
import Tidbits.Sequence.Links
import Tidbits.Server.ConnectionLists
import Tidbits.Server.Change
import Tidbits.Server.Invariant
import Tidbits.Server.Lifecycle
import Tidbits.Server.StaleEvents
import Tidbits.Server.Marks
import Tidbits.Server.HangUps
import Tidbits.Server.Consumption
import Tidbits.Server.Backlog
import Tidbits.Server.Sweep
import Tidbits.Server.FreeSlots
import Tidbits.Server.Descriptors
import Tidbits.System.LockDiscipline
import Tidbits.Service.Sending
import Tidbits.Service.EdgeTrigger
import Tidbits.Service.Files
import Tidbits.Service.Echo
import Tidbits.Service.Format
import Tidbits.Service.Ledger
import Tidbits.Service.MessageLimit
import Tidbits.Service.Wakeups
import Tidbits.Potato.Inherited
import Tidbits.Potato.RoundTrip
import Tidbits.Potato.Shutdown
import Tidbits.Potato.Statuses
import Tidbits.Potato.Ownership
import Tidbits.Potato.ChildArray
import Tidbits.Potato.HashTable
import Tidbits.Potato.Random
import Tidbits.Potato.Reporting
import Tidbits.Transition.Refinement
import Tidbits.Potato.ServerList
import Tidbits.Potato.MurmurHash
import Tidbits.Potato.RandSequence
import Tidbits.Pybind11.Primes
import Tidbits.Quickbuild.Arguments
import Tidbits.Quickbuild.StandardPaths
import Tidbits.Quickbuild.Lines
import Tidbits.Quickbuild.Marks
import Tidbits.Quickbuild.Rerun
import Tidbits.Service.Answering
import Tidbits.Service.Conversation
import Tidbits.PythonC.Primes
