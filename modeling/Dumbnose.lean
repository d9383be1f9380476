import Dumbnose.Lib.Exec
import Dumbnose.Lib.Gaps
import Dumbnose.Btree.Node
import Dumbnose.Btree.Tree
import Dumbnose.Btree.Memory
import Dumbnose.Btree.Search
import Dumbnose.Btree.Pages
import Dumbnose.Btree.Methods
import Dumbnose.Btree.Shape
import Dumbnose.Btree.Moves
import Dumbnose.Btree.Lookup
import Dumbnose.Btree.Cascade
import Dumbnose.Btree.Insert
import Dumbnose.Btree.Refinement
import Dumbnose.Btree.Structure
import Dumbnose.Btree.Safety
import Dumbnose.Btree.Garbage
import Dumbnose.Btree.Sessions
import Dumbnose.Btree.Shallow
import Dumbnose.Btree.Faults
import Dumbnose.Btree.InOrder
import Dumbnose.Btree.Validate
import Dumbnose.Mmap.MmapFile
import Dumbnose.Mmap.Blocks
import Dumbnose.Mmap.Numbering
import Dumbnose.Mmap.Faults
import Dumbnose.Events.EventSource
import Dumbnose.Events.Ownership
import Dumbnose.Mmap.Backing
import Dumbnose.Mmap.BackingRuns
import Dumbnose.Lib.Moves
import Dumbnose.Lib.Mirror
import Dumbnose.Btree.Limit
import Dumbnose.Btree.Room
import Dumbnose.Btree.Storage
import Dumbnose.Lib.Runs
import Dumbnose.Lib.Tally
import Dumbnose.Lib.TokenQueue
import Dumbnose.Sync.Semaphore
import Dumbnose.Sync.JobQueue
import Dumbnose.Sync.ThreadPool
import Dumbnose.Sync.ThreadBarrier
import Dumbnose.Com.Unknown
import Dumbnose.Lib.Standing
import Dumbnose.Strings.Wide
import Dumbnose.RemoteSession.Channel
import Dumbnose.RemoteSession.Roster
import Dumbnose.RemoteSession.Joining
import Dumbnose.RemoteSession.SelfLock
import Dumbnose.Lib.Splits
import Dumbnose.Events.Raise
import Dumbnose.Lib.Overwrite
import Dumbnose.Registry.Key
import Dumbnose.Registry.RoundTrip
import Dumbnose.Strings.CstringWrapper
import Dumbnose.Strings.Bounded
import Dumbnose.Btree.FreshSpace
import Dumbnose.Lib.Ledger
import Dumbnose.Mmap.Views
import Dumbnose.Mmap.Lifetime
import Dumbnose.Registry.StringValue
import Dumbnose.Options.CmdlineOptions
import Dumbnose.Options.Queries
import Dumbnose.Files.FileHelper
import Dumbnose.Files.SearchPath
import Dumbnose.Strings.CodePage
import Dumbnose.Options.NarrowText
import Dumbnose.Com.ClassFactory
import Dumbnose.Com.References
import Dumbnose.Handles.WindowsHandle
import Dumbnose.Handles.Owners
import Dumbnose.Com.EnumIterator
import Dumbnose.Memory.MemoryTracking
import Dumbnose.Lib.Halving
import Dumbnose.Btree.Sizer
import Dumbnose.Btree.MakeRoom
import Dumbnose.Buffer.Stream
import Dumbnose.Buffer.HexDump
import Dumbnose.Lib.Compare
import Dumbnose.Tree234.Node
import Dumbnose.Tree234.Path
import Dumbnose.Tree234.Add
import Dumbnose.Tree234.Find
import Dumbnose.Tree234.Rebalance
import Dumbnose.Tree234.Delete
import Dumbnose.Tree234.Runs
import Dumbnose.Tree234.Verify
import Dumbnose.Tree234.Tests
import Dumbnose.Tree234.Bounds
import Dumbnose.Lib.ShellSort
import Dumbnose.Lib.Bytes
import Dumbnose.Security.Sid
import Dumbnose.Security.Ace
import Dumbnose.Security.Order
import Dumbnose.Security.Dacl
import Dumbnose.Security.DaclRuns
import Dumbnose.Security.Descriptor
import Dumbnose.Security.DescriptorRuns
