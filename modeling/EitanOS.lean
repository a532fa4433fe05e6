import EitanOS.Lib.Links
import EitanOS.Lib.Blocks
import EitanOS.Lib.FreeList
import EitanOS.Lib.Ring
import EitanOS.Lib.Turns
import EitanOS.Lib.Bytes
import EitanOS.Lib.Gaps
import EitanOS.Lib.NameTree
import EitanOS.Lib.Forest
import EitanOS.Lib.FileMap
import EitanOS.Lib.Mailbox
import EitanOS.Lib.Prog
import EitanOS.Lib.Runs
import EitanOS.Lib.Objects
import EitanOS.Lib.Addresses
import EitanOS.Lib.Words
import EitanOS.Lib.Lexical
import EitanOS.Lib.Layout
import EitanOS.Lib.Decimal
import EitanOS.Lib.Doubles
import EitanOS.Memory.Allocator
import EitanOS.Memory.HeapRefine
import EitanOS.Memory.HeapInvariant
import EitanOS.Memory.HeapStores
import EitanOS.Memory.Requests
import EitanOS.Memory.Frames
import EitanOS.Memory.BootFrames
import EitanOS.Memory.FrameSet
import EitanOS.Memory.Paging
import EitanOS.Memory.Exhaustion
import EitanOS.Memory.Bounds
import EitanOS.Memory.Exclusive
import EitanOS.Memory.Accounts
import EitanOS.Memory.Translation
import EitanOS.Memory.Ranges
import EitanOS.Memory.Undo
import EitanOS.Process.Scheduler
import EitanOS.Process.Moves
import EitanOS.Process.RingInvariant
import EitanOS.Process.Interrupts
import EitanOS.Process.Context
import EitanOS.Process.Signals
import EitanOS.Process.RoundRobin
import EitanOS.Process.Preemption
import EitanOS.Lib.X86
import EitanOS.Process.Stubs
import EitanOS.Process.Teardown
import EitanOS.Util.Str
import EitanOS.Disk.Drive
import EitanOS.Disk.Files
import EitanOS.Disk.Atomic
import EitanOS.Disk.Layout
import EitanOS.Disk.Space
import EitanOS.Disk.Extents
import EitanOS.Disk.Search
import EitanOS.Disk.Paths
import EitanOS.Disk.Tree
import EitanOS.Disk.Writes
import EitanOS.Disk.WriteRead
import EitanOS.Disk.Folders
import EitanOS.Disk.Placement
import EitanOS.Disk.Create
import EitanOS.Disk.Delete
import EitanOS.Disk.DeleteTree
import EitanOS.Disk.Listing
import EitanOS.Disk.Names
import EitanOS.Disk.Move
import EitanOS.Disk.Transfer
import EitanOS.Disk.Ata
import EitanOS.Disk.AtaSession
import EitanOS.Disk.View
import EitanOS.Disk.Reads
import EitanOS.Disk.Refines
import EitanOS.Process.Kernel
import EitanOS.Process.Ledger
import EitanOS.Disk.HeapUse
import EitanOS.Process.Loader
import EitanOS.Process.Spills
import EitanOS.Process.Room
import EitanOS.Process.Ownership
import EitanOS.Disk.HeapBalance
import EitanOS.Process.Image
import EitanOS.Process.AddressSpace
import EitanOS.Process.Containment
import EitanOS.Process.Loading
import EitanOS.Process.Conservation
import EitanOS.Process.Installation
import EitanOS.Process.Rejection
import EitanOS.Shell.Strings
import EitanOS.Shell.Paths
import EitanOS.Shell.WorkingDir
import EitanOS.Shell.Command
import EitanOS.Shell.Input
import EitanOS.Keyboard.Model
import EitanOS.Keyboard.Lines
import EitanOS.Screen.Flush
import EitanOS.Screen.Console
import EitanOS.Util.Strings
import EitanOS.Util.Numbers
import EitanOS.Disk.PathStrings
import EitanOS.Util.LongStrings
