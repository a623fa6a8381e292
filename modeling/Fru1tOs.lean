import Fru1tOs.Rbtree.Basic
import Fru1tOs.Rbtree.Repr
import Fru1tOs.Rbtree.Rotate
import Fru1tOs.Rbtree.Insert
import Fru1tOs.Rbtree.Walk
import Fru1tOs.Rbtree.EraseColor
import Fru1tOs.Rbtree.Erase
import Fru1tOs.Cfs.Basic
import Fru1tOs.Cfs.Queue
import Fru1tOs.Cfs.Sched
import Fru1tOs.Cfs.Fair
import Fru1tOs.Epoll.Basic
import Fru1tOs.Epoll.Items
import Fru1tOs.Epoll.Refine
import Fru1tOs.Epoll.Run
import Fru1tOs.Btree.Basic
import Fru1tOs.Btree.Delete
import Fru1tOs.Btree.Insert
import Fru1tOs.Btree.Run
import Fru1tOs.Files.Basic
import Fru1tOs.Files.Run
import Fru1tOs.Inode.Basic
import Fru1tOs.Inode.Blocks
import Fru1tOs.Inode.Run
import Fru1tOs.Inode.Isolation
import Fru1tOs.Cfs.Account
import Fru1tOs.Heap.Coalesce
import Fru1tOs.Cfs.MinVruntime
import Fru1tOs.Epoll.Stale
import Fru1tOs.Files.Interference
import Fru1tOs.Heap.Room
import Fru1tOs.Kernel.Context
import Fru1tOs.Kernel.Input
import Fru1tOs.Kernel.RoundRobin
import Fru1tOs.Shell.Basic
import Fru1tOs.Shell.Run
import Fru1tOs.Cfs.Preempt
import Fru1tOs.Epoll.Close
import Fru1tOs.Epoll.Wait
import Fru1tOs.Heap.Image
import Fru1tOs.Rbtree.WellFormed
import Fru1tOs.Inode.Content
import Fru1tOs.Inode.Size
import Fru1tOs.Btree.NoMemory
import Fru1tOs.Btree.Sequence
import Fru1tOs.Files.LongNames
import Fru1tOs.Heap.Request
import Fru1tOs.Inode.Counter
import Fru1tOs.Inode.Create
import Fru1tOs.Inode.Holes
import Fru1tOs.Inode.Truncated
import Fru1tOs.Lib.Ring
import Fru1tOs.Lib.Registers
import Fru1tOs.Lib.Decimal
import Fru1tOs.Lib.Bounded
import Fru1tOs.Common.Printf
import Fru1tOs.Common.Decimal
import Fru1tOs.Common.Scan
import Fru1tOs.Kernel.Buffer
import Fru1tOs.Kernel.Pages
import Fru1tOs.Kernel.Switch
import Fru1tOs.Shell.Scanner
import Fru1tOs.Shell.Size
import Fru1tOs.Shell.Line
import Fru1tOs.Cfs.Progress
import Fru1tOs.Inode.Directory
import Fru1tOs.Inode.DirectoryRun
import Fru1tOs.Inode.Stats
import Fru1tOs.Rbtree.Height
import Fru1tOs.Common.Render
import Fru1tOs.Kernel.Coroutines
import Fru1tOs.Kernel.Trap
import Fru1tOs.Lib.Footprint
import Fru1tOs.Kernel.Interrupted
import Fru1tOs.Heap.Stats
import Fru1tOs.Files.Text
import Fru1tOs.Shell.Text
import Fru1tOs.Shell.Session
import Fru1tOs.Btree.Destroy
import Fru1tOs.Epoll.Uart
import Fru1tOs.Lib.Siblings
import Fru1tOs.Btree.Merge
import Fru1tOs.Kernel.Strings
import Fru1tOs.Lib.Guarded
import Fru1tOs.Kernel.BufferRace
