import TskSw.Acpi
import TskSw.AcpiInit
import TskSw.ActiveDispatch
import TskSw.Allocators
import TskSw.Annotations
import TskSw.BlkFlat
import TskSw.BlkIo
import TskSw.BlkRecency
import TskSw.BlkRecycle
import TskSw.BlkRuns
import TskSw.BlkThreads
import TskSw.BlockProgram
import TskSw.Bmap
import TskSw.ByteBuffers
import TskSw.ByteMemory
import TskSw.Bytes
import TskSw.CString
import TskSw.CStringBounds
import TskSw.Callouts
import TskSw.CircularLists
import TskSw.Consistency
import TskSw.Coroutines
import TskSw.DataBitmap
import TskSw.DataBlocks
import TskSw.DelayedDispatch
import TskSw.Descriptors
import TskSw.DeviceIo
import TskSw.Devsw
import TskSw.Directory
import TskSw.DirectoryMap
import TskSw.Errno
import TskSw.FileBytes
import TskSw.FileData
import TskSw.FileSizes
import TskSw.FreshBlocks
import TskSw.FreshImage
import TskSw.FsCalls
import TskSw.FsKeeps
import TskSw.FsKernel
import TskSw.FsLayout
import TskSw.FsRuns
import TskSw.FsSteps
import TskSw.FsTree
import TskSw.Gic
import TskSw.Holding
import TskSw.InodeIo
import TskSw.InodeSlots
import TskSw.InodeThreads
import TskSw.Inodes
import TskSw.Interference
import TskSw.Interleaving
import TskSw.Interrupts
import TskSw.Irq
import TskSw.IrqHandling
import TskSw.IrqMasks
import TskSw.KernList
import TskSw.KernelMap
import TskSw.Locking
import TskSw.MemFunctions
import TskSw.Mkfs
import TskSw.MkfsImage
import TskSw.MutexOwner
import TskSw.MutexThreads
import TskSw.NameBuffers
import TskSw.NotedThreads
import TskSw.Ownership
import TskSw.PathReferences
import TskSw.Paths
import TskSw.Preempt
import TskSw.Printf
import TskSw.RadixTable
import TskSw.ReadyQueue
import TskSw.Recency
import TskSw.References
import TskSw.Reformat
import TskSw.Regions
import TskSw.Registrations
import TskSw.RoundRobin
import TskSw.Rsdp
import TskSw.Tally
import TskSw.ThreadPlaces
import TskSw.ThreadSafety
import TskSw.Threads
import TskSw.Transfers
import TskSw.TrapCounts
import TskSw.Truncate
import TskSw.Unlinking
import TskSw.WakeupReasons
import TskSw.Wheels
import TskSw.WordMemory
import TskSw.X64Machine
import TskSw.X64Map
import TskSw.X64Switches
import TskSw.X64Traps
