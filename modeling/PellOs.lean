import PellOs.Lib.ByteMemory
import PellOs.Memutils
import PellOs.Kmalloc.FreeList
import PellOs.Kmalloc.Malloc
import PellOs.Kmalloc.Free
import PellOs.Kmalloc.Runs
import PellOs.Kmalloc.ClientSafety
import PellOs.Mm.PageAllocator
import PellOs.Mm.PageOwnership
import PellOs.Lib.RadixTree
import PellOs.Scheduler.Task
import PellOs.Mm.Paging
import PellOs.Scheduler.Kernel
import PellOs.Mm.Descriptor
import PellOs.Mm.PageRoles
import PellOs.Mm.Walk
import PellOs.Mm.TableGrowth
import PellOs.Mm.MapPage
import PellOs.Mm.Translation
import PellOs.Mm.MappingLaw
import PellOs.Mm.UserPage
import PellOs.Scheduler.CopyMemory
import PellOs.Scheduler.Fork
import PellOs.Scheduler.UserFork
import PellOs.Boot.PageTables
import PellOs.Boot.LinearMap
import PellOs.Fs.Fd
import PellOs.Fs.FdTable
import PellOs.Fs.Rdfs
import PellOs.Fs.Vfs
import PellOs.Fs.DescriptorChecks
import PellOs.Fs.Image
import PellOs.Fs.Lookup
import PellOs.Fs.LookupSound
import PellOs.Fs.Open
import PellOs.Fs.RoundTrip
import PellOs.Fs.Read
import PellOs.Fs.Separation
import PellOs.Kmalloc.FirstFit
import PellOs.Kmalloc.Coalescing
import PellOs.Mm.ByteMap
import PellOs.Boot.KernelMap
import PellOs.Lib.Layers
import PellOs.Scheduler.Coroutines
import PellOs.Scheduler.CallStacks
import PellOs.Scheduler.Switching
import PellOs.Scheduler.Sleepers
import PellOs.Scheduler.Zombies
import PellOs.Scheduler.PreemptCounts
import PellOs.Scheduler.Execution
import PellOs.Scheduler.Delays
import PellOs.Scheduler.Wakeups
import PellOs.Scheduler.Pids
import PellOs.Scheduler.ForkRoles
import PellOs.Scheduler.KernelRuns
import PellOs.Scheduler.Isolation
import PellOs.Scheduler.PageRecords
import PellOs.Fs.Remount
import PellOs.Fs.DirectoryRecords
import PellOs.Fs.ReadFrame
import PellOs.Fs.ChunkedReads
import PellOs.Fs.LookupResources
import PellOs.Fs.FreshTable
import PellOs.Mm.TableReach
import PellOs.Scheduler.FaultResolution
import PellOs.Mm.Exhaustion
import PellOs.Scheduler.Containment
import PellOs.Scheduler.ForkAtomic
import PellOs.Lib.A64
import PellOs.Scheduler.SavedRegisters
import PellOs.Memutils.CopyRange
import PellOs.Boot.Bss
import PellOs.Fs.StringCompare
import PellOs.Peripherals.Shell
import PellOs.Peripherals.SystemTimer
import PellOs.Fs.FilenameCopy
import PellOs.Scheduler.ElfLoad
import PellOs.Peripherals.Printf
import PellOs.Scheduler.Interrupts
import PellOs.Scheduler.ContextRuns
import PellOs.Lib.LabelledRuns
import PellOs.Scheduler.UserRecords
import PellOs.Scheduler.UserView
import PellOs.Scheduler.ProgramStart
import PellOs.Scheduler.AddressSpaces
import PellOs.Scheduler.Fairness
import PellOs.Scheduler.ForkFrame
import PellOs.Scheduler.Exceptions
import PellOs.Scheduler.SystemCalls
import PellOs.Scheduler.ProgramFile
import PellOs.Fs.LookupMemory
import PellOs.Fs.LookupHeap
import PellOs.Fs.LookupBlocks
