import Marimba.Foundations.Transition
import Marimba.Foundations.Chain
import Marimba.Foundations.Word
import Marimba.Foundations.Fifo
import Marimba.Foundations.RadixTree
import Marimba.Foundations.Extent
import Marimba.Foundations.Ring
import Marimba.Foundations.Buffers
import Marimba.Foundations.Selection
import Marimba.Foundations.ByteMemory
import Marimba.Foundations.Search
import Marimba.Foundations.X86
import Marimba.Memory.Machine
import Marimba.Memory.FrameAllocator
import Marimba.Memory.Paging
import Marimba.Memory.VirtualAllocator
import Marimba.Memory.Ownership
import Marimba.Memory.MemorySystem
import Marimba.Memory.Roles
import Marimba.Memory.KernelStacks
import Marimba.Memory.VirtualRegions
import Marimba.Memory.RequestEffects
import Marimba.Memory.ReservedPages
import Marimba.Memory.FreedPages
import Marimba.Memory.Translation
import Marimba.Memory.PageStates
import Marimba.Memory.PagingSystem
import Marimba.Memory.VirtToPhys
import Marimba.Memory.BootSegments
import Marimba.Memory.SegmentLists
import Marimba.Memory.Separable
import Marimba.Memory.PageRanges
import Marimba.Memory.Carving
import Marimba.Memory.ExclusionLoop
import Marimba.Memory.FreePages
import Marimba.Memory.LeftBehind
import Marimba.Memory.FreeListNodes
import Marimba.Memory.ExclusionRuns
import Marimba.Memory.IdentityRange
import Marimba.Memory.Contents
import Marimba.Memory.OutsideFrames
import Marimba.Memory.Accesses
import Marimba.Kmalloc.Allocator
import Marimba.Kmalloc.FreeList
import Marimba.Kmalloc.Heap
import Marimba.Kmalloc.PoolSystem
import Marimba.Kmalloc.Sizes
import Marimba.Kmalloc.Paged
import Marimba.Kmalloc.PagedHeap
import Marimba.LinkedList
import Marimba.ListHeap
import Marimba.DeviceFiles
import Marimba.Strings
import Marimba.Memory.StressTest
import Marimba.OpenFiles
import Marimba.Partitions
import Marimba.Console.Vga
import Marimba.Console.Terminal
import Marimba.Console.Digits
import Marimba.Console.Printk
import Marimba.Console.Format
import Marimba.Proc.Scheduler
import Marimba.Proc.Queues
import Marimba.Proc.Invariant
import Marimba.Proc.Steps
import Marimba.Proc.Placement
import Marimba.Proc.ContextSwitch
import Marimba.Proc.RoundRobin
import Marimba.Proc.FifoView
import Marimba.Proc.InterruptFlag
import Marimba.Proc.SavedContext
import Marimba.Proc.CreateProcess
import Marimba.Interrupts.Descriptors
import Marimba.Interrupts.Entry
import Marimba.Interrupts.Processes
import Marimba.Interrupts.FirstRun
import Marimba.Interrupts.Controllers
import Marimba.Ata.Driver
import Marimba.Ata.Protocol
import Marimba.Ata.Failures
import Marimba.Serial
import Marimba.Sort
import Marimba.Boot.MemoryMap
import Marimba.Boot.Multiboot
import Marimba.Boot.FreeMemory
import Marimba.Boot.KernelImage
import Marimba.Boot.PageTables
import Marimba.Ps2.Driver
import Marimba.Ps2.Delivery
import Marimba.Ps2.OpenCount
import Marimba.Ps2.ScanCodes
import Marimba.Ps2.Echo
import Marimba.Pci
import Marimba.Fat.Volume
import Marimba.Fat.Clusters
import Marimba.Fat.Registration
