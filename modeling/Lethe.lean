import Lethe.Lib.Ring
import Lethe.Lib.Run
import Lethe.Lib.LinearProbing
import Lethe.Lib.Radix
import Lethe.Lib.Tiling
import Lethe.Lib.Wp
import Lethe.Lib.AccessLog
import Lethe.Lib.Descent
import Lethe.Lib.Walk
import Lethe.Lib.Places
import Lethe.Lib.Padded
import Lethe.Lib.Linked
import Lethe.Lib.Consecutive
import Lethe.Lib.Memory
import Lethe.Lib.Raster
import Lethe.Utils.Queue
import Lethe.Utils.QueueFifo
import Lethe.Utils.QueueSlots
import Lethe.Utils.HashMap
import Lethe.Utils.HashMapIter
import Lethe.Kernel.Task
import Lethe.Kernel.Machine
import Lethe.Kernel.FrameAllocator
import Lethe.Kernel.Paging
import Lethe.Kernel.ListAllocator
import Lethe.Kernel.HeapPartition
import Lethe.Kernel.HardwareWalk
import Lethe.Kernel.PresentTree
import Lethe.Kernel.SmallPages
import Lethe.Kernel.Below
import Lethe.Kernel.HeapGrowth
import Lethe.Kernel.HeapRecords
import Lethe.Kernel.Liballoc
import Lethe.Kernel.LiballocTags
import Lethe.Kernel.LiballocSpec
import Lethe.Kernel.LiballocInv
import Lethe.Kernel.LiballocState
import Lethe.Kernel.LiballocHeap
import Lethe.Kernel.LiballocMalloc
import Lethe.Kernel.LiballocFree
import Lethe.Kernel.LiballocClients
import Lethe.Kernel.LiballocRuns
import Lethe.Kernel.Permissions
import Lethe.Kernel.ContiguousPages
import Lethe.Kernel.NearestPage
import Lethe.Kernel.Ahci
import Lethe.Kernel.MappedPages
import Lethe.Kernel.ContextSwitch
import Lethe.Kernel.Madt
import Lethe.Kernel.MadtWalk
import Lethe.Kernel.Mcfg
import Lethe.Kernel.Shell
import Lethe.Kernel.Keyboard
import Lethe.Kernel.Tty
import Lethe.Kernel.TtyConsole
import Lethe.Kernel.Config
import Lethe.Kernel.Sleep
import Lethe.Kernel.Pci
import Lethe.Kernel.PciScan
import Lethe.Kernel.PciLookup
import Lethe.Kernel.PciRegisters
import Lethe.Kernel.PciCapabilities
import Lethe.Aml.State
import Lethe.Aml.Name
import Lethe.Aml.Parser
import Lethe.Aml.Tree
import Lethe.Aml.Progress
import Lethe.Aml.Termination
import Lethe.Aml.NamespaceTree
import Lethe.Aml.Grammar
import Lethe.Aml.Reading
import Lethe.Aml.Handlers
import Lethe.Aml.Methods
import Lethe.Aml.Cursors
import Lethe.Aml.NameStrings
import Lethe.Aml.Decode
import Lethe.Aml.Resolution
import Lethe.Aml.AbsoluteName
import Lethe.Aml.Expression
import Lethe.Aml.DataObjects
import Lethe.Aml.ObjectLengths
import Lethe.Aml.Declarations
import Lethe.Aml.NamedConstants
import Lethe.Aml.WordFields
import Lethe.Aml.Devices
import Lethe.Aml.Branches
import Lethe.Aml.FieldList
import Lethe.Aml.TermList
import Lethe.Libc.Stdio
import Lethe.Libc.Ntoa
import Lethe.Libc.Format
import Lethe.Libc.Compose
import Lethe.Libc.FlagsLeft
import Lethe.Libc.Overrun
import Lethe.Libc.NumberBuffer
import Lethe.Libc.Numeral
import Lethe.Libc.Signed
import Lethe.Libc.Unsigned
import Lethe.Libc.String
import Lethe.Libc.Memmove
import Lethe.Kernel.Trace
import Lethe.Loader.PageTable
import Lethe.Loader.Elf
import Lethe.Loader.Bounds
import Lethe.Loader.Placement
