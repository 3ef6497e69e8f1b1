import Unos.Library.Runs
import Unos.Library.Words
import Unos.Library.BitWords
import Unos.Library.Search
import Unos.Pmm.Model
import Unos.Pmm.Effects
import Unos.Pmm.Ownership
import Unos.Pmm.Contiguous
import Unos.Pmm.Accounting
import Unos.Pmm.Boot
import Unos.Pmm.Usable
import Unos.Pmm.Windows
import Unos.Pmm.Allocation
import Unos.Pmm.Regions
import Unos.Library.ByteMemory
import Unos.Library.Tiling
import Unos.Malloc.Model
import Unos.Malloc.Heap
import Unos.Malloc.Arena
import Unos.Malloc.Usage
import Unos.Malloc.Reuse
import Unos.Vmm.Model
import Unos.Vmm.Entries
import Unos.Vmm.Walk
import Unos.Vmm.Translation
import Unos.Vmm.Calls
import Unos.Vmm.Kernel
import Unos.Vmm.Agreement
import Unos.Vmm.Tlb
import Unos.Vmm.Reach
import Unos.Vmm.Giveback
import Unos.Vmm.Rights
import Unos.Library.Loops
import Unos.Vmm.Ranges
import Unos.Library.Links
import Unos.DList.Model
import Unos.DList.Invariant
import Unos.DList.Operations
import Unos.DList.Deque
import Unos.DList.Frames
import Unos.DList.Index
import Unos.Library.BoundaryTags
import Unos.Kmalloc.Model
import Unos.Kmalloc.Blocks
import Unos.Kmalloc.Break
import Unos.Kmalloc.Heap
import Unos.Kmalloc.Delivery
import Unos.Kmalloc.Growth
import Unos.Kmalloc.Extension
import Unos.Library.Splits
import Unos.Library.RoundRobin
import Unos.Process.Model
import Unos.Process.Queue
import Unos.Process.Fairness
import Unos.Process.Statements
import Unos.Process.Preemption
import Unos.Process.Contexts
import Unos.Process.Stacks
import Unos.Timer.Dispatch
import Unos.Timer.Periods
import Unos.Rtl8139.Receive
import Unos.Rtl8139.Ring
import Unos.Rtl8139.Transmit
import Unos.Pci.Lookup
import Unos.Library.Nesting
import Unos.Pci.Termination
import Unos.Framebuffer.Model
import Unos.Framebuffer.Screen
import Unos.Library.Numerals
import Unos.Library.Occurrences
import Unos.Strings.Model
import Unos.Strings.Numbers
import Unos.Strings.Copies
import Unos.Strings.Search
import Unos.Strings.Formats
import Unos.Keyboard.Model
import Unos.Keyboard.Decoder
import Unos.BPlusTree.Model
import Unos.BPlusTree.Nodes
import Unos.BPlusTree.Siblings
import Unos.BPlusTree.Levels
import Unos.BPlusTree.Insertion
import Unos.BPlusTree.Neighbors
import Unos.BPlusTree.Repair
import Unos.BPlusTree.Deletion
import Unos.BPlusTree.Leaves
import Unos.BPlusTree.Insert
import Unos.BPlusTree.Delete
import Unos.BPlusTree.Invariant
import Unos.BPlusTree.Dictionary
import Unos.BPlusTree.Range
import Unos.Library.Turns
import Unos.Library.Lc3Isa
import Unos.Library.Lc3Programs
import Unos.Lc3.Model
import Unos.Lc3.Refinement
import Unos.Lc3.Devices
import Unos.Lc3.Images
import Unos.Library.Pic8259
import Unos.Interrupts.Model
import Unos.Interrupts.Service
import Unos.Library.Tallies
import Unos.Interrupts.Requests
import Unos.Library.X86
import Unos.Interrupts.Stubs
import Unos.Process.Switching
import Unos.Library.BitFields
import Unos.Interrupts.Descriptors
import Unos.Process.Spinlock
import Unos.Vmm.BootPaging
import Unos.Kmalloc.Check
import Unos.Library.QuadWords
import Unos.ElfLoader.Startup
import Unos.ElfLoader.Segments
import Unos.Library.Cycles
import Unos.Library.CommonTails
import Unos.DataStructure.Lists
import Unos.DataStructure.Merge
import Unos.Library.BinaryTrees
import Unos.DataStructure.Trees
