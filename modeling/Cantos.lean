import Cantos.Lib.Exec
import Cantos.Lib.Linked
import Cantos.Lib.Runs
import Cantos.Lib.Steps
import Cantos.Mem.State
import Cantos.Mem.Alloc
import Cantos.Mem.Free
import Cantos.Mem.Init
import Cantos.Mem.Lock
import Cantos.Mem.Growth
import Cantos.Mem.Heap
import Cantos.Mem.Soundness
import Cantos.Mem.World
import Cantos.Mem.Loss
import Cantos.Mem.Counters
import Cantos.Mem.Space
import Cantos.Mem.Bookkeeping
import Cantos.Mem.Installs
import Cantos.Mem.Frames
import Cantos.Mem.Ownership
import Cantos.Mem.Object
import Cantos.Mem.Provenance
import Cantos.Structures.List
import Cantos.Structures.ListRefinement
import Cantos.Fs.Path
import Cantos.Fs.Resolution
import Cantos.Task.Machine
import Cantos.Task.OwnStack
import Cantos.Task.Holders
import Cantos.Task.Sections
import Cantos.Task.Places
import Cantos.Task.MapLife
import Cantos.Smp.Machine
import Cantos.Smp.Held
import Cantos.Smp.Shootdown
import Cantos.Vm.Fault
import Cantos.Vm.Agreement
import Cantos.Hw.Enumeration
import Cantos.Hw.Found
import Cantos.Lib.Digits
import Cantos.Mem.Bump
import Cantos.Mem.FreeList
import Cantos.Structures.Format
import Cantos.Structures.FormatAgreement
import Cantos.Structures.SharedPtr
import Cantos.Structures.SharedPtrRelease
import Cantos.Structures.SharedPtrRuns
import Cantos.Structures.StaticList
import Cantos.Structures.Vector
import Cantos.Structures.VectorRefinement
import Cantos.Vm.Entries
import Cantos.Vm.Failure
import Cantos.Lib.Preserves
import Cantos.Mem.High
import Cantos.Mem.Sizes
import Cantos.Mem.Split
import Cantos.Mem.Deadlock
import Cantos.Structures.Numbers
import Cantos.Task.FirstFrame
import Cantos.Fs.Names
import Cantos.Fs.Repopulate
import Cantos.Fs.Errors
import Cantos.Vm.Clip
import Cantos.Vm.Tables
import Cantos.Vm.Ownership
import Cantos.Lib.Walk
import Cantos.Structures.Scanner
import Cantos.Hw.Acpi
import Cantos.Hw.Rsdp
import Cantos.Hw.Madt
import Cantos.Hw.MadtLayout
import Cantos.Structures.VectorElements
import Cantos.Lib.Depth
import Cantos.Hw.Recursion
import Cantos.Structures.Utf8Chars
import Cantos.Lib.Patch
import Cantos.Lib.Fair
import Cantos.Lib.Transcript
import Cantos.Boot.PageTable
import Cantos.Boot.Strings
import Cantos.Hw.Keyboard
import Cantos.Hw.KeyboardSend
import Cantos.Hw.KeyboardLock
import Cantos.Structures.Elf
import Cantos.Structures.ElfSymbols
import Cantos.Main.Vga
import Cantos.Lib.Caches
import Cantos.Mem.Writes
import Cantos.Smp.Tlb
import Cantos.Smp.Coherence
import Cantos.Lib.Settles
import Cantos.Mem.Records
import Cantos.Mem.Termination
import Cantos.Int.Timer
import Cantos.Int.Entry
import Cantos.Int.Routing
import Cantos.Lib.Ports
import Cantos.Hw.Ps2
import Cantos.Smp.Awaken
import Cantos.Vm.Storage
import Cantos.Structures.UniquePtrRuns
import Cantos.Task.Order
import Cantos.Hw.Serial
import Cantos.Main.Printk
import Cantos.Structures.Utf8Sharing
