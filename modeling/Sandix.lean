import Sandix.Machinery.Bytes
import Sandix.Machinery.Exec
import Sandix.Machinery.Word
import Sandix.Machinery.Interval
import Sandix.Machinery.Labelled
import Sandix.Machinery.Heap
import Sandix.Machinery.Forest
import Sandix.Machinery.Run
import Sandix.Machinery.Proc
import Sandix.Machinery.Sink
import Sandix.Machinery.Numeral
import Sandix.Machinery.Ring
import Sandix.Machinery.I386
import Sandix.Arch.Page
import Sandix.Arch.Spinlock
import Sandix.Arch.Memmove
import Sandix.Arch.StringLimited
import Sandix.Arch.Strstr
import Sandix.Memblock.Basic
import Sandix.Memblock.Regions
import Sandix.Memblock.Isolate
import Sandix.Memblock.Invariant
import Sandix.Memblock.Content
import Sandix.Memblock.Union
import Sandix.Memblock.Difference
import Sandix.Memblock.Find
import Sandix.Memblock.Trim
import Sandix.Memblock.TrimCore
import Sandix.Memblock.TotalSize
import Sandix.Memblock.Refinement
import Sandix.Memblock.PfnRange
import Sandix.Memblock.Iterate
import Sandix.Memblock.FreeRanges
import Sandix.Memblock.Walk
import Sandix.Memblock.Alloc
import Sandix.Memblock.BootRun
import Sandix.Memblock.BootRam
import Sandix.Boot.Brk
import Sandix.Boot.Memory
import Sandix.Console.Screen
import Sandix.Console.Vgacon
import Sandix.Console.Vt
import Sandix.Console.Cursor
import Sandix.Console.CursorRun
import Sandix.Console.Bounds
import Sandix.Console.Scroll
import Sandix.Console.Page
import Sandix.Console.Sequence
import Sandix.Console.Motion
import Sandix.Console.Erase
import Sandix.Console.Insert
import Sandix.Console.Attributes
import Sandix.Console.Stream
import Sandix.Console.Registry
import Sandix.Lib.Ctype
import Sandix.Lib.Hexdump
import Sandix.Lib.ListHead
import Sandix.Tty.NTty
import Sandix.Tty.Output
import Sandix.Tty.Termination
import Sandix.Tty.Column
import Sandix.Tty.Traced
import Sandix.Tty.VtConsole
import Sandix.Tty.Ldisc
import Sandix.Tty.LdiscRefs
import Sandix.Tty.LdiscChange
import Sandix.Tty.LdiscLock
import Sandix.Lib.Sort
import Sandix.Lib.SortMemory
import Sandix.Lib.PutDec
import Sandix.Lib.String
import Sandix.Lib.Format
import Sandix.Lib.Vsprintf
import Sandix.Lib.NumberText
import Sandix.Lib.NumberLayout
import Sandix.Lib.FormatText
import Sandix.Lib.FormatRun
import Sandix.Kernel.Printk
import Sandix.Kernel.PrintkScreen
import Sandix.E820.Sanitize
import Sandix.E820.Overlay
import Sandix.E820.Setup
import Sandix.E820.Fill
import Sandix.E820.EndPfn
import Sandix.Kernel.Resource
import Sandix.Kernel.ResourceTree
import Sandix.Kernel.ResourceInsert
import Sandix.Kernel.ResourceRelease
import Sandix.Kernel.ResourceRun
import Sandix.Kernel.StandardIo
import Sandix.Mm.EarlyIoremap
import Sandix.Mm.BtmapSlots
import Sandix.Mm.BtmapRun
import Sandix.Mm.Zones
import Sandix.Mm.ZoneAccounting
import Sandix.Mm.MemMap
import Sandix.Mm.DirectMap
import Sandix.Mm.MapRanges
import Sandix.Mm.MapTables
import Sandix.Mm.PageTables
import Sandix.Mm.PhysicalMapping
import Sandix.Mm.BootMappings
import Sandix.Mm.RangeInit
import Sandix.Mm.RangeTables
