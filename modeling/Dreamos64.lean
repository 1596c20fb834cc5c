import Dreamos64.Mem.MmapPlacement
import Dreamos64.Mem.EarlyTables
import Dreamos64.Mem.BitmapInit
import Dreamos64.Mem.FrameRequests
import Dreamos64.Mem.Areas
import Dreamos64.Mem.KHeapCoalesced
import Dreamos64.Mem.KHeapAlignment
import Dreamos64.Mem.KHeapFirstFit
import Dreamos64.Mem.VmmFinds
import Dreamos64.Mem.VmmSharing
import Dreamos64.Arch.RecursiveAgreement
import Dreamos64.Mem.VmmBacking
import Dreamos64.Arch.MadtBounds
import Dreamos64.Arch.Acpi
import Dreamos64.Arch.SourceOverrides
import Dreamos64.Sched.Context
import Dreamos64.Sched.RoundRobin
import Dreamos64.Sched.ThreadIds
import Dreamos64.Sched.TaskThreads
import Dreamos64.Sched.ElfFaithful
import Dreamos64.Libc.Formats
import Dreamos64.Libc.Memmove
import Dreamos64.Fs.Mountpoints
import Dreamos64.Fs.UstarArchive
import Dreamos64.Graphics.Scroll
import Dreamos64.Graphics.Cursor
import Dreamos64.Graphics.SysPrint
import Dreamos64.Hardware.RtcTime
import Dreamos64.Input.Modifiers
import Dreamos64.Input.CrossSpace
import Dreamos64.Sys.Spinlock
