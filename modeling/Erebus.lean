import Erebus.Memory.Pmm.Merged
import Erebus.Memory.Pmm.PcpRing
import Erebus.Memory.Vmm.PageMap.Shatter
import Erebus.Utils.BPlusTree.Range
import Erebus.Utils.RingDeque
import Erebus.Utils.RWLock
import Erebus.Sched.Exit
import Erebus.Sched.Slice
import Erebus.Sched.Switch
import Erebus.Sched.Fpu
import Erebus.Hal.Apic.Lapic
import Erebus.Hal.Timer.CancelSync
import Erebus.Hal.Timer.Armed
import Erebus.Hal.Timer.Due
import Erebus.Memory.Vmm.Vma.Stack
import Erebus.Memory.Heap.Kmalloc
import Erebus.Crypto.Random
import Erebus.Drivers.Clock
import Erebus.Patch.StaticCall
import Erebus.Klib.StringBuffer
import Erebus.Klib.BmiWord
