import Qunix.Sync.IrqLock
import Qunix.Mm.Frames
import Qunix.Mm.Misfrees
import Qunix.Mm.Recycling
import Qunix.Smp.Indexes
import Qunix.Sched.IrqFlags
import Qunix.Sched.Wakeup
import Qunix.Sched.ContextSlot
import Qunix.Sched.Reaping
import Qunix.Sched.AddressSpace
import Qunix.Sched.TrapStacks
import Qunix.Sched.IdleHome
import Qunix.Task.Timers
import Qunix.Hal.UserStack
import Qunix.Hal.OwnIds
import Qunix.Hal.NestedTask
import Qunix.Tlb.Delivery
import Qunix.Loader.Image
import Qunix.BufferCache.Marks
import Qunix.BufferCache.References
import Qunix.BufferCache.SyncWork
import Qunix.Virtio.Publishing
import Qunix.Block.Leaks
import Qunix.Block.RingRuns
import Qunix.Block.StaleReads
import Qunix.Storage.LateWrites
import Qunix.Qpkg.VersionForms
import Qunix.Qpkg.Index
import Qunix.Qpkg.LocalSources
import Qunix.Xtask.Coverage
