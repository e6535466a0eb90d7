import TsaRecomp.Lib.DoublyLinked
import TsaRecomp.Lib.PriorityList
import TsaRecomp.Lib.ListOrder
import TsaRecomp.Lib.Ownership
import TsaRecomp.Lib.Runs
import TsaRecomp.Lib.Outcome
import TsaRecomp.Lib.Handles
import TsaRecomp.Lib.Places
import TsaRecomp.Lib.Movers
import TsaRecomp.Lib.Windows
import TsaRecomp.Sched.RunList
import TsaRecomp.Sched.Invariant
import TsaRecomp.Sched.Heaps
import TsaRecomp.Sched.Modes
import TsaRecomp.Sched.Killed
import TsaRecomp.Sched.Ticks
import TsaRecomp.Sched.KinLive
import TsaRecomp.Sched.Families
import TsaRecomp.Sched.KillTree
import TsaRecomp.Sched.Timers
import TsaRecomp.Sched.Destructors
import TsaRecomp.Data.HandlesLive
import TsaRecomp.Data.ObjectData
import TsaRecomp.Data.ObjectLayout
import TsaRecomp.Data.Registration
import TsaRecomp.Data.ObjectAccounts
import TsaRecomp.Data.DeadKeys
import TsaRecomp.Data.MemoryHashmap
import TsaRecomp.Data.HashmapCallers
import TsaRecomp.Data.MemorySlotmap
import TsaRecomp.Data.U32Slotmap
import TsaRecomp.Data.Drain
import TsaRecomp.Modules.Loaded
import TsaRecomp.Modules.TlbRanges
import TsaRecomp.Modules.Evinfo
import TsaRecomp.Modules.Rebasing
import TsaRecomp.Dma.Transfers
import TsaRecomp.Audio.Queue
import TsaRecomp.Lib.BigEndian
import TsaRecomp.Lib.Clients
import TsaRecomp.Lib.Histories
import TsaRecomp.Guest.Macros
import TsaRecomp.Guest.Accesses
import TsaRecomp.Guest.Blocks
import TsaRecomp.Guest.Programs
import TsaRecomp.Coro.Minicoro
import TsaRecomp.Coro.Activations
import TsaRecomp.Sched.Linked
import TsaRecomp.Sched.LinkedRuns
import TsaRecomp.Sched.LinkedSystem
import TsaRecomp.Data.Containers
import TsaRecomp.Lib.Ranked
import TsaRecomp.Dma.Progress
import TsaRecomp.Sched.Rounds
import TsaRecomp.Lib.LempelZiv
import TsaRecomp.Modules.Decode
import TsaRecomp.Modules.Packed
import TsaRecomp.Modules.Loader
