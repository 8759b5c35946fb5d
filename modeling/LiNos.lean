import LiNos.CircularList
import LiNos.Blocks
import LiNos.Bits
import LiNos.FreeArea
import LiNos.PmmRuns
import LiNos.FirstfitPmm
import LiNos.FirstfitCheck
import LiNos.BestfitPmm
import LiNos.BuddyTree
import LiNos.BuddyPmm
import LiNos.BuddyInvariant
import LiNos.BuddyRuns
import LiNos.SiblingChain
import LiNos.Proc
import LiNos.ProcTable
import LiNos.ProcRuns
import LiNos.Tally
import LiNos.Paging
import LiNos.FramePool
import LiNos.PageTables
import LiNos.PageRefs
import LiNos.PageRuns
import LiNos.BootMap
import LiNos.Vmm
import LiNos.PageWork
import LiNos.PageCopy
import LiNos.PageTeardown
import LiNos.VmmSpaces
import LiNos.UserMem
import LiNos.VmmRuns
import LiNos.SwapQueue
import LiNos.SwapFaults
import LiNos.SwapLru
import LiNos.SwapManagers
import LiNos.SwapSlots
import LiNos.FreshPages
import LiNos.ProcFamilies
import LiNos.Sched
import LiNos.SchedRuns
import LiNos.SkewHeap
import LiNos.SkewHeapOrder
import LiNos.SchedSwitch
import LiNos.StrideRuns
import LiNos.StrideListing
import LiNos.PriorRuns
import LiNos.Sem
import LiNos.Semaphore
import LiNos.SemRuns
import LiNos.Monitor
import LiNos.MonitorRuns
import LiNos.PidRuns
import LiNos.LittleEndian
import LiNos.Outcome
import LiNos.DeltaList
import LiNos.TimerList
import LiNos.FsDefs
import LiNos.Bitmap
import LiNos.SfsDisk
import LiNos.SfsBmap
import LiNos.SfsFile
import LiNos.SfsTransfer
import LiNos.SfsFileRuns
import LiNos.SfsReach
import LiNos.SfsShared
import LiNos.Mksfs
import LiNos.SfsMount
import LiNos.MksfsFreemap
import LiNos.SfsReclaim
import LiNos.SfsReclaimRuns
import LiNos.RingBuffer
import LiNos.Stdin
import LiNos.NextfitPmm
import LiNos.NextCycle
import LiNos.Slob
import LiNos.SlobRuns
import LiNos.SfsContent
import LiNos.SfsAppend
import LiNos.SfsNodes
import LiNos.SfsLayout
import LiNos.SfsDirs
import LiNos.SfsEntries
import LiNos.SfsUpdates
import LiNos.SfsFull
import LiNos.SfsGetdirentry
import LiNos.SfsOwners
import LiNos.MmMap
import LiNos.SfsUndo
import LiNos.SwapFifo
