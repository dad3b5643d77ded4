import UringDb.PageTable.Concurrency
import UringDb.PageTable.PageMap
import UringDb.PageTable.Sweep
import UringDb.BufferMgr.Writeback
import UringDb.BufferMgr.Leftover
import UringDb.BufferMgr.Waiters
import UringDb.BufferMgr.Wakeups
import UringDb.Reactor.Mt
import UringDb.Reactor.St
import UringDb.Shuffle.Hashtable
import UringDb.RobinHood.Overflow
import UringDb.Shuffle.InFlight
import UringDb.Shuffle.Budget
import UringDb.Shuffle.Barrier
import UringDb.BufferMgr.ReleaseFreed
import UringDb.BufferMgr.UsedCounter
import UringDb.BufferMgr.PageFlags
import UringDb.Bm.Metadata
import UringDb.Tpcc.History
import UringDb.BTree.Tree
import UringDb.Reactor.Submission
import UringDb.Reactor.Fibers
import UringDb.Remotescan.Chunks
import UringDb.Remotescan.ScanRange
import UringDb.BufferMgr.Rounding
import UringDb.BufferMgr.Devices
import UringDb.Shuffle.Morsels
import UringDb.Utils.BufRing
import UringDb.Fio.ExecutionOrder
