import UringDb.PageTable.Model
import UringDb.BufferMgr.PageState

/-!
# State of the multi-threaded buffer manager

The shared state is the page table, one page-state word and page id per frame, the
free pools, the workers' local free lists and the counters. Fibers run on workers;
a fiber is a program counter together with the locks and optimistic guards its client
holds between calls. Waiting (yield, park, the waiter queues) has no effect on any of
this and is the freedom of the scheduler to run other fibers.
-/
namespace UringDb.BufferMgr

open PageState PageTable

def u64 (x : Int) : Nat := (x % 2 ^ 64).toNat

/-- Construction parameters. `n` is the number of fibers; `wid` and `evictor` say on which
of the worker slots a fiber runs and whether it is that worker's eviction fiber. `target` is
`page_count * cfg.free_target` as the code computes it: a product in `float`, truncated. -/
structure Config (n : Nat) where
  pageCount : Nat
  target : Nat
  evictBatch : Nat
  table : Table
  poolBits : Nat
  partitionBits : Nat
  workers : Nat
  wid : Fin n → Nat
  wid_lt : ∀ f, wid f < workers
  evictor : Fin n → Bool

namespace Config

variable {n : Nat} (cfg : Config n)

/-- The target of `evict`; without frames the product is zero, whatever its other factor. -/
def freeTarget : Nat := if cfg.pageCount = 0 then 0 else cfg.target

def poolCount : Nat := 2 ^ cfg.poolBits

def poolMask : Nat := cfg.poolCount - 1

def freePoolIndexForWorker (worker : Nat) : Nat := worker &&& cfg.poolMask

def freePoolIndexForBid (bid : Nat) : Nat := bid &&& cfg.poolMask

/-- `local_free_refill_target`; both its callers pass a minimum that does not exceed it. -/
def refillTarget : Nat := max cfg.evictBatch 8

def localFreeCap (preferLocalWaiters : Bool) : Nat :=
  if preferLocalWaiters then 2 * max (cfg.refillTarget * 4) 256 else max (cfg.refillTarget * 4) 256

def localFreeLowWatermark : Nat := max (cfg.refillTarget / 4) 8

def ownerPartition (pid : Nat) : Nat := pid &&& (2 ^ cfg.partitionBits - 1)

end Config

/-! ### Shared data -/

/-- A frame: its page-state word and page id, and as ghosts the number of modifications
made to its content and how many of them the stored copy is known to contain. -/
structure Frame where
  state : Word
  pid : Nat
  mods : Nat
  saved : Nat
  deriving DecidableEq, Repr

/-- What a worker keeps for itself. Lists of frames have the back of the vector in front. -/
structure Local where
  free : List Nat
  delta : Int
  active : Bool
  deriving DecidableEq, Repr

structure Shared (n : Nat) where
  table : PageTable.State n
  frames : Nat → Frame
  pools : Nat → List Nat
  locals : Nat → Local
  used : Nat
  inflight : Nat
  allocCount : Nat
  activeWorkers : Nat
  sweepPos : Nat → Nat
  /-- Ghost: how many exclusive sections on a page have ended. -/
  sections : Nat → Nat

/-! ### Fibers -/

inductive LockKind where
  | shared
  | exclusive
  deriving DecidableEq, Repr

inductive LockConflictPolicy where
  | wait
  | restart
  deriving DecidableEq, Repr

structure Held where
  kind : LockKind
  pid : Nat
  bid : Nat
  deriving DecidableEq, Repr

/-- What `fixO` hands out: page, frame and the word that carries the version; `stamp` is
the number of exclusive sections that had ended on the page at the capture. -/
structure Guard where
  pid : Nat
  bid : Nat
  word : Word
  stamp : Nat
  deriving DecidableEq, Repr

inductive Form where
  | byPid (policy : LockConflictPolicy)
  | handOver (guard : Guard) (policy : LockConflictPolicy)
  deriving DecidableEq, Repr

/-- A call of one of the `fixS` and `fixX` functions. -/
structure Fix where
  kind : LockKind
  pid : Nat
  form : Form
  deriving DecidableEq, Repr

def fixS (pid : Nat) : Fix := ⟨.shared, pid, .byPid .wait⟩

def fixX (pid : Nat) (policy : LockConflictPolicy) : Fix := ⟨.exclusive, pid, .byPid policy⟩

def fixSFrom (guard : Guard) : Fix := ⟨.shared, guard.pid, .handOver guard .restart⟩

def fixXFrom (guard : Guard) (policy : LockConflictPolicy) : Fix :=
  ⟨.exclusive, guard.pid, .handOver guard policy⟩

/-- Who called `handleFault`: the client through `handleRestart`, or `fixS(pid)`, `fixX(pid)`
or `fixO(pid)`, which then start over. -/
inductive Caller where
  | client
  | fix (kind : LockKind) (pid : Nat)
  | optimistic (pid : Nat)
  deriving DecidableEq, Repr

/-- Who needs a free frame. -/
inductive Need where
  | alloc
  | fault (pid : Nat) (caller : Caller)
  deriving DecidableEq, Repr

/-- Why the local free list is being refilled. -/
inductive Refill where
  | empty
  | watermark
  | retry
  deriving DecidableEq, Repr

/-- For which page a popped frame is being set up. -/
inductive Setup where
  | alloc (pid : Nat)
  | fault (pid : Nat) (caller : Caller)
  deriving DecidableEq, Repr

def Setup.pid : Setup → Nat
  | .alloc pid => pid
  | .fault pid _ => pid

/-- The vectors and the budget of a running `evict()`; `released` is a ghost, the frames it
has put into a pool. -/
structure Eviction where
  reserved : Nat
  toEvict : List Nat
  toWrite : List Nat
  freed : List Nat
  released : List Nat
  deriving DecidableEq, Repr

/-- The locals of `clock_sweep_next_owned`. -/
structure Sweep where
  ownerIdx : Nat
  ownerCount : Nat
  start : Nat
  window : Nat
  scanned : Nat
  deriving DecidableEq, Repr

/-- A submitted page write; `stamp` is the frame's modification count at submission. -/
structure Write where
  bid : Nat
  pid : Nat
  stamp : Nat
  deriving DecidableEq, Repr

inductive Phase where
  | clean
  | written
  deriving DecidableEq, Repr

/-- The next atomic operation of a fiber, with the locals it still needs. -/
inductive Pc where
  | idle
  -- `fixS`, `fixX`
  | fixStart (fx : Fix)
  | fixLookup (fx : Fix)
  | fixPid (fx : Fix) (bid : Nat)
  | fixLoad (fx : Fix) (bid : Nat)
  | fixPidAgain (fx : Fix) (bid : Nat) (word : Word)
  | fixIo (fx : Fix) (bid : Nat) (word : Word)
  | fixEvicting (fx : Fix) (bid : Nat) (word : Word)
  | fixLock (fx : Fix) (bid : Nat) (word : Word)
  | fixPidLocked (fx : Fix) (bid : Nat)
  | undoLoad (fx : Fix) (bid : Nat)
  | undoStore (fx : Fix) (bid : Nat) (word : Word)
  -- `fixO`
  | optStart (pid : Nat)
  | optLookup (pid : Nat)
  | optPid (pid bid : Nat)
  | optIo (pid bid : Nat)
  | optEvicting (pid bid : Nat)
  | optLoad (pid bid : Nat)
  | optMark (pid bid : Nat) (word : Word)
  | optPidAgain (guard : Guard)
  -- `validateO`
  | valPid (guard : Guard)
  | valIo (guard : Guard)
  | valEvicting (guard : Guard)
  | valLoad (guard : Guard)
  -- `unfixS`, `unfixX`
  | unfixSMode (lock : Held)
  | unfixSLoad (lock : Held)
  | unfixSCas (lock : Held) (word : Word)
  | unfixXMode (lock : Held)
  | unfixXDirty (lock : Held)
  | unfixXLoad (lock : Held)
  | unfixXStore (lock : Held) (word : Word)
  -- `acquire_free_bid`, `refill_local_free_list`
  | acquire (need : Need)
  | refill (need : Need) (why : Refill) (step : Nat)
  | pop (need : Need)
  -- `allocPage`, `handleFault`
  | allocAccum (bid : Nat)
  | allocPid (bid : Nat)
  | faultLookup (pid : Nat) (caller : Caller)
  | faultIo (bid : Nat) (caller : Caller)
  | faultEvicting (bid : Nat) (caller : Caller)
  | faultAccum (pid bid : Nat) (caller : Caller)
  | rebindLoad (setup : Setup) (bid : Nat)
  | rebindStore (setup : Setup) (bid : Nat) (word : Word)
  | setFlag (setup : Setup) (bid : Nat)
  | setFrame (setup : Setup) (bid : Nat)
  | insert (setup : Setup) (bid : Nat)
  | memset (pid bid : Nat)
  | read (pid bid : Nat) (caller : Caller)
  | readIo (pid bid : Nat) (caller : Caller)
  | readLoad (pid bid : Nat) (caller : Caller)
  | readStore (pid bid : Nat) (caller : Caller) (word : Word)
  | loseLoad (pid bid : Nat) (caller : Caller)
  | loseStore (pid bid : Nat) (caller : Caller) (word : Word)
  | loseAccum (pid bid : Nat) (caller : Caller)
  | loseRelease (pid bid : Nat) (caller : Caller)
  | loseLookup (pid : Nat) (caller : Caller)
  -- `evict`: the reservation and the sweep
  | evLoadUsed
  | evLoadInflight (used : Nat)
  | evReserve (inflight reserved : Nat)
  | evOwners (ev : Eviction)
  | evSize (ev : Eviction) (ownerIdx ownerCount : Nat)
  | evPos (ev : Eviction) (ownerIdx ownerCount window : Nat)
  | evScan (ev : Eviction) (sw : Sweep)
  | evPid (ev : Eviction) (sw : Sweep) (pid bid : Nat)
  | evMode (ev : Eviction) (sw : Sweep) (pid bid : Nat)
  | evIo (ev : Eviction) (sw : Sweep) (pid bid mode : Nat)
  | evEvicting (ev : Eviction) (sw : Sweep) (pid bid mode : Nat)
  | evMarkLoad (ev : Eviction) (sw : Sweep) (pid bid : Nat)
  | evMarkCas (ev : Eviction) (sw : Sweep) (pid bid : Nat) (word : Word)
  | evSet (ev : Eviction) (sw : Sweep) (pid bid : Nat)
  | evDirty (ev : Eviction) (sw : Sweep) (pid bid : Nat)
  | evClean (ev : Eviction) (sw : Sweep) (pid bid : Nat)
  | evPosStore (ev : Eviction) (sw : Sweep) (pos : Nat)
  | evUnreserve (ev : Eviction)
  -- `evict`: the writes
  | evIssue (ev : Eviction) (todo : List Nat) (pending : List Write)
  | evAwait (ev : Eviction) (pending : List Write)
  -- `evictNow`
  | evNowPid (ev : Eviction) (phase : Phase) (bid : Nat) (rest : List Nat)
  | evErase (ev : Eviction) (phase : Phase) (bid pid : Nat) (rest : List Nat)
  | preEvicting (ev : Eviction) (phase : Phase) (bid pid : Nat) (rest : List Nat)
  | preMode (ev : Eviction) (phase : Phase) (bid pid : Nat) (rest : List Nat)
  | preDirty (ev : Eviction) (phase : Phase) (bid pid : Nat) (rest : List Nat)
  | preIo (ev : Eviction) (phase : Phase) (bid pid : Nat) (rest : List Nat)
  | preAnswer (ev : Eviction) (phase : Phase) (bid pid : Nat) (rest : List Nat) (answer : Bool)
  | evCollapse (ev : Eviction) (phase : Phase) (bid pid : Nat) (rest : List Nat)
  | evPost (ev : Eviction) (phase : Phase) (bid pid : Nat) (rest : List Nat)
  -- `releaseFreed` and the end of `evict`
  | evRelease (ev : Eviction) (phase : Phase) (pool : Nat)
  | evUsed (ev : Eviction) (phase : Phase)
  | evDone (ev : Eviction)

/-- What the steps of the code are for. -/
inductive Part where
  | idle
  | fixing
  | guarding
  | unfixing
  | acquiring
  | loading
  | sweeping
  | erasing

def Pc.part : Pc → Part
  | .idle => .idle
  | .fixStart .. | .fixLookup .. | .fixPid .. | .fixLoad .. | .fixPidAgain .. | .fixIo ..
  | .fixEvicting .. | .fixLock .. | .fixPidLocked .. | .undoLoad .. | .undoStore .. => .fixing
  | .optStart .. | .optLookup .. | .optPid .. | .optIo .. | .optEvicting .. | .optLoad ..
  | .optMark .. | .optPidAgain .. | .valPid .. | .valIo .. | .valEvicting .. | .valLoad .. => .guarding
  | .unfixSMode .. | .unfixSLoad .. | .unfixSCas .. | .unfixXMode .. | .unfixXDirty ..
  | .unfixXLoad .. | .unfixXStore .. => .unfixing
  | .acquire .. | .refill .. | .pop .. | .allocAccum .. | .allocPid .. | .faultLookup ..
  | .faultIo .. | .faultEvicting .. | .faultAccum .. => .acquiring
  | .rebindLoad .. | .rebindStore .. | .setFlag .. | .setFrame .. | .insert .. | .memset ..
  | .read .. | .readIo .. | .readLoad .. | .readStore .. | .loseLoad .. | .loseStore ..
  | .loseAccum .. | .loseRelease .. | .loseLookup .. => .loading
  | .evLoadUsed | .evLoadInflight .. | .evReserve .. | .evOwners .. | .evSize .. | .evPos ..
  | .evScan .. | .evPid .. | .evMode .. | .evIo .. | .evEvicting .. | .evMarkLoad ..
  | .evMarkCas .. | .evSet .. | .evDirty .. | .evClean .. | .evPosStore .. | .evUnreserve .. =>
    .sweeping
  | .evIssue .. | .evAwait .. | .evNowPid .. | .evErase .. | .preEvicting .. | .preMode ..
  | .preDirty .. | .preIo .. | .preAnswer .. | .evCollapse .. | .evPost .. | .evRelease ..
  | .evUsed .. | .evDone .. => .erasing

structure Fiber where
  pc : Pc
  held : List Held
  guards : List Guard

structure State (n : Nat) where
  shared : Shared n
  fibers : Fin n → Fiber

inductive Out where
  | silent
  | fixed (lock : Held)
  | captured (guard : Guard)
  | validated (guard : Guard) (ok : Bool)
  | erased (pid bid : Nat)
  | evictDone (ev : Eviction)
  | evictIdle
  deriving DecidableEq, Repr

end UringDb.BufferMgr
