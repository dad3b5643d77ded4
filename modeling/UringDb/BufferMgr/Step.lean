import UringDb.BufferMgr.State

/-!
# Steps of the multi-threaded buffer manager

Each program counter performs one atomic operation of the code: a load, store,
compare-and-swap or fetch-op on a shared word, one step of the page table, or one
critical section of a pool's spin lock. A failed `ensure` has no step. `choice` resolves
what the code leaves open: a spurious failure of `compare_exchange_weak`, whether fibers
of the own worker wait for a frame, and which write completes next.
-/
namespace UringDb.BufferMgr

open PageState PageTable

variable {n : Nat}

structure Result (n : Nat) where
  shared : Shared n
  fiber : Fiber
  out : Out

namespace Shared

def setFrame (sh : Shared n) (bid : Nat) (frame : Frame) : Shared n :=
  { sh with frames := Function.update sh.frames bid frame }

def setState (sh : Shared n) (bid : Nat) (word : Word) : Shared n :=
  sh.setFrame bid { sh.frames bid with state := word }

def setPid (sh : Shared n) (bid pid : Nat) : Shared n :=
  sh.setFrame bid { sh.frames bid with pid := pid }

def modify (sh : Shared n) (bid : Nat) : Shared n :=
  sh.setFrame bid { sh.frames bid with mods := (sh.frames bid).mods + 1 }

/-- The frame's content is the stored copy. -/
def loaded (sh : Shared n) (bid : Nat) : Shared n :=
  sh.setFrame bid { sh.frames bid with saved := (sh.frames bid).mods }

/-- A write completes; it counts if the frame still belongs to the page it was issued for. -/
def stored (sh : Shared n) (wr : Write) : Shared n :=
  if (sh.frames wr.bid).pid = wr.pid then
    sh.setFrame wr.bid { sh.frames wr.bid with saved := max (sh.frames wr.bid).saved wr.stamp }
  else sh

def setPool (sh : Shared n) (idx : Nat) (bids : List Nat) : Shared n :=
  { sh with pools := Function.update sh.pools idx bids }

def setLocal (sh : Shared n) (worker : Nat) (loc : Local) : Shared n :=
  { sh with locals := Function.update sh.locals worker loc }

end Shared

def go (sh : Shared n) (fib : Fiber) (pc : Pc) : Option (Result n) :=
  some ⟨sh, { fib with pc := pc }, .silent⟩

def finish (sh : Shared n) (fib : Fiber) (out : Out) : Option (Result n) :=
  some ⟨sh, { fib with pc := .idle }, out⟩

/-! ### Page-table calls -/

section Table

variable (cfg : Config n) (sh : Shared n) (f : Fin n)

/-- One step of a page-table call: the first one makes the call. -/
def tableStep (call : Call) (answer : Bool) : Option (Shared n × PageTable.Out) :=
  (exec cfg.table sh.table
    (if (sh.table.pcs f).canCall then .call f call else .step f answer)).map
    fun r => ({ sh with table := r.1 }, r.2)

/-- `find_copy`: `found` and `missing` continue when it returns. -/
def lookup (fib : Fiber) (pid : Nat) (found : Nat → Pc) (missing : Pc) : Option (Result n) :=
  match tableStep cfg sh f (.findCopy pid) false with
  | none => none
  | some (sh', .returned _ (.found bid)) => go sh' fib (found bid)
  | some (sh', .returned _ (.bool _)) => go sh' fib missing
  | some (sh', _) => go sh' fib fib.pc

end Table

/-! ### `fixS` and `fixX` -/

namespace Fix

/-- Where a fix continues when the frame is not the page's: the loops by pid retry. -/
def mismatch (fx : Fix) : Pc :=
  match fx.form with
  | .byPid .wait => .fixLookup fx
  | _ => .idle

/-- Where a fix continues when it may not or could not lock. -/
def conflict (fx : Fix) : Pc :=
  match fx.form with
  | .byPid .wait => .fixLookup fx
  | .handOver guard .wait => .fixPid fx guard.bid
  | _ => .idle

def missing (fx : Fix) : Pc :=
  match fx.form with
  | .byPid .wait => .faultLookup fx.pid (.fix fx.kind fx.pid)
  | _ => .idle

def start (fx : Fix) : Pc :=
  match fx.form with
  | .byPid _ => .fixLookup fx
  | .handOver guard _ => .fixPid fx guard.bid

/-- `resident_same_version` against the version handed over. -/
def sameVersion (fx : Fix) (word : Word) : Bool :=
  match fx.form with
  | .byPid _ => true
  | .handOver guard _ => word.version == guard.word.version

def lockWord (fx : Fix) (word : Word) : Option Word :=
  match fx.kind with
  | .shared => word.lockS
  | .exclusive => word.lockXDirty

/-- The guards left once the fix has succeeded: a guard handed over is released. -/
def guardsLeft (fx : Fix) (guards : List Guard) : List Guard :=
  match fx.form with
  | .byPid _ => guards
  | .handOver guard _ => guards.erase guard

def lock (fx : Fix) (bid : Nat) : Held := ⟨fx.kind, fx.pid, bid⟩

end Fix

section

variable (sh : Shared n) (fib : Fiber)

def fixLock (fx : Fix) (bid : Nat) (word : Word) : Option (Result n) :=
  match fx.lockWord word with
  | none => go sh fib fx.conflict
  | some word' =>
    if (sh.frames bid).state = word then go (sh.setState bid word') fib (.fixPidLocked fx bid)
    else go sh fib fx.conflict

def fixPidLocked (fx : Fix) (bid : Nat) : Option (Result n) :=
  if (sh.frames bid).pid = fx.pid then
    some ⟨sh, ⟨.idle, fx.lock bid :: fib.held, fx.guardsLeft fib.guards⟩, .fixed (fx.lock bid)⟩
  else go sh fib (.undoLoad fx bid)

/-- `unlock_s` or `unlock_x` after the wrong frame was locked. -/
def undoStore (fx : Fix) (bid : Nat) (word : Word) : Option (Result n) :=
  match fx.kind with
  | .shared =>
    if (sh.frames bid).state = word then go (sh.setState bid word.unlockS) fib fx.mismatch
    else go sh fib (.undoLoad fx bid)
  | .exclusive => go (sh.setState bid (word.nextVersion unlocked)) fib fx.mismatch

/-! ### `fixO` and `validateO` -/

/-- `resident_prepare_optimistic`, the load. -/
def optLoad (pid bid : Nat) : Option (Result n) :=
  let word := (sh.frames bid).state
  if word.mode = locked ∨ word.mode = evicted then go sh fib (.optLookup pid)
  else if word.mode = unlocked then go sh fib (.optMark pid bid word)
  else go sh fib (.optPidAgain ⟨pid, bid, word, sh.sections pid⟩)

/-- `resident_prepare_optimistic`, `try_mark`. -/
def optMark (pid bid : Nat) (word : Word) : Option (Result n) :=
  if (sh.frames bid).state = word then
    go (sh.setState bid (word.sameVersion marked)) fib
      (.optPidAgain ⟨pid, bid, word.sameVersion marked, sh.sections pid⟩)
  else go sh fib (.optLoad pid bid)

def optPidAgain (guard : Guard) : Option (Result n) :=
  if (sh.frames guard.bid).pid = guard.pid then
    some ⟨sh, ⟨.idle, fib.held, guard :: fib.guards⟩, .captured guard⟩
  else go sh fib (.optLookup guard.pid)

def valLoad (guard : Guard) : Option (Result n) :=
  let current := (sh.frames guard.bid).state
  finish sh fib (.validated guard
    (current == guard.word || (current.version == guard.word.version &&
      (current.mode ≤ maxShared || current.mode == marked))))

/-! ### `unfixS` and `unfixX` -/

def unfixSCas (lock : Held) (word : Word) : Option (Result n) :=
  if (sh.frames lock.bid).state = word then
    finish (sh.setState lock.bid word.unlockSMarked) fib .silent
  else go sh fib (.unfixSLoad lock)

def unfixXStore (lock : Held) (word : Word) : Option (Result n) :=
  let sh' := sh.setState lock.bid (word.nextVersion marked)
  finish { sh' with sections := Function.update sh.sections lock.pid (sh.sections lock.pid + 1) }
    fib .silent

end

/-! ### Free frames -/

section

variable (cfg : Config n) (sh : Shared n) (f : Fin n) (fib : Fiber)

def ownLocal : Local := sh.locals (cfg.wid f)

def accumPhysUsed (d : Int) : Shared n :=
  let own := ownLocal cfg sh f
  let delta := own.delta + d
  if 64 ≤ delta ∨ delta ≤ -64 then
    { sh.setLocal (cfg.wid f) { own with delta := 0 } with used := u64 (sh.used + delta) }
  else sh.setLocal (cfg.wid f) { own with delta := delta }

/-- `acquire_free_bid` after the local list is known not to be empty. -/
def checkWatermark (need : Need) (size : Nat) : Pc :=
  if size = cfg.localFreeLowWatermark ∧ size < cfg.refillTarget then .refill need .watermark 0
  else .pop need

/-- What follows `refill_local_free_list` when the local list has `size` frames. -/
def afterRefill (need : Need) (why : Refill) (size : Nat) : Option Pc :=
  match why, need with
  | .watermark, _ => some (.pop need)
  | .retry, .fault pid caller =>
    some (if 1 ≤ size then .acquire need else .faultLookup pid caller)
  | .retry, .alloc => none
  | .empty, .alloc => some (if 1 ≤ size then checkWatermark cfg need size else .idle)
  -- `ensure(bid != 0)`
  | .empty, .fault _ _ => if 1 ≤ size then some (checkWatermark cfg need size) else none

def acquire (need : Need) : Option (Result n) :=
  let size := (ownLocal cfg sh f).free.length
  if size = 0 then go sh fib (.refill need .empty 0)
  else go sh fib (checkWatermark cfg need size)

/-- `refill_from_pool` on one pool, under its lock. -/
def refillFromPool (step : Nat) : Shared n :=
  let idx := (cfg.freePoolIndexForWorker (cfg.wid f) + step) &&& cfg.poolMask
  let own := ownLocal cfg sh f
  let pool := sh.pools idx
  let take := min (cfg.refillTarget - own.free.length) pool.length
  (sh.setPool idx (pool.drop take)).setLocal (cfg.wid f) { own with free := pool.take take ++ own.free }

def refill (need : Need) (why : Refill) (step : Nat) : Option (Result n) :=
  let sh' := refillFromPool cfg sh f step
  let size := (ownLocal cfg sh' f).free.length
  if step + 1 < cfg.poolCount ∧ size < cfg.refillTarget then go sh' fib (.refill need why (step + 1))
  else (afterRefill cfg need why size).bind (go sh' fib)

def pop (need : Need) : Option (Result n) :=
  let own := ownLocal cfg sh f
  match own.free with
  | [] => none
  | bid :: free =>
    let sh' := sh.setLocal (cfg.wid f) { own with free := free }
    match need with
    | .alloc => go sh' fib (if bid = 0 then .idle else .allocAccum bid)
    | .fault pid caller => if bid = 0 then none else go sh' fib (.faultAccum pid bid caller)

def releaseFreeBid (bid : Nat) (preferLocalWaiters : Bool) : Shared n :=
  let own := ownLocal cfg sh f
  if own.free.length < cfg.localFreeCap preferLocalWaiters then
    sh.setLocal (cfg.wid f) { own with free := bid :: own.free }
  else
    let idx := cfg.freePoolIndexForBid bid
    sh.setPool idx (bid :: sh.pools idx)

/-! ### `allocPage` and `handleFault` -/

def Caller.resume : Caller → Pc
  | .client => .idle
  | .fix kind pid => .fixLookup ⟨kind, pid, .byPid .wait⟩
  | .optimistic pid => .optLookup pid

/-- `handleFault` once the page is known to be absent: `while (!refill_local_free_list(1))`. -/
def faultRefill (pid : Nat) (caller : Caller) : Pc :=
  if 1 ≤ (ownLocal cfg sh f).free.length then .acquire (.fault pid caller)
  else .refill (.fault pid caller) .retry 0

def setFlag (setup : Setup) (bid : Nat) : Option (Result n) :=
  let word := (sh.frames bid).state
  match setup with
  | .alloc _ => go (sh.setState bid { word with dirty := true }) fib (.setFrame setup bid)
  | .fault _ _ => go (sh.setState bid { word with io := true }) fib (.setFrame setup bid)

def insert (setup : Setup) (bid : Nat) : Option (Result n) :=
  match tableStep cfg sh f (.insert setup.pid bid) false with
  | none => none
  | some (sh', .returned _ (.bool true)) =>
    match setup with
    | .alloc pid => go sh' fib (.memset pid bid)
    | .fault pid caller => go sh' fib (.read pid bid caller)
  | some (sh', .returned _ _) =>
    match setup with
    -- `ensure(inserted)`
    | .alloc _ => none
    | .fault pid caller => go sh' fib (.loseLoad pid bid caller)
  | some (sh', _) => go sh' fib fib.pc

def memset (pid bid : Nat) : Option (Result n) :=
  let lock : Held := ⟨.exclusive, pid, bid⟩
  some ⟨sh.modify bid, ⟨.idle, lock :: fib.held, fib.guards⟩, .silent⟩

end

/-! ### `evict` -/

section

variable (cfg : Config n) (sh : Shared n) (f : Fin n) (fib : Fiber)

/-- The entry test of `evict`: the free frames and the reserved ones are below the target. -/
def entryTest (used inflight : Nat) : Bool :=
  u64 (u64 (cfg.pageCount - used) + inflight) < cfg.freeTarget

def evLoadInflight (used : Nat) : Option (Result n) :=
  if entryTest cfg used sh.inflight then
    let deficit := cfg.freeTarget - u64 (u64 (cfg.pageCount - used) + sh.inflight)
    go sh fib (.evReserve sh.inflight (max 1 (min cfg.evictBatch deficit)))
  else finish sh fib .evictIdle

def evReserve (inflight reserved choice : Nat) : Option (Result n) :=
  if sh.inflight = inflight ∧ choice ≠ 0 then
    go { sh with inflight := u64 (inflight + reserved) } fib (.evOwners ⟨reserved, [], [], [], []⟩)
  else go sh fib .evLoadUsed

def evSize (ev : Eviction) (ownerIdx ownerCount : Nat) : Option (Result n) :=
  if 0 < sh.used ∧ ownerCount ≤ 2 ^ cfg.partitionBits then
    go sh fib (.evPos ev ownerIdx ownerCount (cfg.table.window ownerCount cfg.evictBatch sh.used))
  else none

/-- The slot a sweep looks at. -/
def Sweep.idx (sw : Sweep) : Nat := (sw.start + sw.scanned) &&& cfg.table.slotMask

/-- The next iteration of the sweep's loop, or what follows it. -/
def Sweep.next (ev : Eviction) (sw : Sweep) : Pc :=
  if sw.scanned + 1 < sw.window then .evScan ev { sw with scanned := sw.scanned + 1 }
  else .evPosStore ev sw ((sw.start + sw.window) &&& cfg.table.slotMask)

def evScan (ev : Eviction) (sw : Sweep) : Option (Result n) :=
  let raw := sh.table.slots (sw.idx cfg)
  if Slot.isEmpty raw || Slot.isTombstone raw then go sh fib (sw.next cfg ev)
  else if cfg.ownerPartition (Slot.pid raw) % sw.ownerCount ≠ sw.ownerIdx then
    go sh fib (sw.next cfg ev)
  else go sh fib (.evPid ev sw (Slot.pid raw) (Slot.bid raw))

/-- The sweep callback has chosen a frame: it answers whether the budget is used up. -/
def Eviction.chosen (ev : Eviction) (sw : Sweep) : Pc :=
  if ev.toEvict.length + ev.toWrite.length = ev.reserved then
    .evPosStore ev sw ((sw.idx cfg + 1) &&& cfg.table.slotMask)
  else sw.next cfg ev

def evDirty (ev : Eviction) (sw : Sweep) (pid bid : Nat) : Option (Result n) :=
  if (sh.frames bid).state.dirty then go sh fib (.evClean ev sw pid bid)
  else
    let ev' := { ev with toEvict := ev.toEvict ++ [bid] }
    go sh fib (ev'.chosen cfg sw)

def evClean (ev : Eviction) (sw : Sweep) (bid : Nat) : Option (Result n) :=
  let sh' := sh.setState bid { (sh.frames bid).state with dirty := false }
  let ev' := { ev with toWrite := ev.toWrite ++ [bid] }
  go sh' fib (ev'.chosen cfg sw)

namespace Eviction

variable (ev : Eviction)

/-- `releaseFreed` after phase 2. -/
def finishWritten : Pc := if ev.freed = [] then .evDone ev else .evRelease ev .written 0

def startWritten : Pc :=
  match ev.toWrite with
  | [] => ev.finishWritten
  | bid :: rest => .evNowPid ev .written bid rest

/-- `releaseFreed` after phase 1. -/
def finishClean : Pc := if ev.freed = [] then ev.startWritten else .evRelease ev .clean 0

/-- The next frame of the phase, or what follows the phase. -/
def next (phase : Phase) : List Nat → Pc
  | bid :: rest => .evNowPid ev phase bid rest
  | [] =>
    match phase with
    | .clean => ev.finishClean
    | .written => ev.finishWritten

end Eviction

def evUnreserve (ev : Eviction) : Option (Result n) :=
  let selected := ev.toEvict.length + ev.toWrite.length
  let sh' := if selected < ev.reserved then
      { sh with inflight := u64 (sh.inflight - (ev.reserved - selected)) }
    else sh
  let ev' := { ev with reserved := min ev.reserved selected }
  go sh' fib (if ev.toWrite = [] then ev'.next .clean ev.toEvict else .evIssue ev' ev.toWrite [])

def evIssue (ev : Eviction) (todo : List Nat) (pending : List Write) : Option (Result n) :=
  match todo with
  | [] => go sh fib (.evAwait ev pending)
  | bid :: rest =>
    let frame := sh.frames bid
    go sh fib (.evIssue ev rest (pending ++ [⟨bid, frame.pid, frame.mods⟩]))

/-- One of the submitted writes completes. -/
def evAwait (ev : Eviction) (pending : List Write) (choice : Nat) : Option (Result n) :=
  match pending[choice]? with
  | none => if pending = [] then go sh fib (ev.next .clean ev.toEvict) else none
  | some wr => go (sh.stored wr) fib (.evAwait ev (pending.eraseIdx choice))

/-- One step of `erase_if` up to its precheck and from its compare-and-swap on. -/
def evErase (ev : Eviction) (phase : Phase) (bid pid : Nat) (rest : List Nat) : Option (Result n) :=
  match tableStep cfg sh f (.eraseIf pid) false with
  | none => none
  | some (sh', .erased p b) =>
    some ⟨sh', { fib with pc := .evCollapse ev phase b p rest }, .erased p b⟩
  | some (sh', .returned _ _) => go sh' fib (ev.next phase rest)
  | some (sh', .silent) =>
    match sh'.table.pcs f with
    | .precheck _ _ raw =>
      if Slot.bid raw = bid then go sh' fib (.preEvicting ev phase bid pid rest)
      else go sh' fib (.preAnswer ev phase bid pid rest false)
    | _ => go sh' fib fib.pc

def preAnswer (ev : Eviction) (phase : Phase) (bid pid : Nat) (rest : List Nat) (answer : Bool) :
    Option (Result n) :=
  (tableStep cfg sh f (.eraseIf pid) answer).bind fun r =>
    go r.1 fib (if answer then .evErase ev phase bid pid rest else ev.next phase rest)

def evCollapse (ev : Eviction) (phase : Phase) (bid pid : Nat) (rest : List Nat) :
    Option (Result n) :=
  match tableStep cfg sh f (.eraseIf pid) false with
  | none => none
  | some (sh', .returned _ _) => go sh' fib (.evPost ev phase bid pid rest)
  | some (sh', _) => go sh' fib fib.pc

def evPost (ev : Eviction) (phase : Phase) (bid : Nat) (rest : List Nat) : Option (Result n) :=
  let sh' := sh.setState bid { (sh.frames bid).state with evicting := false }
  let ev' := { ev with freed := ev.freed ++ [bid] }
  go sh' fib (ev'.next phase rest)

def evRelease (ev : Eviction) (phase : Phase) (pool : Nat) : Option (Result n) :=
  let batch := ev.freed.filter fun bid => cfg.freePoolIndexForBid bid == pool
  let sh' := sh.setPool pool (batch.reverse ++ sh.pools pool)
  let ev' := { ev with released := ev.released ++ batch }
  go sh' fib (if pool + 1 < cfg.poolCount then .evRelease ev' phase (pool + 1)
    else .evUsed ev' phase)

def evUsed (ev : Eviction) (phase : Phase) : Option (Result n) :=
  let own := ownLocal cfg sh f
  let net := own.delta - ev.freed.length
  let sh' := { sh.setLocal (cfg.wid f) { own with delta := 0 } with used := u64 (sh.used + net) }
  let ev' := { ev with freed := [] }
  go sh' fib (match phase with
    | .clean => ev'.startWritten
    | .written => .evDone ev')

def evDone (ev : Eviction) : Option (Result n) :=
  finish { sh with inflight := u64 (sh.inflight - ev.reserved) } fib (.evictDone ev)

end

/-- One atomic operation of a fiber. -/
def stepFiber (cfg : Config n) (sh : Shared n) (f : Fin n) (fib : Fiber) (choice : Nat) :
    Option (Result n) :=
  match fib.pc with
  | .idle => none
  | .fixStart fx => if sh.allocCount ≤ fx.pid then finish sh fib .silent else go sh fib fx.start
  | .fixLookup fx => lookup cfg sh f fib fx.pid (.fixPid fx) fx.missing
  | .fixPid fx bid =>
    go sh fib (if (sh.frames bid).pid = fx.pid then .fixLoad fx bid else fx.mismatch)
  | .fixLoad fx bid =>
    let word := (sh.frames bid).state
    go sh fib (if fx.sameVersion word then .fixPidAgain fx bid word else .idle)
  | .fixPidAgain fx bid word =>
    go sh fib (if (sh.frames bid).pid = fx.pid then .fixIo fx bid word else fx.mismatch)
  | .fixIo fx bid word =>
    go sh fib (if (sh.frames bid).state.io then fx.conflict else .fixEvicting fx bid word)
  | .fixEvicting fx bid word =>
    go sh fib (if (sh.frames bid).state.evicting then fx.conflict else .fixLock fx bid word)
  | .fixLock fx bid word => fixLock sh fib fx bid word
  | .fixPidLocked fx bid => fixPidLocked sh fib fx bid
  | .undoLoad fx bid => go sh fib (.undoStore fx bid (sh.frames bid).state)
  | .undoStore fx bid word => undoStore sh fib fx bid word
  | .optStart pid => if sh.allocCount ≤ pid then finish sh fib .silent else go sh fib (.optLookup pid)
  | .optLookup pid => lookup cfg sh f fib pid (.optPid pid) (.faultLookup pid (.optimistic pid))
  | .optPid pid bid =>
    go sh fib (if (sh.frames bid).pid = pid then .optIo pid bid else .optLookup pid)
  | .optIo pid bid =>
    go sh fib (if (sh.frames bid).state.io then .optLookup pid else .optEvicting pid bid)
  | .optEvicting pid bid =>
    go sh fib (if (sh.frames bid).state.evicting then .optLookup pid else .optLoad pid bid)
  | .optLoad pid bid => optLoad sh fib pid bid
  | .optMark pid bid word => optMark sh fib pid bid word
  | .optPidAgain guard => optPidAgain sh fib guard
  | .valPid guard =>
    if (sh.frames guard.bid).pid = guard.pid then go sh fib (.valIo guard)
    else finish sh fib (.validated guard false)
  | .valIo guard =>
    if (sh.frames guard.bid).state.io then finish sh fib (.validated guard false)
    else go sh fib (.valEvicting guard)
  | .valEvicting guard =>
    if (sh.frames guard.bid).state.evicting then finish sh fib (.validated guard false)
    else go sh fib (.valLoad guard)
  | .valLoad guard => valLoad sh fib guard
  | .unfixSMode lock =>
    if 1 ≤ (sh.frames lock.bid).state.mode ∧ (sh.frames lock.bid).state.mode ≤ maxShared then
      go sh fib (.unfixSLoad lock)
    else none
  | .unfixSLoad lock => go sh fib (.unfixSCas lock (sh.frames lock.bid).state)
  | .unfixSCas lock word => unfixSCas sh fib lock word
  | .unfixXMode lock =>
    if (sh.frames lock.bid).state.mode = locked then go sh fib (.unfixXDirty lock) else none
  | .unfixXDirty lock =>
    go (sh.setState lock.bid { (sh.frames lock.bid).state with dirty := true }) fib (.unfixXLoad lock)
  | .unfixXLoad lock => go sh fib (.unfixXStore lock (sh.frames lock.bid).state)
  | .unfixXStore lock word => unfixXStore sh fib lock word
  | .acquire need => acquire cfg sh f fib need
  | .refill need why step => refill cfg sh f fib need why step
  | .pop need => pop cfg sh f fib need
  | .allocAccum bid => go (accumPhysUsed cfg sh f 1) fib (.allocPid bid)
  | .allocPid bid =>
    go { sh with allocCount := sh.allocCount + 1 } fib (.rebindLoad (.alloc sh.allocCount) bid)
  | .faultLookup pid caller =>
    lookup cfg sh f fib pid (fun bid => .faultIo bid caller) (faultRefill cfg sh f pid caller)
  | .faultIo bid caller =>
    go sh fib (if (sh.frames bid).state.io then caller.resume else .faultEvicting bid caller)
  | .faultEvicting _ caller => go sh fib caller.resume
  | .faultAccum pid bid caller =>
    go (accumPhysUsed cfg sh f 1) fib (.rebindLoad (.fault pid caller) bid)
  | .rebindLoad setup bid => go sh fib (.rebindStore setup bid (sh.frames bid).state)
  | .rebindStore setup bid word =>
    go (sh.setState bid (word.nextVersionNoFlags locked)) fib (.setFlag setup bid)
  | .setFlag setup bid => setFlag sh fib setup bid
  | .setFrame setup bid => go (sh.setPid bid setup.pid) fib (.insert setup bid)
  | .insert setup bid => insert cfg sh f fib setup bid
  | .memset pid bid => memset sh fib pid bid
  | .read pid bid caller => go (sh.loaded bid) fib (.readIo pid bid caller)
  | .readIo pid bid caller =>
    go (sh.setState bid { (sh.frames bid).state with io := false }) fib (.readLoad pid bid caller)
  | .readLoad pid bid caller => go sh fib (.readStore pid bid caller (sh.frames bid).state)
  | .readStore _ bid caller word =>
    go (sh.setState bid (word.nextVersion marked)) fib caller.resume
  | .loseLoad pid bid caller => go sh fib (.loseStore pid bid caller (sh.frames bid).state)
  | .loseStore pid bid caller word =>
    go (sh.setState bid (word.nextVersionNoFlags unlocked)) fib (.loseAccum pid bid caller)
  | .loseAccum pid bid caller => go (accumPhysUsed cfg sh f (-1)) fib (.loseRelease pid bid caller)
  | .loseRelease pid bid caller =>
    go (releaseFreeBid cfg sh f bid (choice != 0)) fib (.loseLookup pid caller)
  | .loseLookup pid caller =>
    lookup cfg sh f fib pid (fun bid => .faultIo bid caller) caller.resume
  | .evLoadUsed => go sh fib (.evLoadInflight sh.used)
  | .evLoadInflight used => evLoadInflight cfg sh fib used
  | .evReserve inflight reserved => evReserve sh fib inflight reserved choice
  | .evOwners ev =>
    let ownerCount := max 1 sh.activeWorkers
    go sh fib (.evSize ev (cfg.wid f % ownerCount) ownerCount)
  | .evSize ev ownerIdx ownerCount => evSize cfg sh fib ev ownerIdx ownerCount
  | .evPos ev ownerIdx ownerCount window =>
    go sh fib (.evScan ev
      ⟨ownerIdx, ownerCount, sh.sweepPos ownerIdx % cfg.table.slotCount, window, 0⟩)
  | .evScan ev sw => evScan cfg sh fib ev sw
  | .evPid ev sw pid bid =>
    go sh fib (if (sh.frames bid).pid = pid then .evMode ev sw pid bid else sw.next cfg ev)
  | .evMode ev sw pid bid =>
    let word := (sh.frames bid).state
    go sh fib (if word.free then .evIo ev sw pid bid word.mode else sw.next cfg ev)
  | .evIo ev sw pid bid mode =>
    go sh fib (if (sh.frames bid).state.io then sw.next cfg ev else .evEvicting ev sw pid bid mode)
  | .evEvicting ev sw pid bid mode =>
    go sh fib (if (sh.frames bid).state.evicting then sw.next cfg ev
      else if mode = marked then .evMarkLoad ev sw pid bid
      else if pid = 0 then sw.next cfg ev
      else .evSet ev sw pid bid)
  | .evMarkLoad ev sw pid bid => go sh fib (.evMarkCas ev sw pid bid (sh.frames bid).state)
  | .evMarkCas ev sw _ bid word =>
    match word.clearMark with
    | none => go sh fib (sw.next cfg ev)
    | some word' =>
      go (if (sh.frames bid).state = word then sh.setState bid word' else sh) fib (sw.next cfg ev)
  | .evSet ev sw pid bid =>
    go (sh.setState bid { (sh.frames bid).state with evicting := true }) fib (.evDirty ev sw pid bid)
  | .evDirty ev sw pid bid => evDirty cfg sh fib ev sw pid bid
  | .evClean ev sw _ bid => evClean cfg sh fib ev sw bid
  | .evPosStore ev sw pos =>
    go { sh with sweepPos := Function.update sh.sweepPos sw.ownerIdx pos } fib (.evUnreserve ev)
  | .evUnreserve ev => evUnreserve sh fib ev
  | .evIssue ev todo pending => evIssue sh fib ev todo pending
  | .evAwait ev pending => evAwait sh fib ev pending choice
  | .evNowPid ev phase bid rest => go sh fib (.evErase ev phase bid (sh.frames bid).pid rest)
  | .evErase ev phase bid pid rest => evErase cfg sh f fib ev phase bid pid rest
  | .preEvicting ev phase bid pid rest =>
    go sh fib (if (sh.frames bid).state.evicting then .preMode ev phase bid pid rest
      else .preAnswer ev phase bid pid rest false)
  | .preMode ev phase bid pid rest =>
    go sh fib (if (sh.frames bid).state.free then .preDirty ev phase bid pid rest
      else .preAnswer ev phase bid pid rest false)
  | .preDirty ev phase bid pid rest =>
    go sh fib (if (sh.frames bid).state.dirty then .preAnswer ev phase bid pid rest false
      else .preIo ev phase bid pid rest)
  | .preIo ev phase bid pid rest =>
    if (sh.frames bid).state.io then none else go sh fib (.preAnswer ev phase bid pid rest true)
  | .preAnswer ev phase bid pid rest answer => preAnswer cfg sh f fib ev phase bid pid rest answer
  | .evCollapse ev phase bid pid rest => evCollapse cfg sh f fib ev phase bid pid rest
  | .evPost ev phase bid _ rest => evPost sh fib ev phase bid rest
  | .evRelease ev phase pool => evRelease cfg sh fib ev phase pool
  | .evUsed ev phase => evUsed cfg sh f fib ev phase
  | .evDone ev => evDone sh fib ev

/-! ### Clients and workers -/

/-- What a client may do between two calls. -/
inductive Op where
  | fixS (pid : Nat)
  | fixX (pid : Nat) (policy : LockConflictPolicy)
  | fixSFrom (guard : Guard)
  | fixXFrom (guard : Guard) (policy : LockConflictPolicy)
  | fixO (pid : Nat)
  | validateO (guard : Guard)
  | release (guard : Guard)
  | unfix (lock : Held)
  | modify (lock : Held)
  | allocPage
  | handleFault (pid : Nat)
  | evict
  deriving DecidableEq, Repr

/-- The call of an operation by an idle fiber. Guards and locks are the client's own, and
`evict` is called by the eviction fibers, which hold neither. -/
def call (cfg : Config n) (sh : Shared n) (f : Fin n) (fib : Fiber) : Op → Option (Result n)
  | .fixS pid => go sh fib (.fixStart (fixS pid))
  | .fixX pid policy => go sh fib (.fixStart (fixX pid policy))
  | .fixSFrom guard => if guard ∈ fib.guards then go sh fib (.fixStart (fixSFrom guard)) else none
  | .fixXFrom guard policy =>
    if guard ∈ fib.guards then go sh fib (.fixStart (fixXFrom guard policy)) else none
  | .fixO pid => go sh fib (.optStart pid)
  | .validateO guard => if guard ∈ fib.guards then go sh fib (.valPid guard) else none
  | .release guard => some ⟨sh, ⟨.idle, fib.held, fib.guards.erase guard⟩, .silent⟩
  | .unfix lock =>
    if lock ∈ fib.held then
      some ⟨sh, ⟨match lock.kind with
        | .shared => .unfixSMode lock
        | .exclusive => .unfixXMode lock, fib.held.erase lock, fib.guards⟩, .silent⟩
    else none
  | .modify lock =>
    if lock ∈ fib.held ∧ lock.kind = .exclusive then finish (sh.modify lock.bid) fib .silent else none
  | .allocPage => go sh fib (.acquire .alloc)
  | .handleFault pid => go sh fib (.faultLookup pid .client)
  | .evict =>
    if cfg.evictor f ∧ fib.held = [] ∧ fib.guards = [] then go sh fib .evLoadUsed else none

inductive Act (n : Nat) where
  | call (f : Fin n) (op : Op)
  | step (f : Fin n) (choice : Nat)
  | initWorker (worker : Nat)
  | shutdownWorker (worker : Nat)
  deriving DecidableEq, Repr

def Pc.isIdle : Pc → Bool
  | .idle => true
  | _ => false

def State.put (s : State n) (f : Fin n) (r : Result n) : State n × Out :=
  (⟨r.shared, Function.update s.fibers f r.fiber⟩, r.out)

def initWorker (sh : Shared n) (worker : Nat) : Shared n :=
  { sh.setLocal worker ⟨[], 0, true⟩ with activeWorkers := sh.activeWorkers + 1 }

/-- `shutdown_worker`: the delta is flushed, the local free list goes with the worker. -/
def shutdownWorker (sh : Shared n) (worker : Nat) : Shared n :=
  { sh.setLocal worker ⟨[], 0, false⟩ with
    activeWorkers := sh.activeWorkers - 1
    used := u64 (sh.used + (sh.locals worker).delta) }

def exec (cfg : Config n) (s : State n) : Act n → Option (State n × Out)
  | .call f op =>
    if (s.fibers f).pc.isIdle ∧ (s.shared.locals (cfg.wid f)).active then
      (call cfg s.shared f (s.fibers f) op).map (s.put f)
    else none
  | .step f choice => (stepFiber cfg s.shared f (s.fibers f) choice).map (s.put f)
  | .initWorker worker =>
    if worker < cfg.workers ∧ (s.shared.locals worker).active = false then
      some ({ s with shared := initWorker s.shared worker }, .silent)
    else none
  | .shutdownWorker worker =>
    if worker < cfg.workers ∧ (s.shared.locals worker).active ∧ ∀ f, cfg.wid f = worker →
        (s.fibers f).pc.isIdle ∧ (s.fibers f).held = [] ∧ (s.fibers f).guards = [] then
      some ({ s with shared := shutdownWorker s.shared worker }, .silent)
    else none

/-! ### The initial state -/

/-- After `init`: page 0 sits in frame 0, marked and dirty, all other frames are free, and
no worker has started. -/
def initial (cfg : Config n) : State n where
  shared :=
    { table := ⟨setSlot (fun _ => Slot.emptySlot) (cfg.table.slotIdx 0) (Slot.word 0 0), fun _ => .idle⟩
      frames := fun bid =>
        if bid = 0 then ⟨{ Word.ofMode marked with dirty := true }, 0, 1, 0⟩
        else ⟨Word.ofMode unlocked, 2 ^ 64 - 1, 0, 0⟩
      pools := fun idx => (List.range cfg.pageCount).filter fun bid =>
        bid ≠ 0 ∧ cfg.freePoolIndexForBid bid = idx
      locals := fun _ => ⟨[], 0, false⟩
      used := 1
      inflight := 0
      allocCount := 1
      activeWorkers := 0
      sweepPos := fun _ => 0
      sections := fun _ => 0 }
  fibers := fun _ => ⟨.idle, [], []⟩

def system (cfg : Config n) : System (State n) (Act n × Out) :=
  System.ofStep (fun s => s = initial cfg) (exec cfg)

end UringDb.BufferMgr
