import UringDb.Lib.Sum
import UringDb.PageTable.Calls
import UringDb.BufferMgr.Step

/-!
# Invariant of the multi-threaded buffer manager

A frame is in at most one place: mapped by one slot, in one free list, or in the hands
of one fiber. Between the compare-and-swap that erases its entry and the clearing of its
EvictingBit a frame is *committed*: unmapped, but still protected by the bit. What a fiber
knows about a frame it has looked up is that the frame is mapped to its page or committed;
what it knows through a captured version holds only while the version is current.

All of this rests on a side condition on the evictor's two critical steps (`Sound`).
-/
namespace UringDb.BufferMgr

open PageState PageTable

variable {n : Nat}

/-! ### What a program counter stands for -/

/-- The guard is on the frame and its version is the frame's. -/
def Guard.current (guard : Guard) (version bid : Nat) : Bool :=
  guard.bid == bid && guard.word.version == version

def Fix.guard (fx : Fix) : Option Guard :=
  match fx.form with
  | .byPid _ => none
  | .handOver guard _ => some guard

namespace Pc

/-- The guard the running call works on. -/
def guard : Pc → Option Guard
  | .fixStart fx | .fixPid fx _ | .fixLoad fx _ | .fixPidAgain fx .. | .fixIo fx ..
  | .fixEvicting fx .. | .fixLock fx .. => fx.guard
  | .valPid guard | .valIo guard | .valEvicting guard | .valLoad guard => some guard
  | _ => none

/-- Page and frame whose entry `evict` has erased, up to `postcommit`. -/
def committed : Pc → Option (Nat × Nat)
  | .evCollapse _ _ bid pid _ | .evPost _ _ bid pid _ => some (pid, bid)
  | _ => none

/-- The frames in the hands of the fiber: in no list and in no slot. -/
def owned (cfg : Config n) : Pc → List Nat
  | .allocAccum bid | .allocPid bid | .faultAccum _ bid _ | .rebindLoad _ bid | .rebindStore _ bid _
  | .setFlag _ bid | .setFrame _ bid | .insert _ bid | .loseLoad _ bid _ | .loseStore _ bid ..
  | .loseAccum _ bid _ | .loseRelease _ bid _ => [bid]
  | .evOwners ev | .evSize ev .. | .evPos ev .. | .evScan ev _ | .evPid ev .. | .evMode ev ..
  | .evIo ev .. | .evEvicting ev .. | .evMarkLoad ev .. | .evMarkCas ev .. | .evSet ev ..
  | .evDirty ev .. | .evClean ev .. | .evPosStore ev .. | .evUnreserve ev | .evIssue ev ..
  | .evAwait ev _ | .evNowPid ev .. | .evErase ev .. | .preEvicting ev .. | .preMode ev ..
  | .preDirty ev .. | .preIo ev .. | .preAnswer ev .. => ev.freed
  | .evCollapse ev _ bid .. | .evPost ev _ bid .. => bid :: ev.freed
  | .evRelease ev _ pool => ev.freed.filter fun bid => pool ≤ cfg.freePoolIndexForBid bid
  | _ => []

/-- The lock on a mapped frame that the running call holds. -/
def locks : Pc → List Held
  | .fixPidLocked fx bid | .undoLoad fx bid | .undoStore fx bid _ => [fx.lock bid]
  | .unfixSMode lock | .unfixSLoad lock | .unfixSCas lock _ | .unfixXMode lock | .unfixXDirty lock
  | .unfixXLoad lock | .unfixXStore lock _ => [lock]
  | .memset pid bid | .read pid bid _ | .readIo pid bid _ | .readLoad pid bid _
  | .readStore pid bid .. => [⟨.exclusive, pid, bid⟩]
  | _ => []

/-- The frame the fiber has locked exclusively before mapping it. -/
def setsUp : Pc → Option Nat
  | .setFlag _ bid | .setFrame _ bid | .insert _ bid | .loseLoad _ bid _
  | .loseStore _ bid .. => some bid
  | _ => none

/-- The fiber is inside `evict`. -/
def inEvict (pc : Pc) : Bool :=
  match pc.part with
  | .sweeping | .erasing => true
  | _ => false

/-- The running call got frame `bid` from a lookup or a sweep and may still lock, mark or
claim it; `version` is the frame's current one. -/
def refersTo (version bid : Nat) : Pc → Bool
  | .fixPid fx b | .fixLoad fx b => b == bid && fx.guard.isNone
  | .fixPidAgain _ b word | .fixIo _ b word | .fixEvicting _ b word
  | .fixLock _ b word => b == bid && word.version == version
  | .optPid _ b | .optIo _ b | .optEvicting _ b | .optLoad _ b | .optMark _ b _ => b == bid
  | .optPidAgain guard => guard.current version bid
  | .evPid _ _ _ b | .evMode _ _ _ b | .evIo _ _ _ b _ | .evEvicting _ _ _ b _ | .evMarkLoad _ _ _ b
  | .evMarkCas _ _ _ b _ | .evSet _ _ _ b | .evDirty _ _ _ b | .evClean _ _ _ b => b == bid
  | _ => false

end Pc

theorem part_ne_idle {cfg : Config n} {sh : Shared n} {f : Fin n} {fib : Fiber} {choice : Nat}
    {r : Result n} (stepped : stepFiber cfg sh f fib choice = some r) : fib.pc.part ≠ .idle := by
  intro part
  cases at_ : fib.pc <;> rw [at_] at part <;> try cases part
  simp only [stepFiber, at_] at stepped
  cases stepped

namespace Fiber

def locks (fib : Fiber) : List Held := fib.pc.locks ++ fib.held

def exclusives (fib : Fiber) (bid : Nat) : Nat :=
  fib.locks.countP (fun lock => lock.kind == .exclusive && lock.bid == bid) +
    if fib.pc.setsUp = some bid then 1 else 0

def shareds (fib : Fiber) (bid : Nat) : Nat :=
  fib.locks.countP fun lock => lock.kind == .shared && lock.bid == bid

/-- The fiber holds the frame from a lookup, as a lock or by a guard with the frame's
current version. -/
def refersTo (fib : Fiber) (version bid : Nat) : Bool :=
  fib.pc.refersTo version bid || fib.locks.any (fun lock => lock.bid == bid) ||
    fib.guards.any fun guard => guard.current version bid

end Fiber

/-! ### Assertions -/

section

variable (cfg : Config n)

/-- The page table maps `p` to `b`. -/
def Mapped (s : State n) (p b : Nat) : Prop :=
  ∃ i < cfg.table.slotCount, Entry s.shared.table.slots i p b

/-- The entry `p -> b` has been erased and its EvictingBit not yet cleared. -/
def Committed (s : State n) (p b : Nat) : Prop :=
  ∃ f, (s.fibers f).pc.committed = some (p, b)

variable (s : State n)

def word (b : Nat) : Word := (s.shared.frames b).state

def version (b : Nat) : Nat := (word s b).version

/-- What a lookup tells: the frame is the page's or on its way out. -/
def Ref (p b : Nat) : Prop :=
  (s.shared.frames b).pid = p ∧ (Mapped cfg s p b ∨ Committed s p b)

/-- What the load of a word tells later on. Once `evicting()` was seen clear, a word with the
bit set is out of date. -/
def Seen (p b : Nat) (w : Word) (checked : Bool) : Prop :=
  w.version ≤ version s b ∧ (w.version = version s b →
    Ref cfg s p b ∧ (w.evicting = true → checked = false ∧ (word s b).evicting = true))

/-- What a captured version tells: as long as it is current and the page is mapped, no
exclusive section has ended. -/
def GuardOk (g : Guard) : Prop :=
  g.word.version ≤ version s g.bid ∧ (g.word.version = version s g.bid →
    (s.shared.frames g.bid).pid = g.pid ∧
      ((Mapped cfg s g.pid g.bid ∧ s.shared.sections g.pid = g.stamp) ∨ Committed s g.pid g.bid))

/-- A fix that was handed a guard is for the guard's page. -/
def Fix.Wf (fx : Fix) : Prop := ∀ g ∈ fx.guard, g.pid = fx.pid

/-- The frame a fix is about to examine. -/
def Fix.Target (fx : Fix) (b : Nat) : Prop :=
  match fx.form with
  | .byPid _ => Ref cfg s fx.pid b
  | .handOver g _ => g.bid = b

/-- The assertion at each program counter. A page-id mismatch after locking cannot happen:
a locked frame is mapped. -/
def PcOk : Pc → Prop
  | .fixStart fx => fx.Wf
  | .fixLookup fx => fx.guard = none
  | .fixPid fx b | .fixLoad fx b => fx.Wf ∧ fx.Target cfg s b
  | .fixPidAgain fx b w | .fixIo fx b w | .fixEvicting fx b w => fx.Wf ∧ Seen cfg s fx.pid b w false
  | .fixLock fx b w => fx.Wf ∧ Seen cfg s fx.pid b w true
  | .undoLoad .. | .undoStore .. => False
  | .optPid p b | .optIo p b | .optEvicting p b | .optLoad p b => Ref cfg s p b
  | .optMark p b w => Ref cfg s p b ∧ w.mode = unlocked
  | .optPidAgain g => GuardOk cfg s g
  | .unfixSMode lock | .unfixSLoad lock | .unfixSCas lock _ => lock.kind = .shared
  | .unfixXMode lock | .unfixXDirty lock | .unfixXLoad lock => lock.kind = .exclusive
  | .unfixXStore lock w => lock.kind = .exclusive ∧ w.version = version s lock.bid
  | .rebindStore _ b w => w.version = version s b
  | .insert setup b => (s.shared.frames b).pid = setup.pid
  | .readStore _ b _ w | .loseStore _ b _ w => w.version = version s b
  | .evPid _ _ p b | .evMode _ _ p b | .evIo _ _ p b _ | .evEvicting _ _ p b _ | .evMarkLoad _ _ p b
  | .evMarkCas _ _ p b _ | .evSet _ _ p b | .evDirty _ _ p b | .evClean _ _ p b => Ref cfg s p b
  | .evCollapse _ _ b p _ =>
    (s.shared.frames b).pid = p ∧ (word s b).evicting = true ∧ (word s b).free = true
  | .evPost _ _ b p _ =>
    (s.shared.frames b).pid = p ∧ (word s b).evicting = true ∧ (word s b).free = true
  | _ => True

/-- The page-table call a fiber is in the middle of is the one its program counter waits for. -/
def Agree : Pc → PageTable.Pc → Prop
  | .fixLookup fx, t => t.canCall = true ∨ ∃ d, t = .find fx.pid d
  | .optLookup p, t | .faultLookup p _, t
  | .loseLookup p _, t => t.canCall = true ∨ ∃ d, t = .find p d
  | .insert setup b, t => t.canCall = true ∨ t.inserts setup.pid b
  | .evErase _ _ b p _, t => t.canCall = true ∨ (∃ d, t = .eraseIf p d) ∨
      ∃ i raw, t = .eraseIfCas p i raw ∧ Slot.bid raw = b
  | .preEvicting _ _ b p _, t | .preMode _ _ b p _, t | .preDirty _ _ b p _, t
  | .preIo _ _ b p _, t => ∃ i raw, t = .precheck p i raw ∧ Slot.bid raw = b
  | .preAnswer _ _ b p _ answer, t =>
    ∃ i raw, t = .precheck p i raw ∧ (answer = true → Slot.bid raw = b)
  | .evCollapse _ _ _ p _, t => t.collapses (.eraseIf p)
  | _, t => t.canCall = true

structure FiberOk (f : Fin n) : Prop where
  pc : PcOk cfg s (s.fibers f).pc
  agree : Agree (s.fibers f).pc (s.shared.table.pcs f)
  handed : ∀ g ∈ (s.fibers f).pc.guard, g ∈ (s.fibers f).guards
  alone : (s.fibers f).pc.inEvict = true → (s.fibers f).guards = []
  guards : ∀ g ∈ (s.fibers f).guards, GuardOk cfg s g
  locks : ∀ lock ∈ (s.fibers f).locks, Mapped cfg s lock.pid lock.bid

def exclusives (b : Nat) : Nat := ∑ f, (s.fibers f).exclusives b

def shareds (b : Nat) : Nat := ∑ f, (s.fibers f).shareds b

/-- The mode counts the locks. -/
def LockOk (b : Nat) : Prop :=
  ((word s b).mode = locked ∧ exclusives s b = 1 ∧ shareds s b = 0) ∨
  ((word s b).mode = marked ∧ exclusives s b = 0 ∧ shareds s b = 0) ∨
  ((word s b).mode ≤ maxShared ∧ exclusives s b = 0 ∧ shareds s b = (word s b).mode)

/-- The number of slots that map to `b`. -/
def slotsOf (sh : Shared n) (b : Nat) : Nat :=
  ((Finset.range cfg.table.slotCount).filter fun i =>
    Slot.isLive (sh.table.slots i) = true ∧ Slot.bid (sh.table.slots i) = b).card

/-- The number of times `b` is in a shared pool or a local free list. -/
def freeCount (sh : Shared n) (b : Nat) : Nat :=
  (∑ k ∈ Finset.range cfg.poolCount, (sh.pools k).count b) +
    ∑ w ∈ Finset.range cfg.workers, (sh.locals w).free.count b

def ownedCount (b : Nat) : Nat := ∑ f, ((s.fibers f).pc.owned cfg).count b

/-- How many places frame `b` is in. -/
def places (b : Nat) : Nat := slotsOf cfg s.shared b + freeCount cfg s.shared b + ownedCount cfg s b

structure Inv : Prop where
  table : PageTable.Inv cfg.table s.shared.table
  mapped : ∀ p b, Mapped cfg s p b → (s.shared.frames b).pid = p
  once : ∀ b, places cfg s b ≤ 1
  locks : ∀ b, LockOk s b
  fibers : ∀ f, FiberOk cfg s f

/-! ### The side condition -/

/-- What is asked of the evictor's two critical steps. When `erase_if` commits, what its
precheck saw still holds: the EvictingBit is set and the frame is not locked. When
`postcommit` clears the EvictingBit, no other fiber holds the frame. -/
def Critical (f : Fin n) : Pc → Prop
  | .evErase _ _ b _ _ =>
    (s.shared.table.pcs f).tombstones s.shared.table.slots ≠ none →
      (word s b).evicting = true ∧ (word s b).free = true
  | .evPost _ _ b _ _ => ∀ u, u ≠ f → (s.fibers u).refersTo (version s b) b = false
  | _ => True

instance (f : Fin n) (pc : Pc) : Decidable (Critical s f pc) := by
  cases pc
  case evErase => exact inferInstanceAs (Decidable (_ → _ ∧ _))
  case evPost => exact inferInstanceAs (Decidable (∀ u, u ≠ f → _ = false))
  all_goals exact inferInstanceAs (Decidable True)

/-- What is asked of a step: a page-table step is undisturbed, and `Critical`. -/
def Sound : Act n → Prop
  | .step f _ =>
    (∀ answer, Undisturbed cfg.table s.shared.table (.step f answer)) ∧
      Critical s f (s.fibers f).pc
  | _ => True

instance (act : Act n) : Decidable (Sound cfg s act) :=
  match act with
  | .step f _ =>
    inferInstanceAs (Decidable ((∀ answer, Undisturbed cfg.table s.shared.table (.step f answer)) ∧
      Critical s f (s.fibers f).pc))
  | .call _ _ => isTrue trivial
  | .initWorker _ => isTrue trivial
  | .shutdownWorker _ => isTrue trivial

end

end UringDb.BufferMgr
