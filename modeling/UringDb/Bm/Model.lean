import UringDb.Lib.Run
import UringDb.RobinHood.Values

/-!
# The single-threaded buffer manager

`BufferManager` of `buffer_mgr/bm.cpp` on the fibers of `buffer_mgr/kuring.hpp`. One fiber runs at
a time and keeps running until it yields or parks. A client makes any calls; the evictor repeats
the body of its `SleepingFiber`. A call that suspends is cut there: the rest of it is a step of its
own. A failed `ensure` or a null pointer ends the program. The frame an `Op` is waiting for is
known by its fiber, and the linked list of a frame's `Op`s is a list of fibers.
-/
namespace UringDb.Bm

open RobinHood

/-! ### Tagged buffer ids -/

/-- The flags of `BufTagged`, below the buffer id. -/
inductive Flag where
  | inUse
  | dirty
  | evict
  | ioLock
  | mark
  deriving DecidableEq, Repr

def Flag.position : Flag → Nat
  | .inUse => 0
  | .dirty => 1
  | .evict => 2
  | .ioLock => 3
  | .mark => 4

structure BufTagged where
  v : BitVec 64
  deriving DecidableEq

namespace BufTagged

instance inhabited : Inhabited BufTagged := ⟨⟨0⟩⟩

def kShift : Nat := 5

def kFlagsMask : BitVec 64 := 31

def ofBid (bid : Nat) : BufTagged := ⟨BitVec.ofNat 64 bid <<< kShift⟩

def id (b : BufTagged) : Nat := ((b.v &&& ~~~kFlagsMask) >>> kShift).toNat

def flag (b : BufTagged) (f : Flag) : Bool := b.v &&& BitVec.twoPow 64 f.position != 0

def setFlag (b : BufTagged) (f : Flag) (value : Bool) : BufTagged :=
  ⟨if value then b.v ||| BitVec.twoPow 64 f.position
    else b.v &&& ~~~BitVec.twoPow 64 f.position⟩

@[simp] def inUse (b : BufTagged) : Bool := b.flag .inUse

@[simp] def dirty (b : BufTagged) : Bool := b.flag .dirty

@[simp] def evicting (b : BufTagged) : Bool := b.flag .evict

@[simp] def ioLock (b : BufTagged) : Bool := b.flag .ioLock

@[simp] def marked (b : BufTagged) : Bool := b.flag .mark

@[simp] def setInUse (b : BufTagged) (value : Bool) : BufTagged := b.setFlag .inUse value

@[simp] def setDirty (b : BufTagged) (value : Bool) : BufTagged := b.setFlag .dirty value

@[simp] def setEvicting (b : BufTagged) (value : Bool) : BufTagged := b.setFlag .evict value

@[simp] def setIoLock (b : BufTagged) (value : Bool) : BufTagged := b.setFlag .ioLock value

@[simp] def setMarked (b : BufTagged) (value : Bool) : BufTagged := b.setFlag .mark value

theorem flag_eq (b : BufTagged) (f : Flag) : b.flag f = b.v.getLsbD f.position := by
  have small : f.position < 64 := by cases f <;> decide
  unfold flag
  rw [BitVec.and_twoPow]
  split
  next set =>
    rw [set]
    cases f <;> rfl
  next clear =>
    rw [Bool.eq_false_of_not_eq_true clear]
    rfl

@[simp] theorem flag_setFlag (b : BufTagged) (f g : Flag) (value : Bool) :
    (b.setFlag f value).flag g = if g = f then value else b.flag g := by
  rw [flag_eq, flag_eq]
  unfold setFlag
  cases value <;> cases f <;> cases g <;> simp [Flag.position]

theorem getLsbD_kFlagsMask (i : Nat) : kFlagsMask.getLsbD (5 + i) = false := by
  have mask : kFlagsMask = BitVec.ofNat 64 (2 ^ 5 - 1) := rfl
  rw [mask, BitVec.getLsbD_ofNat, Nat.testBit_two_pow_sub_one]
  simp

@[simp] theorem id_setFlag (b : BufTagged) (f : Flag) (value : Bool) :
    (b.setFlag f value).id = b.id := by
  unfold id setFlag
  congr 1
  apply BitVec.eq_of_getLsbD_eq
  intro i inside
  have low : f.position < 5 := by cases f <;> decide
  have apart : (BitVec.twoPow 64 f.position).getLsbD (5 + i) = false := by
    rw [BitVec.getLsbD_twoPow, Bool.and_eq_false_iff]
    exact Or.inr (decide_eq_false (by omega))
  cases value <;> simp [kShift, apart, getLsbD_kFlagsMask]

theorem id_ofBid {bid : Nat} (small : bid < 2 ^ 59) : (ofBid bid).id = bid := by
  have word : ((ofBid bid).v &&& ~~~kFlagsMask) >>> kShift = BitVec.ofNat 64 bid := by
    apply BitVec.eq_of_getLsbD_eq
    intro i inside
    have high : 59 ≤ i → bid.testBit i = false := fun above =>
      Nat.testBit_lt_two_pow (small.trans_le (Nat.pow_le_pow_right Nat.two_pos above))
    simp only [ofBid, kShift, BitVec.getLsbD_ushiftRight, BitVec.getLsbD_and, BitVec.getLsbD_not,
      getLsbD_kFlagsMask, BitVec.getLsbD_shiftLeft, BitVec.getLsbD_ofNat, Nat.add_sub_cancel_left]
    by_cases above : 59 ≤ i
    · simp [high above]
    · have fits : 5 + i < 64 := by omega
      simp [fits]
  unfold id
  rw [word, BitVec.toNat_ofNat, Nat.mod_eq_of_lt (small.trans (by decide))]

@[simp] theorem flag_ofBid (bid : Nat) (f : Flag) : (ofBid bid).flag f = false := by
  rw [flag_eq]
  unfold ofBid
  cases f <;> simp [Flag.position, kShift]

end BufTagged

/-! ### State -/

/-- What a run of the program is configured with. -/
structure Config where
  pageCount : Nat
  positive : 0 < pageCount
  /-- `page_count` is a 64-bit number of bytes divided by the page size. -/
  fits : pageCount ≤ 2 ^ 52
  evictBatch : Nat
  /-- The comparison of the length of the free list with `page_count * free_target`. -/
  atTarget : Nat → Bool
  /-- The binary logarithm of the capacity that `page_table_factor` gives. -/
  tableBits : Nat
  syncVariant : Bool

inductive Fiber (n : Nat) where
  | evictor
  | client (c : Fin n)
  deriving DecidableEq, Repr

inductive Status where
  | ready
  | running
  | parked
  deriving DecidableEq, Repr

/-- Where a client is: in its own code, in the `io` of `handleFault`, or in `handleWait`. -/
inductive Pc where
  | code
  | reading (pid : UInt64) (bid : Nat)
  | waiting
  deriving DecidableEq, Repr

/-- Where the evictor is: before `register_self`, at the head of its loop, in the `io_batch` of
`evict`, or in `park`. -/
inductive EvictorPc where
  | start
  | loop
  | writing
  | asleep
  deriving DecidableEq, Repr

structure BufferFrame (n : Nat) where
  pid : UInt64
  /-- The fibers of the linked `Op`s, first the one that reads the page. -/
  waiting : List (Fin n)
  deriving DecidableEq, Repr

inductive RestartCtx where
  | pageFault (pid : UInt64)
  | restart (bid : Nat)
  | alloc
  deriving DecidableEq, Repr

structure State (n : Nat) where
  table : RHBSU64Map BufTagged
  /-- The hand of the clock, `sweep_` of the table. -/
  sweep : Nat
  frames : Nat → BufferFrame n
  /-- The back of the vector first. -/
  freeList : List Nat
  physUsedCount : UInt64
  allocCount : UInt64
  restartCtx : RestartCtx
  toEvict : List Nat
  toWrite : List Nat
  /-- `running` of the `SleepingFiber`. -/
  awake : Bool
  current : Option (Fiber n)
  status : Fiber n → Status
  clients : Fin n → Pc
  evictor : EvictorPc

/-- The `ensure`s of the buffer manager. -/
inductive Check where
  | inserted
  | initiator
  | hasWaiting
  | ioLocked
  | notInUse
  | inUse
  | framePid
  | notMetadata
  | evicting
  | notIoLocked
  | deleted
  deriving DecidableEq, Repr

/-- Why there is no next state: the step is not possible, an `ensure` fails, a null pointer is
used, or a call does not return. -/
inductive Stop where
  | disabled
  | failed (check : Check)
  | null
  | hangs
  deriving DecidableEq, Repr

def ensure (holds : Bool) (check : Check) : Except Stop Unit :=
  if holds then .ok () else .error (.failed check)

namespace State

variable {n : Nat} (s : State n)

/-! ### Fibers -/

def wake (f : Fiber n) : State n :=
  if s.status f = .parked then { s with status := Function.update s.status f .ready } else s

def wakeAll : List (Fin n) → State n → State n
  | [], s => s
  | c :: rest, s => wakeAll rest (s.wake (.client c))

def yield (f : Fiber n) : State n :=
  { s with status := Function.update s.status f .ready, current := none }

def park (f : Fiber n) : State n :=
  { s with status := Function.update s.status f .parked, current := none }

def wakeup : State n :=
  if s.awake then s else { s with awake := true }.wake .evictor

def goto (c : Fin n) (pc : Pc) : State n :=
  { s with clients := Function.update s.clients c pc }

/-! ### Page table and frames -/

def buf (i : Nat) : BufTagged := (s.table.entries i).val

/-- Write through a pointer that `find` has returned. -/
def setBuf (i : Nat) (b : BufTagged) : State n := { s with table := s.table.write i b }

/-- `page_table->find(pid)` where the pointer is used without a test. -/
def findPage (pid : UInt64) : Except Stop Nat :=
  match s.table.slotOf RHBSU64Map.hash pid with
  | some i => .ok i
  | none => .error .null

/-- `page_table->insert(pid, buf)` and `ensure(inserted)`. -/
def insertPage (pid : UInt64) (b : BufTagged) : Except Stop (State n) :=
  match s.table.insert RHBSU64Map.hash pid b with
  | some (.inserted, table) => .ok { s with table := table }
  | some _ => .error (.failed .inserted)
  | none => .error .hangs

def setFrame (bid : Nat) (frame : BufferFrame n) : State n :=
  { s with frames := Function.update s.frames bid frame }

def takeFrame (rest : List Nat) : State n :=
  { s with freeList := rest, physUsedCount := s.physUsedCount + 1 }

/-! ### Calls of clients -/

def ensureFreePages (cfg : Config) : State n :=
  if cfg.atTarget s.freeList.length then s.wakeup else s

def allocPage (cfg : Config) : Except Stop (State n) :=
  let s := s.ensureFreePages cfg
  match s.freeList with
  | [] => .ok { s with restartCtx := .alloc }
  | bid :: rest => do
    let pid := s.allocCount
    let s := { s.takeFrame rest with allocCount := s.allocCount + 1 }
    let s ← s.insertPage pid
      ((((BufTagged.ofBid bid).setDirty true).setInUse true).setMarked true)
    return s.setFrame bid ⟨pid, []⟩

/-- The end of `handleFault`. -/
def finishRead (pid : UInt64) : Except Stop (State n) := do
  let i ← s.findPage pid
  return s.setBuf i ((s.buf i).setIoLock false)

/-- `handleFault` up to its `io`. -/
def handleFault (cfg : Config) (c : Fin n) (pid : UInt64) : Except Stop (State n) :=
  let s := s.ensureFreePages cfg
  match s.freeList with
  | [] => .ok (s.yield (.client c))
  | bid :: rest => do
    let s := s.takeFrame rest
    let s ← s.insertPage pid (((BufTagged.ofBid bid).setIoLock true).setMarked true)
    if cfg.syncVariant then
      (s.setFrame bid ⟨pid, []⟩).finishRead pid
    else
      return ((s.setFrame bid ⟨pid, [c]⟩).goto c (.reading pid bid)).park (.client c)

/-- `handleFault` from the return of its `io`: the waiting fibers are woken. -/
def finishFault (c : Fin n) (pid : UInt64) (bid : Nat) : Except Stop (State n) := do
  let waiting := (s.frames bid).waiting
  ensure (waiting.head? == some c) .initiator
  let s := (wakeAll waiting.tail s).setFrame bid ⟨(s.frames bid).pid, []⟩
  let s ← s.finishRead pid
  return s.goto c .code

def handleWait (c : Fin n) (bid : Nat) : Except Stop (State n) :=
  match (s.frames bid).waiting with
  | [] => .error (.failed .hasWaiting)
  | first :: others => do
    let pid := (s.frames bid).pid
    let s := s.setFrame bid ⟨pid, first :: c :: others⟩
    let i ← s.findPage pid
    ensure (s.buf i).ioLock .ioLocked
    return (s.goto c .waiting).park (.client c)

def handleRestart (cfg : Config) (c : Fin n) : Except Stop (State n) :=
  match s.restartCtx with
  | .pageFault pid => s.handleFault cfg c pid
  | .restart bid => s.handleWait c bid
  | .alloc => .ok (s.yield (.client c))

/-- What `fixS` and `fixX` have in common; `touch` are the flags they set. -/
def fix (pid : UInt64) (touch : BufTagged → BufTagged) : Except Stop (State n) :=
  match s.table.slotOf RHBSU64Map.hash pid with
  | none => .ok { s with restartCtx := .pageFault pid }
  | some i =>
    if (s.buf i).ioLock then .ok { s with restartCtx := .restart (s.buf i).id }
    else do
      ensure (!(s.buf i).inUse) .notInUse
      return s.setBuf i (touch (s.buf i))

def fixS (pid : UInt64) : Except Stop (State n) :=
  s.fix pid fun b => (b.setInUse true).setMarked true

def fixX (pid : UInt64) : Except Stop (State n) :=
  s.fix pid fun b => ((b.setInUse true).setMarked true).setDirty true

def unfixS (pid : UInt64) : Except Stop (State n) := do
  let i ← s.findPage pid
  ensure (s.buf i).inUse .inUse
  return s.setBuf i (((s.buf i).setInUse false).setMarked true)

def unfixX (pid : UInt64) : Except Stop (State n) := do
  let i ← s.findPage pid
  ensure (s.buf i).inUse .inUse
  let b := (((s.buf i).setInUse false).setDirty true).setMarked true
  ensure (!b.ioLock) .notIoLocked
  return s.setBuf i b

/-! ### Eviction -/

/-- What the callback of the sweep does with a page past the second chance. -/
def choose (i : Nat) : State n :=
  let b := (s.buf i).setEvicting true
  if b.dirty then { s.setBuf i (b.setDirty false) with toWrite := s.toWrite ++ [b.id] }
  else { s.setBuf i b with toEvict := s.toEvict ++ [b.id] }

/-- The callback of the sweep. -/
def visit (cfg : Config) (i : Nat) : Except Stop (State n × Bool) := do
  ensure ((s.frames (s.buf i).id).pid == (s.table.entries i).key) .framePid
  if (s.buf i).inUse then return (s, false)
  if (s.buf i).ioLock then return (s, false)
  if (s.buf i).evicting then return (s, false)
  if (s.buf i).marked then return (s.setBuf i ((s.buf i).setMarked false), false)
  ensure ((s.table.entries i).key != 0) .notMetadata
  let s := s.choose i
  return (s, s.toEvict.length + s.toWrite.length == cfg.evictBatch)

def advance : State n := { s with sweep := s.table.next s.sweep }

/-- The loop of `clock_sweep_next`, with the number of slots it may still scan. -/
def clockSweep (cfg : Config) : Nat → State n → Except Stop (State n)
  | 0, s => .ok s
  | left + 1, s =>
    if s.table.ctrl s.sweep = 0 then clockSweep cfg left s.advance
    else
      match s.advance.visit cfg s.sweep with
      | .error stop => .error stop
      | .ok (s, done) => if done then .ok s else clockSweep cfg left s

def clockSweepNext (cfg : Config) : Except Stop (State n) :=
  if s.table.sz = 0 then .ok s else clockSweep cfg s.table.n s

/-- `evictNow`, with the number of pages evicted so far. -/
def evictNow (bid count : Nat) : Except Stop (State n × Nat) := do
  let pid := (s.frames bid).pid
  let i ← s.findPage pid
  let b := s.buf i
  ensure b.evicting .evicting
  let s := s.setBuf i (b.setEvicting false)
  if b.inUse then return (s, count)
  if b.dirty then return (s, count)
  ensure (!b.ioLock) .notIoLocked
  match s.table.erase RHBSU64Map.hash pid with
  | some (true, table) =>
    return ({ s with table := table, freeList := bid :: s.freeList }, count + 1)
  | some (false, _) => .error (.failed .deleted)
  | none => .error .hangs

def evictAll : List Nat → State n → Nat → Except Stop (State n)
  | [], s, count => .ok { s with physUsedCount := s.physUsedCount - UInt64.ofNat count }
  | bid :: rest, s, count =>
    match s.evictNow bid count with
    | .error stop => .error stop
    | .ok (s, count) => evictAll rest s count

/-- `evict` from the end of its writes. -/
def finishEvict : Except Stop (State n) := do
  let s ← evictAll (s.toEvict ++ s.toWrite) s 0
  return { s with evictor := .loop }

/-- `evict` up to the end of its writes. -/
def evict (cfg : Config) : Except Stop (State n) := do
  let s ← { s with toEvict := [], toWrite := [] }.clockSweepNext cfg
  if s.toWrite = [] ∨ cfg.syncVariant then s.finishEvict
  else return { s with evictor := .writing }.park .evictor

end State

/-! ### Steps -/

inductive Call where
  | fixS (pid : UInt64)
  | fixX (pid : UInt64)
  | unfixS (pid : UInt64)
  | unfixX (pid : UInt64)
  | allocPage
  | handleRestart
  | yield
  deriving DecidableEq, Repr

/-- The reactor resumes a ready fiber or handles the completion of a fiber's reads and writes; the
running fiber makes a call or goes on in the one it is in. -/
inductive Act (n : Nat) where
  | resume (f : Fiber n)
  | complete (f : Fiber n)
  | call (c : Fin n) (call : Call)
  | proceed (f : Fiber n)
  deriving DecidableEq, Repr

variable {n : Nat}

def execCall (cfg : Config) (s : State n) (c : Fin n) : Call → Except Stop (State n)
  | .fixS pid => s.fixS pid
  | .fixX pid => s.fixX pid
  | .unfixS pid => s.unfixS pid
  | .unfixX pid => s.unfixX pid
  | .allocPage => s.allocPage cfg
  | .handleRestart => s.handleRestart cfg c
  | .yield => .ok (s.yield (.client c))

/-- The fiber is in an `io` or `io_batch`. -/
def State.inIo (s : State n) : Fiber n → Bool
  | .evictor => s.evictor = .writing
  | .client c => match s.clients c with
    | .reading _ _ => true
    | _ => false

def proceedClient (s : State n) (c : Fin n) : Except Stop (State n) :=
  match s.clients c with
  | .code => .error .disabled
  | .reading pid bid => s.finishFault c pid bid
  | .waiting => .ok (s.goto c .code)

/-- The evictor: the loop of the `SleepingFiber` around the lambda of `init`. -/
def proceedEvictor (cfg : Config) (s : State n) : Except Stop (State n) :=
  match s.evictor with
  | .start => .ok { s with awake := true, evictor := .loop }
  | .loop =>
    if cfg.atTarget s.freeList.length then s.evict cfg
    else .ok ({ s with awake := false, evictor := .asleep }.park .evictor)
  | .writing => s.finishEvict
  | .asleep => .ok { s with evictor := .loop }

def exec (cfg : Config) (s : State n) : Act n → Except Stop (State n)
  | .resume f =>
    if s.current = none ∧ s.status f = .ready then
      .ok { s with status := Function.update s.status f .running, current := some f }
    else .error .disabled
  | .complete f =>
    if s.current = none ∧ s.inIo f ∧ s.status f = .parked then .ok (s.wake f)
    else .error .disabled
  | .call c call =>
    if s.current = some (.client c) ∧ s.clients c = .code then execCall cfg s c call
    else .error .disabled
  | .proceed f =>
    if s.current = some f then
      match f with
      | .client c => proceedClient s c
      | .evictor => proceedEvictor cfg s
    else .error .disabled

/-- `init` before page 0 is inserted; fresh memory is zero. -/
def blank (cfg : Config) : State n where
  table := RHBSU64Map.new cfg.tableBits
  sweep := 0
  frames := fun _ => ⟨0, []⟩
  freeList := (List.range cfg.pageCount).tail
  physUsedCount := 1
  allocCount := 1
  restartCtx := .pageFault 0
  toEvict := []
  toWrite := []
  awake := false
  current := none
  status := fun _ => .ready
  clients := fun _ => .code
  evictor := .start

def init (cfg : Config) : Except Stop (State n) := do
  let s ← (blank cfg).insertPage 0 (((BufTagged.ofBid 0).setDirty true).setMarked true)
  return s.setFrame 0 ⟨0, []⟩

def system (cfg : Config) (n : Nat) : System (State n) (Act n) where
  init s := init cfg = .ok s
  step s act s' := exec cfg s act = .ok s'

end UringDb.Bm
