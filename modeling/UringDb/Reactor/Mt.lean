import UringDb.Lib.Run
import UringDb.Reactor.Base

/-!
# The multi-threaded io_uring reactor

One worker's reactor with its fibers, which may run any program over the reactor's calls: their
next call is an arbitrary action. A call is one step up to the point where the fiber leaves the
processor. `io_uring_submit` hands all queued entries to the kernel, and the kernel completes
submitted entries in any order and at any time.

The run loop never waits for completions while entries are unsubmitted and no fiber is ready,
and the counters it decides this by are exact.
-/
namespace UringDb.Reactor.Mt

/-! ### Submission queue and counters -/

/-- Prepared and submitted entries, by the `Op` of their user data, and the counters. -/
structure Queue where
  queued : List Nat
  kernel : List Nat
  outstandingIo : BitVec 64
  submittedIo : BitVec 64
  pendingIo : BitVec 64
  toSubmit : Int
  fibersSinceFirstIo : Int

namespace Queue

/-- Since a submit takes all queued entries, a second one would find none and fail. -/
def submitExact (q : Queue) (expected : Nat) : Except Fault Queue :=
  if expected = 0 then .ok q
  else if q.queued.length < expected then .error .nothingSubmitted
  else .ok { q with queued := [], kernel := q.kernel ++ q.queued }

/-- `submitted_io += pending_io; pending_io = 0; to_submit = 0`. -/
def settle (q : Queue) : Queue :=
  { q with submittedIo := q.submittedIo + q.pendingIo, pendingIo := 0, toSubmit := 0 }

def submitted (q : Queue) : Queue := { q.settle with fibersSinceFirstIo := 0 }

def submitPending (q : Queue) : Except Fault Queue := do
  let q ← q.submitExact q.toSubmit.toNat
  .ok q.submitted

def flushPendingBeforePark (q : Queue) : Except Fault Queue :=
  if q.toSubmit = 0 then .ok q else q.submitPending

/-- `if (to_submit > 0) fibers_since_first_io++`. -/
def countFiber (q : Queue) : Queue :=
  if 0 < q.toSubmit then { q with fibersSinceFirstIo := q.fibersSinceFirstIo + 1 } else q

def checkSubmit (total : Int) (always : Bool) (q : Queue) (lucky : Bool) : Except Fault Queue :=
  if q.toSubmit = 0 then .ok q
  else if always then do
    let q ← q.submitExact q.toSubmit.toNat
    -- this branch leaves `fibers_since_first_io` as it is
    .ok q.settle
  else do
    let q := q.countFiber
    let submit ← doSubmit total q.fibersSinceFirstIo q.toSubmit lucky
    if submit then q.submitPending else .ok q

/-- `k` entries for `op` are prepared, and `cqe_left` completions are expected for it. -/
def prepare (q : Queue) (op k : Nat) (cqeLeft : Int) : Queue :=
  { q with
    queued := q.queued ++ List.replicate k op
    outstandingIo := q.outstandingIo + BitVec.ofInt 64 cqeLeft
    pendingIo := q.pendingIo + BitVec.ofInt 64 cqeLeft }

def io (total : Int) (always : Bool) (q : Queue) (op : Nat) (cqeLeft : Int) (lucky : Bool) :
    Except Fault Queue :=
  let q := q.prepare op 1 cqeLeft
  { q with toSubmit := q.toSubmit + 1 }.checkSubmit total always lucky

def ioBatch (q : Queue) (k op : Nat) : Except Fault Queue :=
  if k = 0 then .error .emptyBatch
  else do
    let q ← (q.prepare op k k).submitExact k
    .ok q.submitted

def consume (q : Queue) (cqes : List Nat) : Queue :=
  { q with
    kernel := q.kernel.diff cqes
    submittedIo := q.submittedIo - BitVec.ofNat 64 cqes.length
    outstandingIo := q.outstandingIo - BitVec.ofNat 64 cqes.length }

end Queue

/-! ### The reactor -/

/-- The part of `Op` that the reactor reads back. -/
structure Op (n : Nat) where
  ctx : Option (Fin n)
  cqeLeft : Int

/-- Where `run` is in its loop. -/
inductive Phase where
  /-- At the head, where inbound wake-ups are drained. -/
  | top
  /-- In the loop over the fibers, with that many left to pop. -/
  | fibers (left : Nat)
  /-- Before `drain_cqe`, after the flush decision. -/
  | drain
  /-- After `drain_cqe`: wake-ups are drained again and the idle hook runs. -/
  | after
  | failed (fault : Fault)
  deriving DecidableEq, Repr

structure State (n : Nat) where
  sched : Sched n
  pendingWake : Fin n → Bool
  phase : Phase
  ops : Nat → Op n
  queue : Queue

/-- What a running fiber may do. -/
inductive Call (n : Nat) where
  /-- An `Op` object is constructed. -/
  | newOp (op : Nat)
  | io (op : Nat) (lucky : Bool)
  | ioBatch (k op : Nat)
  | checkSubmit (lucky : Bool)
  | yield
  | park
  | wake (f : Fin n)
  /-- The fiber's function returns. -/
  | finish

inductive Act (n : Nat) where
  /-- The wake-drain hook wakes a fiber. -/
  | wakeHook (f : Fin n)
  | begin
  | resume
  | call (c : Call n)
  | flush
  /-- `drain_cqe` finds these completions. -/
  | drain (cqes : List Nat)
  | loop

section

variable {n : Nat}

def wake (s : State n) (f : Fin n) : Except Fault (State n) :=
  match s.sched.state f with
  | .running => .ok { s with pendingWake := Function.update s.pendingWake f true }
  | _ => do
    let sched ← s.sched.wake f
    .ok { s with sched := sched }

/-- A wake-up that came meanwhile keeps the fiber running. -/
def park (s : State n) (f : Fin n) : State n :=
  if s.pendingWake f then { s with pendingWake := Function.update s.pendingWake f false }
  else { s with sched := s.sched.park f }

/-- The effect of `c`, called by the running fiber `f`. -/
def call (total : Int) (always : Bool) (s : State n) (f : Fin n) (c : Call n) :
    Except Fault (State n) :=
  match c with
  | .newOp op => .ok { s with ops := Function.update s.ops op ⟨none, 1⟩ }
  | .io op lucky => do
    let cqeLeft := (s.ops op).cqeLeft
    let queue ← s.queue.io total always op cqeLeft lucky
    .ok (park { s with queue := queue, ops := Function.update s.ops op ⟨some f, cqeLeft⟩ } f)
  | .ioBatch k op => do
    let queue ← s.queue.ioBatch k op
    .ok (park { s with queue := queue, ops := Function.update s.ops op ⟨some f, k⟩ } f)
  | .checkSubmit lucky => do
    let queue ← s.queue.checkSubmit total always lucky
    .ok { s with queue := queue }
  | .yield => do
    let sched ← s.sched.yield f
    .ok { s with sched := sched }
  | .park => .ok (park s f)
  | .wake g => wake s g
  | .finish => .ok { s with sched := s.sched.finish f }

/-- One completion: the last one of an operation wakes the fiber. -/
def complete (s : State n) (op : Nat) : Except Fault (State n) :=
  match (s.ops op).ctx with
  | none => .ok s
  | some f =>
    let left := (s.ops op).cqeLeft - 1
    let s := { s with ops := Function.update s.ops op ⟨some f, left⟩ }
    if left = 0 then wake s f else .ok s

def drainCqe (s : State n) (cqes : List Nat) : Except Fault (State n) :=
  if s.queue.submittedIo = 0 then .ok s
  else do
    let s ← cqes.foldlM complete s
    .ok { s with queue := s.queue.consume cqes }

/-- The decision of `run` before it drains. -/
def flush (s : State n) : Except Fault (State n) :=
  if s.queue.submittedIo = 0 ∧ s.queue.pendingIo ≠ 0 then do
    let queue ← s.queue.flushPendingBeforePark
    .ok { s with queue := queue }
  else if s.sched.ready = [] then do
    let queue ← s.queue.flushPendingBeforePark
    .ok { s with queue := queue }
  else .ok s

/-- A fault ends the run. -/
def settle (s : State n) (phase : Phase) : Except Fault (State n) → State n
  | .ok t => { t with phase := phase }
  | .error fault => { s with phase := .failed fault }

def exec (total : Int) (always : Bool) (s : State n) : Act n → Option (State n × Unit)
  | .wakeHook f =>
    if s.phase = .top ∨ s.phase = .after then some (settle s s.phase (wake s f), ()) else none
  | .begin =>
    if s.phase = .top then some ({ s with phase := .fibers s.sched.ready.length }, ()) else none
  | .resume =>
    match s.phase, s.sched.current with
    | .fibers (left + 1), none =>
      some (settle s (.fibers left) (s.sched.resume.map fun sched => { s with sched := sched }), ())
    | _, _ => none
  | .call c =>
    match s.phase, s.sched.current with
    | .fibers _, some f => some (settle s s.phase (call total always s f c), ())
    | _, _ => none
  | .flush =>
    if s.phase = .fibers 0 ∧ s.sched.current = none then some (settle s .drain (flush s), ())
    else none
  | .drain cqes =>
    if s.phase = .drain ∧ cqes.Subperm s.queue.kernel then
      if s.queue.submittedIo ≠ 0 then some (settle s .after (drainCqe s cqes), ())
      else some ({ s with phase := .after }, ())
    else none
  | .loop => if s.phase = .after then some ({ s with phase := .top }, ()) else none

/-- All fibers are spawned, and nothing is outstanding. -/
structure Initial (s : State n) : Prop where
  phase : s.phase = .top
  current : s.sched.current = none
  nodup : s.sched.ready.Nodup
  spawned : ∀ f, f ∈ s.sched.ready ∧ s.sched.state f = .ready
  queue : s.queue = ⟨[], [], 0, 0, 0, 0, 0⟩

end

/-- `always` is the setting `submit_always`. -/
def system (n : Nat) (total : Int) (always : Bool) : System (State n) (Act n × Unit) :=
  System.ofStep Initial (exec total always)

/-! ### Counters -/

structure Queue.Ok (total : Int) (q : Queue) : Prop where
  exact : q.outstandingIo = q.submittedIo + q.pendingIo
  queued : q.toSubmit = q.queued.length
  pending : q.toSubmit = 0 → q.pendingIo = 0
  behind : q.toSubmit ≤ q.fibersSinceFirstIo
  below : q.fibersSinceFirstIo < total

namespace Queue

variable {total : Int} {q : Queue}

theorem ok_submitted (positive : 0 < total) (exact : q.outstandingIo = q.submittedIo + q.pendingIo)
    (empty : q.queued = []) : q.submitted.Ok total := by
  refine ⟨?_, ?_, fun _ => rfl, Int.le_refl 0, positive⟩
  · simp [submitted, settle, exact]
  · simp [submitted, settle, empty]

theorem submitExact_all (waiting : 0 < q.toSubmit) (queued : q.toSubmit = q.queued.length) :
    q.submitExact q.toSubmit.toNat =
      .ok { q with queued := [], kernel := q.kernel ++ q.queued } := by
  rw [submitExact, if_neg (by omega), if_neg (by omega)]

theorem submitPending_ok (positive : 0 < total) (waiting : 0 < q.toSubmit)
    (exact : q.outstandingIo = q.submittedIo + q.pendingIo)
    (queued : q.toSubmit = q.queued.length) :
    ∃ q', q.submitPending = .ok q' ∧ q'.Ok total ∧ q'.toSubmit = 0 := by
  refine ⟨_, ?_, ok_submitted (q := { q with queued := [], kernel := q.kernel ++ q.queued })
    positive exact rfl, rfl⟩
  rw [submitPending, submitExact_all waiting queued]
  rfl

theorem flushPendingBeforePark_ok (ok : q.Ok total) :
    ∃ q', q.flushPendingBeforePark = .ok q' ∧ q'.Ok total ∧ q'.toSubmit = 0 := by
  have queued := ok.queued
  have behind := ok.behind
  have below := ok.below
  unfold flushPendingBeforePark
  split
  next none => exact ⟨q, rfl, ok, none⟩
  next => exact submitPending_ok (by omega) (by omega) ok.exact queued

/-- `check_submit`, also in the middle of `io`, where one entry more is to be submitted than
fibers were counted. -/
theorem checkSubmit_ok (always lucky : Bool) (fits : total ≤ maxFibers)
    (exact : q.outstandingIo = q.submittedIo + q.pendingIo) (queued : q.toSubmit = q.queued.length)
    (pending : q.toSubmit = 0 → q.pendingIo = 0) (since : 0 ≤ q.fibersSinceFirstIo)
    (behind : q.toSubmit ≤ q.fibersSinceFirstIo + 1) (below : q.fibersSinceFirstIo < total) :
    ∃ q', q.checkSubmit total always lucky = .ok q' ∧ q'.Ok total := by
  by_cases none : q.toSubmit = 0
  · exact ⟨q, if_pos none, exact, queued, pending, by omega, below⟩
  have waiting : 0 < q.toSubmit := by omega
  rw [checkSubmit, if_neg none]
  cases always with
  | true =>
    rw [if_pos rfl, submitExact_all waiting queued]
    exact ⟨_, rfl, by simp [settle, exact], rfl, fun _ => rfl, since, below⟩
  | false =>
    have below' : q.fibersSinceFirstIo + 1 ≤ total := below
    obtain ⟨submit, decided, waits⟩ := doSubmit_ok lucky (by omega) behind below' fits
    simp only [Bool.false_eq_true, if_false, countFiber, if_pos waiting, decided]
    cases submit with
    | true =>
      obtain ⟨q', done, ok, _⟩ := submitPending_ok
        (q := { q with fibersSinceFirstIo := q.fibersSinceFirstIo + 1 })
        (by omega : 0 < total) waiting exact queued
      exact ⟨q', done, ok⟩
    | false => exact ⟨_, rfl, exact, queued, pending, behind, waits rfl⟩

theorem io_ok (op : Nat) (cqeLeft : Int) (always lucky : Bool) (fits : total ≤ maxFibers)
    (ok : q.Ok total) : ∃ q', q.io total always op cqeLeft lucky = .ok q' ∧ q'.Ok total := by
  have queued := ok.queued
  have behind := ok.behind
  apply checkSubmit_ok always lucky fits
  · simp only [prepare, ok.exact, BitVec.add_assoc]
  · simp [prepare, queued]
  · intro none
    simp only [prepare] at none
    omega
  · simp only [prepare]
    omega
  · simp only [prepare]
    omega
  · exact ok.below

theorem ioBatch_ok {k : Nat} (op : Nat) (some : k ≠ 0) (ok : q.Ok total) :
    ∃ q', q.ioBatch k op = .ok q' ∧ q'.Ok total := by
  have queued := ok.queued
  have behind := ok.behind
  have below := ok.below
  have exact : (q.prepare op k k).outstandingIo =
      (q.prepare op k k).submittedIo + (q.prepare op k k).pendingIo := by
    simp only [prepare, ok.exact, BitVec.add_assoc]
  have enough : ¬ (q.prepare op k k).queued.length < k := by simp [prepare]
  refine ⟨_, ?_, ok_submitted (q := { q.prepare op k k with
    queued := [], kernel := q.kernel ++ (q.prepare op k k).queued }) (by omega) exact rfl⟩
  simp only [ioBatch, submitExact]
  rw [if_neg some, if_neg some, if_neg enough]
  rfl

theorem consume_ok (cqes : List Nat) (ok : q.Ok total) : (q.consume cqes).Ok total := by
  refine ⟨?_, ok.queued, ok.pending, ok.behind, ok.below⟩
  simp only [consume, ok.exact]
  bv_omega

end Queue

/-! ### Whole runs -/

/-- What `run` relies on in each phase. -/
def Phase.Ok {n : Nat} (sched : Sched n) (toSubmit : Int) : Phase → Prop
  | .top => sched.current = none
  | .fibers left => left ≤ sched.ready.length
  | .drain => sched.current = none ∧ (sched.ready = [] → toSubmit = 0)
  | .after => sched.current = none
  -- the only fault a program can cause
  | .failed fault => fault = .emptyBatch

structure Inv {n : Nat} (total : Int) (s : State n) : Prop where
  queue : s.queue.Ok total
  sched : s.sched.Ok
  phase : s.phase.Ok s.sched s.queue.toSubmit

section

variable {n : Nat} {total : Int} {s : State n}

theorem wake_ok (few : n ≤ maxFibers) (ok : s.sched.Ok) (f : Fin n) :
    ∃ t, wake s f = .ok t ∧ t.sched.Ok ∧ Sched.Woken s.sched t.sched ∧ t.queue = s.queue ∧
      t.phase = s.phase := by
  unfold wake
  split
  next => exact ⟨_, rfl, ok, .refl _, rfl, rfl⟩
  next =>
    obtain ⟨sched, woken, ok', grows, _⟩ := ok.wake few f
    rw [woken]
    exact ⟨_, rfl, ok', grows, rfl, rfl⟩

theorem park_ok {f : Fin n} (ok : s.sched.Ok) (at_ : s.sched.current = some f) :
    (park s f).sched.Ok ∧ (park s f).sched.ready = s.sched.ready ∧ (park s f).queue = s.queue := by
  unfold park
  split
  next => exact ⟨ok, rfl, rfl⟩
  next => exact ⟨ok.leave at_ ⟨by decide, by decide⟩, rfl, rfl⟩

/-- What a call of a fiber leads to: the reactor is intact and no fiber has left the ready ring. -/
def CallOk (total : Int) (s : State n) : Except Fault (State n) → Prop
  | .ok t => t.queue.Ok total ∧ t.sched.Ok ∧ s.sched.ready.length ≤ t.sched.ready.length
  | .error fault => fault = .emptyBatch

theorem call_ok {f : Fin n} (always : Bool) (few : n ≤ maxFibers) (fits : total ≤ maxFibers)
    (queue : s.queue.Ok total) (ok : s.sched.Ok) (at_ : s.sched.current = some f) (c : Call n) :
    CallOk total s (call total always s f c) := by
  cases c with
  | newOp op => exact ⟨queue, ok, Nat.le_refl _⟩
  | io op lucky =>
    obtain ⟨q, done, queue'⟩ := Queue.io_ok op (s.ops op).cqeLeft always lucky fits queue
    simp only [call, done]
    obtain ⟨ok', ready, same⟩ := park_ok (f := f) (s := { s with
      queue := q, ops := Function.update s.ops op ⟨some f, (s.ops op).cqeLeft⟩ }) ok at_
    exact ⟨same ▸ queue', ok', Nat.le_of_eq (congrArg _ ready.symm)⟩
  | ioBatch k op =>
    by_cases empty : k = 0
    · simp only [call, Queue.ioBatch, if_pos empty]
      exact rfl
    · obtain ⟨q, done, queue'⟩ := Queue.ioBatch_ok op empty queue
      simp only [call, done]
      obtain ⟨ok', ready, same⟩ := park_ok (f := f) (s := { s with
        queue := q, ops := Function.update s.ops op ⟨some f, k⟩ }) ok at_
      exact ⟨same ▸ queue', ok', Nat.le_of_eq (congrArg _ ready.symm)⟩
  | checkSubmit lucky =>
    have behind := queue.behind
    have queued := queue.queued
    obtain ⟨q, done, queue'⟩ := Queue.checkSubmit_ok always lucky fits queue.exact queued
      queue.pending (by omega) (by omega) queue.below
    simp only [call, done]
    exact ⟨queue', ok, Nat.le_refl _⟩
  | yield =>
    obtain ⟨sched, done, ok', rfl⟩ := ok.yield few at_
    simp only [call, done]
    refine ⟨queue, ok', ?_⟩
    simp
  | park =>
    obtain ⟨ok', ready, same⟩ := park_ok ok at_
    exact ⟨same ▸ queue, ok', Nat.le_of_eq (congrArg _ ready.symm)⟩
  | wake g =>
    obtain ⟨t, done, ok', grows, same, _⟩ := wake_ok few ok g
    obtain ⟨more, longer⟩ := grows.ready
    simp only [call, done]
    refine ⟨same ▸ queue, ok', ?_⟩
    simp [longer]
  | finish =>
    have waits : FiberState.finished ≠ .ready ∧ FiberState.finished ≠ .running := by decide
    exact ⟨queue, ok.leave at_ waits, Nat.le_refl _⟩

theorem complete_ok (few : n ≤ maxFibers) (ok : s.sched.Ok) (op : Nat) :
    ∃ t, complete s op = .ok t ∧ t.sched.Ok ∧ t.sched.current = s.sched.current ∧
      t.queue = s.queue := by
  unfold complete
  split
  next => exact ⟨s, rfl, ok, rfl, rfl⟩
  next f _ =>
    simp only []
    split
    next =>
      obtain ⟨t, done, ok', grows, same, _⟩ := wake_ok few (s := { s with
        ops := Function.update s.ops op ⟨some f, (s.ops op).cqeLeft - 1⟩ }) ok f
      exact ⟨t, done, ok', grows.current, same⟩
    next => exact ⟨_, rfl, ok, rfl, rfl⟩

theorem completeAll_ok (few : n ≤ maxFibers) (ok : s.sched.Ok) (cqes : List Nat) :
    ∃ t, cqes.foldlM complete s = .ok t ∧ t.sched.Ok ∧ t.sched.current = s.sched.current ∧
      t.queue = s.queue := by
  induction cqes generalizing s with
  | nil => exact ⟨s, rfl, ok, rfl, rfl⟩
  | cons op cqes ih =>
    obtain ⟨t, done, ok', current, queue⟩ := complete_ok few ok op
    obtain ⟨u, rest, ok'', current', queue'⟩ := ih ok'
    refine ⟨u, ?_, ok'', current'.trans current, queue'.trans queue⟩
    rw [List.foldlM_cons, done]
    exact rest

theorem flush_ok (queue : s.queue.Ok total) :
    ∃ t, flush s = .ok t ∧ t.queue.Ok total ∧ t.sched = s.sched ∧
      (s.sched.ready = [] → t.queue.toSubmit = 0) := by
  obtain ⟨q, done, queue', none⟩ := Queue.flushPendingBeforePark_ok queue
  unfold flush
  rw [done]
  split
  next => exact ⟨_, rfl, queue', rfl, fun _ => none⟩
  next =>
    split
    next => exact ⟨_, rfl, queue', rfl, fun _ => none⟩
    next busy => exact ⟨s, rfl, queue, rfl, fun empty => absurd empty busy⟩

/-- **One step of the reactor keeps it intact.** -/
theorem inv_step {always : Bool} (few : n ≤ maxFibers) (fits : total ≤ maxFibers)
    {label : Act n × Unit} {t : State n} (inv : Inv total s)
    (stepped : (system n total always).step s label t) : Inv total t := by
  obtain ⟨act, ⟨⟩⟩ := label
  have phase := inv.phase
  change exec total always s act = some (t, ()) at stepped
  cases act with simp only [exec] at stepped
  | wakeHook f =>
    obtain ⟨u, done, ok, grows, same, stays⟩ := wake_ok few inv.sched f
    rw [done] at stepped
    split at stepped <;> cases stepped
    next here =>
      refine ⟨same ▸ inv.queue, ok, ?_⟩
      rcases here with here | here <;> rw [here] at phase <;>
        simp only [settle, here, Phase.Ok, grows.current] at phase ⊢ <;> exact phase
  | begin =>
    split at stepped <;> cases stepped
    exact ⟨inv.queue, inv.sched, Nat.le_refl _⟩
  | resume =>
    split at stepped <;> cases stepped
    next left here free =>
      rw [here] at phase
      cases first : s.sched.ready with
      | nil => simp [Phase.Ok, first] at phase
      | cons f rest =>
        simp only [Phase.Ok, first, List.length_cons] at phase
        simp only [Sched.resume, first]
        exact ⟨inv.queue, inv.sched.resume free first, Nat.le_of_succ_le_succ phase⟩
  | call c =>
    split at stepped <;> cases stepped
    next left f here at_ =>
      have fine := call_ok always few fits inv.queue inv.sched at_ c
      rw [here] at phase
      cases result : call total always s f c with
      | ok u =>
        rw [result] at fine
        refine ⟨fine.1, fine.2.1, ?_⟩
        rw [here]
        exact Nat.le_trans phase fine.2.2
      | error fault =>
        rw [result] at fine
        exact ⟨inv.queue, inv.sched, fine⟩
  | flush =>
    obtain ⟨u, done, queue, same, none⟩ := flush_ok inv.queue
    rw [done] at stepped
    split at stepped <;> cases stepped
    next here =>
      refine ⟨queue, same ▸ inv.sched, ?_⟩
      simp only [settle, Phase.Ok, same]
      exact ⟨here.2, none⟩
  | drain cqes =>
    obtain ⟨u, done, ok, current, same⟩ := completeAll_ok few inv.sched cqes
    split at stepped
    next here =>
      rw [here.1] at phase
      split at stepped <;> cases stepped
      next busy =>
        simp only [drainCqe, if_neg busy, done]
        exact ⟨Queue.consume_ok cqes (same ▸ inv.queue), ok, current.trans phase.1⟩
      next => exact ⟨inv.queue, inv.sched, phase.1⟩
    next => cases stepped
  | loop =>
    split at stepped <;> cases stepped
    next here =>
      rw [here] at phase
      exact ⟨inv.queue, inv.sched, phase⟩

theorem inv_initial (positive : 1 ≤ total) (start : Initial s) : Inv total s := by
  refine ⟨?_, ⟨start.nodup, fun f => ?_, fun f => ?_⟩, ?_⟩
  · rw [start.queue]
    exact ⟨rfl, rfl, fun _ => rfl, Int.le_refl 0, positive⟩
  · simp [start.spawned f]
  · simp [start.spawned f, start.current]
  · rw [start.phase]
    exact start.current

end

/-- **The reactor never goes idle on unsubmitted I/O, and its counters are exact.** For every
program of at most 256 fibers, every draw and every order of completions: the three counters of
operations add up, the two counters of the heuristic stay below `total_io_fibers`, and where
`run` drains completions with no fiber ready, every prepared entry has been submitted. No fault
occurs but that of an empty batch, so the table is never indexed out of range. -/
theorem reactor_submits (n : Nat) (total : Int) (always : Bool) (few : n ≤ maxFibers)
    (positive : 1 ≤ total) (fits : total ≤ maxFibers) (labels : List (Act n × Unit)) (s : State n)
    (reached : (system n total always).Reaches System.anyStep labels s) :
    s.queue.outstandingIo = s.queue.submittedIo + s.queue.pendingIo ∧
    (s.phase = .drain → s.sched.ready = [] →
      s.queue.pendingIo = 0 ∧ s.queue.toSubmit = 0 ∧ s.queue.queued = []) ∧
    0 ≤ s.queue.toSubmit ∧ s.queue.toSubmit ≤ s.queue.fibersSinceFirstIo ∧
    s.queue.fibersSinceFirstIo < total ∧
    (∀ fault, s.phase = .failed fault → fault = .emptyBatch) := by
  have inv : Inv total s := reached.invariant (fun _ => inv_initial positive)
    fun _ _ _ inv _ => inv_step few fits inv
  have queued := inv.queue.queued
  have phase := inv.phase
  refine ⟨inv.queue.exact, fun here idle => ?_, by omega, inv.queue.behind, inv.queue.below, ?_⟩
  · rw [here] at phase
    have none := phase.2 idle
    exact ⟨inv.queue.pending none, none, List.eq_nil_of_length_eq_zero (by omega)⟩
  · intro fault here
    rw [here] at phase
    exact phase

def spawned : State 2 where
  sched := ⟨fun _ => .ready, [0, 1], none⟩
  pendingWake _ := false
  phase := .top
  ops _ := ⟨none, 1⟩
  queue := ⟨[], [], 0, 0, 0, 0, 0⟩

theorem initial_spawned : Initial spawned :=
  ⟨rfl, rfl, by decide, by decide, rfl⟩

/-- One fiber prepares a read that the heuristic does not submit, the other one parks. -/
def unlucky : List (Act 2) :=
  [.begin, .resume, .call (.newOp 7), .call (.io 7 false), .resume, .call .park, .flush]

theorem reactor_submits_unlucky : ∃ labels s,
    (system 2 4 false).Reaches System.anyStep labels s ∧ s.sched.ready = [] ∧
      s.queue.kernel = [7] ∧ s.queue.queued = [] := by
  have passed : (drive (exec 4 false) (fun _ _ => true) spawned unlucky).any
      (fun r => r.1.phase = .drain ∧ r.1.sched.ready = [] ∧ r.1.queue.kernel = [7]) := by
    decide +kernel
  obtain ⟨s, labels, reached, tested⟩ := drive_anyStep (system 2 4 false) rfl initial_spawned passed
  obtain ⟨here, idle, kernel⟩ := of_decide_eq_true tested
  have submits := reactor_submits 2 4 false (by decide) (by decide) (by decide) labels s reached
  exact ⟨labels, s, reached, idle, kernel, (submits.2.1 here idle).2.2⟩

end UringDb.Reactor.Mt
