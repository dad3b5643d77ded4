import UringDb.Lib.Guard
import UringDb.Lib.Run
import UringDb.Reactor.Mt

/-!
# Partial submits

The submission bookkeeping of the multi-threaded `UringReactor` where `io_uring_submit` takes any
number of the queued entries but at least one, oldest first, and returns that number. The answers
of the kernel are inputs of a call. `submit_exact` repeats until its count is reached, which
empties the queue only if the count is the length of the queue.
-/
namespace UringDb.Reactor.Submission

/-- An entry is given by the completions that come for it. -/
structure State where
  /-- Prepared entries, oldest first. -/
  queued : List Nat
  /-- Completions that entries in the kernel still owe. -/
  owed : Nat
  submittedIo : BitVec 64
  pendingIo : BitVec 64
  toSubmit : Int
  fibersSinceFirstIo : Int
  deriving DecidableEq

structure Config where
  totalIoFibers : Int
  submitAlways : Bool
  /-- The size of the submission queue. -/
  entries : Nat

inductive Call where
  | io (cqeLeft : Nat) (lucky : Bool) (answers : List Nat)
  | ioBatch (n : Nat) (answers : List Nat)
  | checkSubmit (lucky : Bool) (answers : List Nat)
  | flushPendingBeforePark (answers : List Nat)
  /-- `drain_cqe` consumes completions. -/
  | drainCqe (completions : Nat)
  deriving DecidableEq

namespace State

/-- The kernel takes the oldest `r` entries. -/
def take (s : State) (r : Nat) : State :=
  { s with queued := s.queued.drop r, owed := s.owed + (s.queued.take r).sum }

/-- `submit_exact` with the answers of its submits. There is no result if the answers are not
those of a kernel, or if nothing is left to submit and `ensure(ret > 0)` fails. -/
def submitExact (s : State) (expected : Nat) : List Nat → Option State
  | [] => if expected = 0 then some s else none
  | r :: answers =>
    if expected ≠ 0 ∧ 1 ≤ r ∧ r ≤ s.queued.length then
      (s.take r).submitExact (expected - r) answers
    else none

/-- `submitted_io += pending_io; pending_io = 0; to_submit = 0`. -/
def settle (s : State) : State :=
  { s with submittedIo := s.submittedIo + s.pendingIo, pendingIo := 0, toSubmit := 0 }

def restart (s : State) : State := { s with fibersSinceFirstIo := 0 }

/-- `if (to_submit > 0) fibers_since_first_io++`. -/
def countFiber (s : State) : State :=
  if 0 < s.toSubmit then { s with fibersSinceFirstIo := s.fibersSinceFirstIo + 1 } else s

def flushPendingBeforePark (s : State) (answers : List Nat) : Option State :=
  if s.toSubmit = 0 then (if answers = [] then some s else none)
  else do
    let s ← s.submitExact s.toSubmit.toNat answers
    some s.settle.restart

def checkSubmit (cfg : Config) (s : State) (lucky : Bool) (answers : List Nat) : Option State :=
  if s.toSubmit = 0 then (if answers = [] then some s else none)
  else if cfg.submitAlways then do
    let s ← s.submitExact s.toSubmit.toNat answers
    -- this branch leaves `fibers_since_first_io` as it is
    some s.settle
  else
    let s := s.countFiber
    match doSubmit cfg.totalIoFibers s.fibersSinceFirstIo s.toSubmit lucky with
    | .error _ => none
    | .ok false => if answers = [] then some s else none
    | .ok true => do
      let s ← s.submitExact s.toSubmit.toNat answers
      some s.settle.restart

def enqueue (s : State) (n cqeLeft : Nat) : State :=
  { s with
    queued := s.queued ++ List.replicate n cqeLeft
    pendingIo := s.pendingIo + BitVec.ofNat 64 (n * cqeLeft) }

/-- `n` calls of `io_uring_get_sqe`, each of which finds a free entry. -/
def prepare (cfg : Config) (s : State) (n cqeLeft : Nat) : Option State :=
  if s.queued.length + n ≤ cfg.entries then some (s.enqueue n cqeLeft) else none

def addToSubmit (s : State) : State := { s with toSubmit := s.toSubmit + 1 }

def io (cfg : Config) (s : State) (cqeLeft : Nat) (lucky : Bool) (answers : List Nat) :
    Option State := do
  let s ← s.prepare cfg 1 cqeLeft
  s.addToSubmit.checkSubmit cfg lucky answers

def ioBatch (cfg : Config) (s : State) (n : Nat) (answers : List Nat) : Option State := do
  guard (n > 0)
  let s ← s.prepare cfg n 1
  let s ← s.submitExact n answers
  some s.settle.restart

def drainCqe (s : State) (completions : Nat) : Option State :=
  if s.submittedIo = 0 then (if completions = 0 then some s else none)
  else if completions ≤ s.owed then
    some { s with
      owed := s.owed - completions
      submittedIo := s.submittedIo - BitVec.ofNat 64 completions }
  else none

def exec (cfg : Config) (s : State) : Call → Option (State × Unit)
  | .io cqeLeft lucky answers => (s.io cfg cqeLeft lucky answers).map (·, ())
  | .ioBatch n answers => (s.ioBatch cfg n answers).map (·, ())
  | .checkSubmit lucky answers => (s.checkSubmit cfg lucky answers).map (·, ())
  | .flushPendingBeforePark answers => (s.flushPendingBeforePark answers).map (·, ())
  | .drainCqe completions => (s.drainCqe completions).map (·, ())

end State

def initial : State := ⟨[], 0, 0, 0, 0, 0⟩

def system (cfg : Config) : System State (Call × Unit) :=
  System.ofStep (· = initial) (State.exec cfg)

/-! ### Exact accounting -/

namespace State

/-- What the two counters are to say. -/
def Exact (s : State) : Prop :=
  s.toSubmit = s.queued.length ∧ s.submittedIo = BitVec.ofNat 64 s.owed

/-- The counters are exact, and `pending_io` counts the completions of the queued entries. -/
structure Sound (s : State) : Prop where
  toSubmit : s.toSubmit = s.queued.length
  submitted : s.submittedIo = BitVec.ofNat 64 s.owed
  pending : s.pendingIo = BitVec.ofNat 64 s.queued.sum

/-- A batch is submitted completely: nothing waits before it, or the kernel takes all that is
queued. -/
def Covers (s : State) : Call → Prop
  | .ioBatch n answers => s.toSubmit = 0 ∨ answers.sum = s.queued.length + n
  | _ => True

variable {cfg : Config} {s t : State} {expected : Nat} {answers : List Nat}

theorem Sound.exact (sound : s.Sound) : s.Exact := ⟨sound.toSubmit, sound.submitted⟩

theorem take_take (s : State) (r r' : Nat) : (s.take r).take r' = s.take (r + r') := by
  simp only [take, List.drop_drop, List.take_add, List.sum_append, Nat.add_assoc]

/-- The loop of `submit_exact` moves the oldest entries, as many as it counts. -/
theorem submitExact_ok (done : s.submitExact expected answers = some t) :
    t = s.take answers.sum ∧ expected ≤ answers.sum ∧ answers.sum ≤ s.queued.length := by
  induction answers generalizing s expected with
  | nil =>
    rw [submitExact] at done
    split at done <;> cases done
    next none =>
      refine ⟨?_, by omega, Nat.zero_le _⟩
      simp [take]
  | cons r answers ih =>
    rw [submitExact] at done
    split at done
    next legal =>
      obtain ⟨rfl, enough, short⟩ := ih done
      rw [take_take, List.sum_cons]
      rw [take, List.length_drop] at short
      exact ⟨rfl, by omega, by omega⟩
    next => cases done

theorem Sound.settle (sound : s.Sound) : (s.take s.queued.length).settle.Sound where
  toSubmit := by simp [State.settle, take]
  submitted := by
    simp only [State.settle, take, List.take_length, sound.submitted, sound.pending]
    rw [BitVec.ofNat_add]
  pending := by simp [State.settle, take]

theorem Sound.restart (sound : s.Sound) : s.restart.Sound :=
  ⟨sound.toSubmit, sound.submitted, sound.pending⟩

theorem Sound.submitExact (sound : s.Sound)
    (done : s.submitExact s.toSubmit.toNat answers = some t) : t = s.take s.queued.length := by
  obtain ⟨rfl, enough, short⟩ := submitExact_ok done
  have count := sound.toSubmit
  rw [show answers.sum = s.queued.length by omega]

theorem Sound.flush (sound : s.Sound) (done : s.flushPendingBeforePark answers = some t) :
    t.Sound := by
  unfold flushPendingBeforePark at done
  split at done
  · split at done <;> cases done
    exact sound
  · obtain ⟨u, submitted, done⟩ := Option.bind_eq_some_iff.mp done
    cases done
    rw [sound.submitExact submitted]
    exact sound.settle.restart

theorem Sound.countFiber (sound : s.Sound) : s.countFiber.Sound := by
  unfold State.countFiber
  split
  · exact ⟨sound.toSubmit, sound.submitted, sound.pending⟩
  · exact sound

theorem Sound.checkSubmit (sound : s.Sound) {lucky : Bool}
    (done : s.checkSubmit cfg lucky answers = some t) : t.Sound := by
  unfold State.checkSubmit at done
  split at done
  · split at done <;> cases done
    exact sound
  split at done
  · obtain ⟨u, submitted, done⟩ := Option.bind_eq_some_iff.mp done
    cases done
    rw [sound.submitExact submitted]
    exact sound.settle
  · have counted := sound.countFiber
    dsimp only at done
    split at done
    · cases done
    · split at done <;> cases done
      exact counted
    · obtain ⟨u, submitted, done⟩ := Option.bind_eq_some_iff.mp done
      cases done
      rw [counted.submitExact submitted]
      exact counted.settle.restart

theorem prepare_ok {n cqeLeft : Nat} (prepared : s.prepare cfg n cqeLeft = some t) :
    t = s.enqueue n cqeLeft := by
  unfold prepare at prepared
  split at prepared <;> cases prepared
  rfl

theorem Sound.io (sound : s.Sound) {cqeLeft : Nat} {lucky : Bool}
    (done : s.io cfg cqeLeft lucky answers = some t) : t.Sound := by
  obtain ⟨u, prepared, done⟩ := Option.bind_eq_some_iff.mp done
  rw [prepare_ok prepared] at done
  have added : (s.enqueue 1 cqeLeft).addToSubmit.Sound := by
    refine ⟨?_, sound.submitted, ?_⟩
    · simp [addToSubmit, enqueue, sound.toSubmit]
    · simp [addToSubmit, enqueue, sound.pending, BitVec.ofNat_add]
  exact added.checkSubmit done

/-- What a batch leaves: the entries that the kernel has not taken, with all counters reset. -/
theorem ioBatch_ok {n : Nat} (done : s.ioBatch cfg n answers = some t) :
    t = ((s.enqueue n 1).take answers.sum).settle.restart ∧ n ≤ answers.sum ∧
      answers.sum ≤ s.queued.length + n := by
  unfold ioBatch at done
  rw [guard_bind] at done
  split at done
  · obtain ⟨u, prepared, done⟩ := Option.bind_eq_some_iff.mp done
    obtain ⟨v, submitted, done⟩ := Option.bind_eq_some_iff.mp done
    cases done
    rw [prepare_ok prepared] at submitted
    obtain ⟨rfl, enough, short⟩ := submitExact_ok submitted
    rw [enqueue, List.length_append, List.length_replicate] at short
    exact ⟨rfl, enough, short⟩
  · cases done

/-- A batch that the kernel takes with everything before it keeps the counters, and any other
one loses entries. -/
theorem Sound.ioBatch (sound : s.Sound) {n : Nat} (done : s.ioBatch cfg n answers = some t) :
    (s.Covers (.ioBatch n answers) → t.Sound) ∧ (t.Exact → s.Covers (.ioBatch n answers)) := by
  obtain ⟨rfl, enough, short⟩ := ioBatch_ok done
  have length : (s.enqueue n 1).queued.length = s.queued.length + n := by
    rw [enqueue, List.length_append, List.length_replicate]
  refine ⟨fun covers => ?_, fun exact => .inr ?_⟩
  · have all : answers.sum = (s.enqueue n 1).queued.length := by
      have count := sound.toSubmit
      rcases covers with empty | all <;> omega
    rw [all]
    refine Sound.restart ⟨?_, ?_, ?_⟩
    · simp [State.settle, take]
    · -- all completions of the queue are pending, and the kernel owes them now
      simp only [State.settle, take, List.take_length, enqueue, sound.submitted, sound.pending,
        List.sum_append, List.sum_replicate, smul_eq_mul, Nat.mul_one, BitVec.ofNat_add]
    · simp [State.settle, take]
  · have left : (0 : Int) = ((s.enqueue n 1).queued.drop answers.sum).length := exact.1
    rw [List.length_drop] at left
    omega

theorem Sound.drainCqe (sound : s.Sound) {completions : Nat}
    (done : s.drainCqe completions = some t) : t.Sound := by
  unfold State.drainCqe at done
  split at done
  · split at done <;> cases done
    exact sound
  split at done <;> cases done
  next inside =>
    refine ⟨sound.toSubmit, ?_, sound.pending⟩
    dsimp only
    rw [sound.submitted]
    bv_omega

end State

section

variable {cfg : Config} {s t : State} {label : Call × Unit}

/-- One call keeps the counters if and only if it is no batch that loses entries. -/
theorem sound_step (sound : s.Sound) (stepped : (system cfg).step s label t) :
    (s.Covers label.1 → t.Sound) ∧ (t.Exact → s.Covers label.1) := by
  obtain ⟨call, ⟨⟩⟩ := label
  have done : s.exec cfg call = some (t, ()) := stepped
  cases call with
  | ioBatch n answers =>
    obtain ⟨u, batch, same⟩ := Option.map_eq_some_iff.mp done
    cases same
    exact sound.ioBatch batch
  | io cqeLeft lucky answers =>
    obtain ⟨u, called, same⟩ := Option.map_eq_some_iff.mp done
    cases same
    exact ⟨fun _ => sound.io called, fun _ => trivial⟩
  | checkSubmit lucky answers =>
    obtain ⟨u, called, same⟩ := Option.map_eq_some_iff.mp done
    cases same
    exact ⟨fun _ => sound.checkSubmit called, fun _ => trivial⟩
  | flushPendingBeforePark answers =>
    obtain ⟨u, called, same⟩ := Option.map_eq_some_iff.mp done
    cases same
    exact ⟨fun _ => sound.flush called, fun _ => trivial⟩
  | drainCqe completions =>
    obtain ⟨u, called, same⟩ := Option.map_eq_some_iff.mp done
    cases same
    exact ⟨fun _ => sound.drainCqe called, fun _ => trivial⟩

/-- In every run whose batches are submitted completely the counters are exact after each call,
and the first batch that is not makes them wrong. -/
theorem accounting_exact_iff {calls : List (Call × Unit)}
    (reached : (system cfg).Reaches (fun s label => s.Covers label.1) calls s) :
    s.Exact ∧ ∀ label t, (system cfg).step s label t → (t.Exact ↔ s.Covers label.1) := by
  have sound : s.Sound := by
    refine reached.invariant (P := State.Sound) ?_ fun _ _ _ before covers stepped =>
      (sound_step before stepped).1 covers
    rintro _ rfl
    exact ⟨rfl, rfl, rfl⟩
  refine ⟨sound.exact, fun label t stepped => ?_⟩
  obtain ⟨keeps, needs⟩ := sound_step sound stepped
  exact ⟨needs, fun covers => (keeps covers).exact⟩

end

def smallConfig : Config := ⟨4, false, 8⟩

/-- A read that is not submitted at once, then a batch of two, and the kernel takes all three. -/
theorem accounting_exact_iff_read : ∃ s t,
    (system smallConfig).Reaches (fun s label => s.Covers label.1) [(.io 1 false [], ())] s ∧
      (system smallConfig).step s (.ioBatch 2 [1, 2], ()) t ∧ t.Exact := by
  obtain ⟨s, first⟩ : ∃ s, initial.exec smallConfig (.io 1 false []) = some (s, ()) := ⟨_, rfl⟩
  obtain ⟨t, second⟩ : ∃ t, s.exec smallConfig (.ioBatch 2 [1, 2]) = some (t, ()) := by
    cases first
    exact ⟨_, rfl⟩
  have reached : (system smallConfig).Reaches (fun s label => s.Covers label.1)
      [(.io 1 false [], ())] s := ⟨initial, rfl, .cons first trivial (.nil s)⟩
  have covers : s.Covers (.ioBatch 2 [1, 2]) := by
    cases first
    exact .inr rfl
  have exact_iff := (accounting_exact_iff reached).2 (.ioBatch 2 [1, 2], ()) t second
  exact ⟨s, t, reached, second, exact_iff.mpr covers⟩

/-- The kernel takes the read and one entry of the batch: one entry stays queued unseen. -/
theorem batch_loses_entry : ∃ s t,
    (system smallConfig).Reaches System.anyStep [(.io 1 false [], ())] s ∧
      (system smallConfig).step s (.ioBatch 2 [2], ()) t ∧ s.Exact ∧
      t.queued.length = 1 ∧ t.toSubmit = 0 ∧ ¬t.Exact := by
  obtain ⟨s, first⟩ : ∃ s, initial.exec smallConfig (.io 1 false []) = some (s, ()) := ⟨_, rfl⟩
  obtain ⟨t, second⟩ : ∃ t, s.exec smallConfig (.ioBatch 2 [2]) = some (t, ()) := by
    cases first
    exact ⟨_, rfl⟩
  refine ⟨s, t, ⟨initial, rfl, .cons first trivial (.nil s)⟩, second, ?_⟩
  cases first
  cases second
  refine ⟨⟨rfl, rfl⟩, rfl, rfl, fun exact => ?_⟩
  exact absurd exact.1 (by decide)

/-! ### The runs of the reactor

Where each submit takes the whole queue, the calls above are those of the multi-threaded reactor,
and so its runs are among those of this system. -/

/-- `s` counts what the reactor's queue holds. Each entry owes a completion. -/
structure Counts (q : Mt.Queue) (s : State) : Prop where
  queued : s.queued.length = q.queued.length
  each : ∀ left ∈ s.queued, 1 ≤ left
  owed : q.kernel.length ≤ s.owed
  submittedIo : s.submittedIo = q.submittedIo
  pendingIo : s.pendingIo = q.pendingIo
  toSubmit : s.toSubmit = q.toSubmit
  fibersSinceFirstIo : s.fibersSinceFirstIo = q.fibersSinceFirstIo

namespace Counts

variable {cfg : Config} {q q' : Mt.Queue} {s : State} {lucky : Bool}

/-- The kernel answers with the length of the queue. -/
theorem submitExact {expected : Nat} (counts : Counts q s)
    (done : q.submitExact expected = .ok q') :
    ∃ answers t, s.submitExact expected answers = some t ∧ Counts q' t ∧
      (expected ≠ 0 → answers.sum = s.queued.length) := by
  have length := counts.queued
  have owed := counts.owed
  unfold Mt.Queue.submitExact at done
  split at done
  next none =>
    cases done
    exact ⟨[], s, if_pos none, counts, absurd none⟩
  next some =>
    split at done <;> cases done
    next enough =>
      have each := List.length_le_sum_of_one_le s.queued counts.each
      refine ⟨[s.queued.length], s.take s.queued.length, ?_, ⟨by simp [State.take],
        by simp [State.take], ?_, counts.submittedIo, counts.pendingIo, counts.toSubmit,
        counts.fibersSinceFirstIo⟩, fun _ => List.sum_singleton⟩
      · rw [State.submitExact, if_pos ⟨some, by omega, le_rfl⟩, State.submitExact,
          if_pos (by omega)]
      · simp only [State.take, List.take_length, List.length_append]
        omega

theorem settle (counts : Counts q s) : Counts q.settle s.settle :=
  ⟨counts.queued, counts.each, counts.owed,
    congrArg₂ (· + ·) counts.submittedIo counts.pendingIo, rfl, rfl, counts.fibersSinceFirstIo⟩

theorem submitted (counts : Counts q s) : Counts q.submitted s.settle.restart :=
  { counts.settle with fibersSinceFirstIo := rfl }

theorem submitPending (counts : Counts q s) (done : q.submitPending = .ok q') :
    ∃ answers t, s.submitExact s.toSubmit.toNat answers = some t ∧
      Counts q' t.settle.restart := by
  obtain ⟨p, taken, same⟩ := bind_ok.mp done
  cases same
  obtain ⟨answers, t, answered, counts', _⟩ := counts.submitExact taken
  exact ⟨answers, t, counts.toSubmit ▸ answered, counts'.submitted⟩

theorem flush (counts : Counts q s) (done : q.flushPendingBeforePark = .ok q') :
    ∃ answers t, s.flushPendingBeforePark answers = some t ∧ Counts q' t := by
  unfold Mt.Queue.flushPendingBeforePark at done
  unfold State.flushPendingBeforePark
  rw [counts.toSubmit]
  split at done
  next none =>
    cases done
    exact ⟨[], s, by rw [if_pos none, if_pos rfl], counts⟩
  next some =>
    obtain ⟨answers, t, answered, counts'⟩ := counts.submitPending done
    refine ⟨answers, _, ?_, counts'⟩
    rw [if_neg some, ← counts.toSubmit, answered]
    rfl

theorem countFiber (counts : Counts q s) : Counts q.countFiber s.countFiber := by
  unfold Mt.Queue.countFiber State.countFiber
  by_cases waiting : 0 < q.toSubmit
  · rw [if_pos waiting, if_pos (counts.toSubmit ▸ waiting)]
    exact { counts with fibersSinceFirstIo := congrArg (· + 1) counts.fibersSinceFirstIo }
  · rw [if_neg waiting, if_neg (counts.toSubmit ▸ waiting)]
    exact counts

theorem checkSubmit (counts : Counts q s)
    (done : q.checkSubmit cfg.totalIoFibers cfg.submitAlways lucky = .ok q') :
    ∃ answers t, s.checkSubmit cfg lucky answers = some t ∧ Counts q' t := by
  have counted := counts.countFiber
  unfold Mt.Queue.checkSubmit at done
  unfold State.checkSubmit
  rw [counts.toSubmit]
  split at done
  next none =>
    cases done
    exact ⟨[], s, by rw [if_pos none, if_pos rfl], counts⟩
  next some =>
    split at done
    next always =>
      -- `submit_always` submits and leaves `fibers_since_first_io`
      obtain ⟨p, taken, same⟩ := bind_ok.mp done
      cases same
      obtain ⟨answers, t, answered, counts', _⟩ := counts.submitExact taken
      refine ⟨answers, t.settle, ?_, counts'.settle⟩
      rw [if_neg some, if_pos always, answered]
      rfl
    next sometimes =>
      obtain ⟨submit, decided, done⟩ := bind_ok.mp done
      rw [← counted.fibersSinceFirstIo, ← counted.toSubmit] at decided
      simp only [if_neg some, if_neg sometimes, decided]
      cases submit with
      | false =>
        cases done
        exact ⟨[], _, if_pos rfl, counted⟩
      | true =>
        obtain ⟨answers, t, answered, counts'⟩ := counted.submitPending done
        refine ⟨answers, _, ?_, counts'⟩
        rw [answered]
        rfl

theorem enqueue (counts : Counts q s) (op k : Nat) {left : Nat} (some : 1 ≤ left) :
    Counts (q.prepare op k (k * left : Nat)) (s.enqueue k left) := by
  refine ⟨?_, fun left' member => ?_, counts.owed, counts.submittedIo, ?_, counts.toSubmit,
    counts.fibersSinceFirstIo⟩
  · simp [State.enqueue, Mt.Queue.prepare, counts.queued]
  · rcases List.mem_append.mp member with old | new
    · exact counts.each left' old
    · exact (List.eq_of_mem_replicate new) ▸ some
  · simp only [State.enqueue, Mt.Queue.prepare, counts.pendingIo, BitVec.ofInt_natCast]

theorem io {op : Nat} {cqeLeft : Int} (counts : Counts q s) (some : 1 ≤ cqeLeft)
    (room : q.queued.length + 1 ≤ cfg.entries)
    (done : q.io cfg.totalIoFibers cfg.submitAlways op cqeLeft lucky = .ok q') :
    ∃ answers t, s.io cfg cqeLeft.toNat lucky answers = Option.some t ∧ Counts q' t := by
  lift cqeLeft to Nat using by omega
  have prepared := counts.enqueue op 1 (show 1 ≤ cqeLeft by omega)
  rw [Nat.one_mul] at prepared
  have added : Counts { q.prepare op 1 cqeLeft with toSubmit := q.toSubmit + 1 }
      (s.enqueue 1 cqeLeft).addToSubmit :=
    { prepared with toSubmit := congrArg (· + 1) counts.toSubmit }
  obtain ⟨answers, t, answered, counts'⟩ := added.checkSubmit done
  refine ⟨answers, t, ?_, counts'⟩
  rw [State.io, State.prepare, if_pos (counts.queued ▸ room)]
  exact answered

theorem ioBatch {k op : Nat} (counts : Counts q s) (room : q.queued.length + k ≤ cfg.entries)
    (done : q.ioBatch k op = .ok q') :
    ∃ answers t, s.ioBatch cfg k answers = some t ∧ Counts q' t ∧
      s.Covers (.ioBatch k answers) := by
  unfold Mt.Queue.ioBatch at done
  split at done
  next => cases done
  next some =>
    obtain ⟨p, taken, same⟩ := bind_ok.mp done
    cases same
    have prepared := counts.enqueue op k Nat.one_pos
    rw [Nat.mul_one] at prepared
    -- one answer takes the batch and what was queued before it
    obtain ⟨answers, t, answered, counts', all⟩ := prepared.submitExact taken
    refine ⟨answers, _, ?_, counts'.submitted, .inr (by simp [all some, State.enqueue])⟩
    rw [State.ioBatch, guard_bind, if_pos (Nat.pos_of_ne_zero some), State.prepare,
      if_pos (counts.queued ▸ room)]
    exact Option.bind_eq_some_iff.mpr ⟨_, rfl, Option.bind_eq_some_iff.mpr ⟨t, answered, rfl⟩⟩

theorem drainCqe {cqes : List Nat} (counts : Counts q s) (inside : cqes.Subperm q.kernel)
    (busy : q.submittedIo ≠ 0) :
    ∃ t, s.drainCqe cqes.length = some t ∧ Counts (q.consume cqes) t := by
  have owed := counts.owed
  have few := inside.length_le
  have rest := (List.subperm_append_diff_self_of_count_le
    (List.subperm_ext_iff.mp inside)).length_eq
  rw [List.length_append] at rest
  refine ⟨_, (if_neg (counts.submittedIo ▸ busy)).trans (if_pos (few.trans owed)),
    counts.queued, counts.each, ?_, congrArg (· - BitVec.ofNat 64 cqes.length) counts.submittedIo,
    counts.pendingIo, counts.toSubmit, counts.fibersSinceFirstIo⟩
  · simp only [Mt.Queue.consume]
    omega

end Counts

section

variable {n : Nat} {cfg : Config} {s t : Mt.State n} {u : State}

/-- The submission queue has room for what is prepared, and an operation has completions to wait
for. -/
def Fits (cfg : Config) (s : Mt.State n) : Mt.Act n → Prop
  | .call (.io op _) => s.queue.queued.length + 1 ≤ cfg.entries ∧ 1 ≤ (s.ops op).cqeLeft
  | .call (.ioBatch k _) => s.queue.queued.length + k ≤ cfg.entries
  | _ => True

/-- A run from `u` whose batches are submitted completely leads to the counters of `q`. -/
def Follows (cfg : Config) (u : State) (q : Mt.Queue) : Prop :=
  ∃ calls v, (system cfg).Path (fun s label => s.Covers label.1) u calls v ∧ Counts q v

theorem Follows.refl {q : Mt.Queue} (counts : Counts q u) : Follows cfg u q :=
  ⟨[], u, .nil u, counts⟩

theorem Follows.call {q : Mt.Queue} {c : Call} {v : State} (done : u.exec cfg c = some (v, ()))
    (counts : Counts q v) (covers : u.Covers c) : Follows cfg u q :=
  ⟨[(c, ())], v, .cons done covers (.nil v), counts⟩

theorem wake_queue {f : Fin n} (done : Mt.wake s f = .ok t) : t.queue = s.queue := by
  unfold Mt.wake at done
  split at done
  · cases done
    rfl
  · obtain ⟨sched, _, same⟩ := bind_ok.mp done
    cases same
    rfl

theorem park_queue (s : Mt.State n) (f : Fin n) : (Mt.park s f).queue = s.queue := by
  unfold Mt.park
  split <;> rfl

theorem completeAll_queue {cqes : List Nat} (done : cqes.foldlM Mt.complete s = .ok t) :
    t.queue = s.queue := by
  induction cqes generalizing s with
  | nil =>
    cases done
    rfl
  | cons op cqes ih =>
    obtain ⟨w, completed, rest⟩ := bind_ok.mp done
    refine (ih rest).trans ?_
    unfold Mt.complete at completed
    split at completed
    · cases completed
      rfl
    · dsimp only at completed
      split at completed
      · exact (wake_queue completed :)
      · cases completed
        rfl

theorem follows_call {f : Fin n} {c : Mt.Call n} (counts : Counts s.queue u)
    (fits : Fits cfg s (.call c))
    (done : Mt.call cfg.totalIoFibers cfg.submitAlways s f c = .ok t) :
    Follows cfg u t.queue := by
  cases c with
  | newOp op | finish =>
    cases done
    exact .refl counts
  | io op lucky =>
    obtain ⟨q, called, same⟩ := bind_ok.mp done
    cases same
    obtain ⟨answers, v, answered, counts'⟩ := counts.io fits.2 fits.1 called
    rw [park_queue]
    exact .call (c := .io _ lucky answers) (Option.map_eq_some_iff.mpr ⟨v, answered, rfl⟩) counts'
      trivial
  | ioBatch k op =>
    obtain ⟨q, called, same⟩ := bind_ok.mp done
    cases same
    obtain ⟨answers, v, answered, counts', covers⟩ := counts.ioBatch fits called
    rw [park_queue]
    exact .call (c := .ioBatch k answers) (Option.map_eq_some_iff.mpr ⟨v, answered, rfl⟩) counts'
      covers
  | checkSubmit lucky =>
    obtain ⟨q, called, same⟩ := bind_ok.mp done
    cases same
    obtain ⟨answers, v, answered, counts'⟩ := counts.checkSubmit called
    exact .call (c := .checkSubmit lucky answers) (Option.map_eq_some_iff.mpr ⟨v, answered, rfl⟩)
      counts' trivial
  | yield =>
    obtain ⟨sched, _, same⟩ := bind_ok.mp done
    cases same
    exact .refl counts
  | park =>
    cases done
    exact .refl (park_queue s f ▸ counts)
  | wake g => exact .refl (wake_queue done ▸ counts)

theorem follows_flush (counts : Counts s.queue u) (done : Mt.flush s = .ok t) :
    Follows cfg u t.queue := by
  have flushes : ∀ {q}, s.queue.flushPendingBeforePark = .ok q → Follows cfg u q := by
    intro q flushed
    obtain ⟨answers, v, answered, counts'⟩ := counts.flush flushed
    exact .call (c := .flushPendingBeforePark answers)
      (Option.map_eq_some_iff.mpr ⟨v, answered, rfl⟩) counts' trivial
  unfold Mt.flush at done
  split at done
  · obtain ⟨q, flushed, same⟩ := bind_ok.mp done
    cases same
    exact flushes flushed
  split at done
  · obtain ⟨q, flushed, same⟩ := bind_ok.mp done
    cases same
    exact flushes flushed
  · cases done
    exact .refl counts

theorem follows_drainCqe {cqes : List Nat} (counts : Counts s.queue u)
    (inside : cqes.Subperm s.queue.kernel) (busy : s.queue.submittedIo ≠ 0)
    (done : Mt.drainCqe s cqes = .ok t) : Follows cfg u t.queue := by
  rw [Mt.drainCqe, if_neg busy] at done
  obtain ⟨w, completed, same⟩ := bind_ok.mp done
  cases same
  obtain ⟨v, drained, counts'⟩ := counts.drainCqe inside busy
  rw [completeAll_queue completed]
  exact .call (c := .drainCqe cqes.length) (Option.map_eq_some_iff.mpr ⟨v, drained, rfl⟩) counts'
    trivial

/-- A fault leaves the queue. -/
theorem follows_settle {phase : Mt.Phase} {result : Except Fault (Mt.State n)}
    (counts : Counts s.queue u) (done : ∀ t, result = .ok t → Follows cfg u t.queue) :
    Follows cfg u (Mt.settle s phase result).queue := by
  cases result with
  | ok t => exact done t rfl
  | error fault => exact .refl counts

/-- **One step of the reactor is a call here or none.** -/
theorem follows_step {label : Mt.Act n × Unit} (counts : Counts s.queue u)
    (fits : Fits cfg s label.1)
    (stepped : (Mt.system n cfg.totalIoFibers cfg.submitAlways).step s label t) :
    Follows cfg u t.queue := by
  obtain ⟨act, ⟨⟩⟩ := label
  change Mt.exec _ _ s act = some (t, ()) at stepped
  -- only a call, the flush and the drain touch the queue
  cases act with simp only [Mt.exec] at stepped
  | wakeHook f =>
    split at stepped <;> cases stepped
    exact follows_settle counts fun w woken => .refl (wake_queue woken ▸ counts)
  | begin | loop =>
    split at stepped <;> cases stepped
    exact .refl counts
  | resume =>
    split at stepped <;> cases stepped
    refine follows_settle counts fun w resumed => ?_
    cases popped : s.sched.resume <;> rw [popped] at resumed <;> cases resumed
    exact .refl counts
  | call c =>
    split at stepped <;> cases stepped
    exact follows_settle counts fun w called => follows_call counts fits called
  | flush =>
    split at stepped <;> cases stepped
    exact follows_settle counts fun w flushed => follows_flush counts flushed
  | drain cqes =>
    split at stepped
    next here =>
      split at stepped <;> cases stepped
      next busy =>
        exact follows_settle counts fun w drained => follows_drainCqe counts here.2 busy drained
      next => exact .refl counts
    next => cases stepped

/-- **The queue of the reactor is that of a run of this system** whose batches are submitted
completely. -/
theorem reactor_follows {labels : List (Mt.Act n × Unit)}
    (reached : (Mt.system n cfg.totalIoFibers cfg.submitAlways).Reaches
      (fun s label => Fits cfg s label.1) labels s) :
    ∃ calls u, (system cfg).Reaches (fun s label => s.Covers label.1) calls u ∧
      Counts s.queue u := by
  refine reached.invariant (P := fun s => ∃ calls u,
    (system cfg).Reaches (fun s label => s.Covers label.1) calls u ∧ Counts s.queue u)
    (fun s start => ?_) ?_
  · refine ⟨[], initial, ⟨initial, rfl, .nil _⟩, ?_⟩
    rw [start.queue]
    exact ⟨rfl, fun _ none => absurd none List.not_mem_nil, Nat.le_refl 0, rfl, rfl, rfl, rfl⟩
  · rintro s label t ⟨calls, u, reached, counts⟩ fits stepped
    obtain ⟨more, v, path, counts'⟩ := follows_step counts fits stepped
    exact ⟨calls ++ more, v, reached.extend path, counts'⟩

end

end UringDb.Reactor.Submission
