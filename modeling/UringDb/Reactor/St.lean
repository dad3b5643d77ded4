import UringDb.Lib.Guard
import UringDb.Lib.Run
import UringDb.Reactor.Base

/-!
# The single-threaded io_uring reactor

The fibers run any program over the reactor's calls, as `handleFault` and `handleWait` use them:
every `io` and every `io_batch` has an `Op` of its own on the fiber's stack, and a fiber that
waits for another fiber's page parks and is woken by that fiber.

Unlike the multi-threaded reactor, `run` never submits. What is prepared reaches the kernel only
when some fiber calls `check_submit` or `io_batch`, so the reactor can get stuck on prepared
entries. It does not if enough fibers keep doing I/O.
-/
namespace UringDb.Reactor.St

/-! ### Submission queue and counters -/

structure Queue where
  queued : List Nat
  kernel : List Nat
  outstandingIo : Int
  toSubmit : Int
  fibersSinceFirstIo : Int

namespace Queue

def submit (q : Queue) : Queue :=
  { q with
    queued := []
    kernel := q.kernel ++ q.queued
    toSubmit := 0
    fibersSinceFirstIo := 0 }

def checkSubmit (total : Int) (always : Bool) (q : Queue) (lucky : Bool) : Except Fault Queue :=
  if q.toSubmit = 0 then .ok q
  else if always then
    -- this branch leaves `fibers_since_first_io` as it is
    .ok { q.submit with fibersSinceFirstIo := q.fibersSinceFirstIo }
  else do
    let q :=
      if 0 < q.toSubmit then { q with fibersSinceFirstIo := q.fibersSinceFirstIo + 1 } else q
    let submit ← doSubmit total q.fibersSinceFirstIo q.toSubmit lucky
    if submit then .ok q.submit else .ok q

def io (total : Int) (always : Bool) (q : Queue) (op : Nat) (lucky : Bool) : Except Fault Queue :=
  { q with
    queued := q.queued ++ [op]
    outstandingIo := q.outstandingIo + 1
    toSubmit := q.toSubmit + 1 }.checkSubmit total always lucky

def ioBatch (q : Queue) (k op : Nat) : Except Fault Queue :=
  if k = 0 then .error .emptyBatch
  else
    .ok { q with
      queued := q.queued ++ List.replicate k op
      outstandingIo := q.outstandingIo + k }.submit

end Queue

/-! ### The reactor -/

structure Op (n : Nat) where
  ctx : Option (Fin n)
  cqeLeft : Int

/-- Where `run` is in its loop. -/
inductive Phase where
  | top
  | fibers (left : Nat)
  | drain
  | failed (fault : Fault)
  deriving DecidableEq, Repr

structure State (n : Nat) where
  sched : Sched n
  /-- The `Op` of the I/O call a parked fiber is in, and `none` for a plain `park`. -/
  waitsFor : Fin n → Option Nat
  phase : Phase
  ops : Nat → Op n
  /-- The number of `Op` objects so far; each call takes the next one. -/
  nextOp : Nat
  queue : Queue

inductive Call (n : Nat) where
  | io (lucky : Bool)
  | ioBatch (k : Nat)
  | checkSubmit (lucky : Bool)
  | yield
  | park
  | wake (f : Fin n)
  | finish

inductive Act (n : Nat) where
  | begin
  | resume
  | call (c : Call n)
  | leave
  /-- `drain_cqe` finds these completions. -/
  | drain (cqes : List Nat)

section

variable {n : Nat}

def wake (s : State n) (f : Fin n) : Except Fault (State n) := do
  let sched ← s.sched.wake f
  .ok { s with sched := sched }

/-- The fiber `f` parks in an I/O call that uses the next `Op` for `cqeLeft` completions. -/
def parkOn (s : State n) (f : Fin n) (queue : Queue) (cqeLeft : Int) : State n :=
  { s with
    sched := s.sched.park f
    waitsFor := Function.update s.waitsFor f (some s.nextOp)
    ops := Function.update s.ops s.nextOp ⟨some f, cqeLeft⟩
    nextOp := s.nextOp + 1
    queue := queue }

/-- The effect of `c`, called by the running fiber `f`. -/
def call (total : Int) (always : Bool) (s : State n) (f : Fin n) (c : Call n) :
    Except Fault (State n) :=
  match c with
  | .io lucky => do
    let queue ← s.queue.io total always s.nextOp lucky
    .ok (parkOn s f queue 1)
  | .ioBatch k => do
    let queue ← s.queue.ioBatch k s.nextOp
    .ok (parkOn s f queue k)
  | .checkSubmit lucky => do
    let queue ← s.queue.checkSubmit total always lucky
    .ok { s with queue := queue }
  | .yield => do
    let sched ← s.sched.yield f
    .ok { s with sched := sched }
  | .park =>
    .ok { s with sched := s.sched.park f, waitsFor := Function.update s.waitsFor f none }
  | .wake g => wake s g
  | .finish => .ok { s with sched := s.sched.finish f }

/-- One completion: the last one of an operation wakes the fiber. -/
def complete (s : State n) (op : Nat) : Except Fault (State n) :=
  let left := (s.ops op).cqeLeft - 1
  let s := { s with queue := { s.queue with kernel := s.queue.kernel.erase op } }
  match (s.ops op).ctx with
  | none => .ok s
  | some f =>
    let s := { s with ops := Function.update s.ops op ⟨some f, left⟩ }
    if left = 0 then wake s f else .ok s

def drainCqe (s : State n) (cqes : List Nat) : Except Fault (State n) :=
  if s.queue.outstandingIo = 0 then .ok s
  else do
    let s ← cqes.foldlM complete s
    .ok { s with queue :=
      { s.queue with outstandingIo := s.queue.outstandingIo - cqes.length } }

/-- A fault ends the run. -/
def settle (s : State n) (phase : Phase) : Except Fault (State n) → State n
  | .ok t => { t with phase := phase }
  | .error fault => { s with phase := .failed fault }

def exec (total : Int) (always : Bool) (s : State n) : Act n → Option (State n × Unit)
  | .begin =>
    if s.phase = .top then some ({ s with phase := .fibers s.sched.ready.length }, ()) else none
  | .resume =>
    match s.phase, s.sched.current with
    | .fibers (left + 1), none =>
      some (settle s (.fibers left) (s.sched.resume.map fun sched => { s with sched := sched }), ())
    | _, _ => none
  | .call c =>
    match s.phase, s.sched.current with
    | .fibers _, some f => some (settle s s.phase (call total always s f c), ())
    | _, _ => none
  | .leave =>
    if s.phase = .fibers 0 ∧ s.sched.current = none then some ({ s with phase := .drain }, ())
    else none
  | .drain cqes =>
    if s.phase = .drain ∧ cqes.Subperm s.queue.kernel then
      some (settle s .top (drainCqe s cqes), ())
    else none

/-- All fibers are spawned, and nothing is outstanding. -/
structure Initial (s : State n) : Prop where
  phase : s.phase = .top
  current : s.sched.current = none
  nodup : s.sched.ready.Nodup
  fits : s.sched.ready.length ≤ maxFibers
  spawned : ∀ f, f ∈ s.sched.ready ∧ s.sched.state f = .ready
  nextOp : s.nextOp = 0
  queue : s.queue = ⟨[], [], 0, 0, 0⟩

end

/-- `always` is the setting `submit_always`. -/
def system (n : Nat) (total : Int) (always : Bool) : System (State n) (Act n × Unit) :=
  System.ofStep Initial (exec total always)

/-! ### Getting stuck -/

section

variable {n : Nat}

/-- No fiber runs or is ready, an entry is prepared, and nothing is outstanding that could wake
a fiber. -/
def Stuck (s : State n) : Prop :=
  s.sched.current = none ∧ s.sched.ready = [] ∧ s.queue.queued ≠ [] ∧ s.queue.kernel = []

instance (s : State n) : Decidable (Stuck s) := inferInstanceAs (Decidable (_ ∧ _ ∧ _ ∧ _))

/-- A fiber that has not finished and does not wait for another fiber. -/
def Active (s : State n) (f : Fin n) : Prop :=
  s.sched.state f ≠ .finished ∧ ¬ (s.sched.state f = .parked ∧ s.waitsFor f = none)

instance (s : State n) (f : Fin n) : Decidable (Active s f) :=
  inferInstanceAs (Decidable (_ ∧ _))

def active (s : State n) : Nat := (Finset.univ.filter (Active s)).card

/-- The side condition: a step that leaves prepared entries behind leaves as many active fibers
as the heuristic counts on. -/
def Calm (total : Int) (always : Bool) (s : State n) : Act n → Prop
  | .call (.io lucky) =>
    always = true ∨
      doSubmit total (s.queue.fibersSinceFirstIo + 1) (s.queue.toSubmit + 1) lucky = .ok true ∨
        total ≤ active s
  | .call .park => s.queue.queued = [] ∨ total + 1 ≤ active s
  | .call .finish => s.queue.queued = [] ∨ total + 1 ≤ active s
  | _ => True

end

/-! ### Counters -/

structure Queue.Ok (total : Int) (q : Queue) : Prop where
  queued : q.toSubmit = q.queued.length
  behind : q.toSubmit ≤ q.fibersSinceFirstIo
  below : q.fibersSinceFirstIo < total

/-- The entries of `op` that are prepared or submitted and not completed. -/
def Queue.inFlight (q : Queue) (op : Nat) : Nat := q.queued.count op + q.kernel.count op

namespace Queue

variable {total : Int} {q q' : Queue} {op : Nat} {always lucky : Bool}

theorem submit_ok (positive : 0 < total) : q.submit.Ok total :=
  ⟨rfl, Int.le_refl 0, positive⟩

theorem submit_inFlight : q.submit.inFlight op = q.inFlight op := by
  simp [submit, inFlight, Nat.add_comm]

/-- `check_submit`, also in the middle of `io`. Either everything is submitted or it is decided
not to submit. -/
theorem checkSubmit_spec (queued : q.toSubmit = q.queued.length) (since : 0 ≤ q.fibersSinceFirstIo)
    (behind : q.toSubmit ≤ q.fibersSinceFirstIo + 1) (below : q.fibersSinceFirstIo < total)
    (done : q.checkSubmit total always lucky = .ok q') :
    q'.Ok total ∧ (∀ op, q'.inFlight op = q.inFlight op) ∧
      (q'.queued = [] ∨ (q'.queued = q.queued ∧ ¬ always = true ∧
        doSubmit total (q.fibersSinceFirstIo + 1) q.toSubmit lucky = .ok false)) := by
  unfold checkSubmit at done
  split at done
  next none =>
    cases done
    exact ⟨⟨queued, by omega, below⟩, fun _ => rfl,
      Or.inl (List.eq_nil_of_length_eq_zero (by omega))⟩
  split at done
  next =>
    cases done
    exact ⟨⟨rfl, since, below⟩, fun _ => submit_inFlight (q := q), Or.inl rfl⟩
  next sometimes =>
    rw [if_pos (by omega)] at done
    obtain ⟨submit, decided, done⟩ := bind_ok.mp done
    cases submit with
    | true =>
      cases done
      exact ⟨submit_ok (by omega), fun _ => submit_inFlight, Or.inl rfl⟩
    | false =>
      cases done
      have low := doSubmit_false (Int.add_one_le_of_lt below) decided
      exact ⟨⟨queued, behind, low⟩, fun _ => rfl, Or.inr ⟨rfl, sometimes, decided⟩⟩

theorem io_spec (ok : q.Ok total) (done : q.io total always op lucky = .ok q') :
    q'.Ok total ∧ (∀ o, q'.inFlight o = q.inFlight o + if o = op then 1 else 0) ∧
      (q'.queued = [] ∨ ¬ always = true ∧
        doSubmit total (q.fibersSinceFirstIo + 1) (q.toSubmit + 1) lucky = .ok false) := by
  have queued := ok.queued
  have behind := ok.behind
  unfold io at done
  obtain ⟨ok', same, left⟩ := checkSubmit_spec (by simp [queued]) (by simp only []; omega)
    (by simp only []; omega) (by exact ok.below) done
  refine ⟨ok', fun o => ?_, left.imp_right And.right⟩
  rw [same]
  simp only [inFlight, List.count_append, List.count_singleton, beq_iff_eq]
  simp only [eq_comm (a := op)]
  omega

theorem ioBatch_spec {k : Nat} (ok : q.Ok total) (done : q.ioBatch k op = .ok q') :
    q'.Ok total ∧ (∀ o, q'.inFlight o = q.inFlight o + if o = op then k else 0) ∧
      q'.queued = [] ∧ 0 < k := by
  have queued := ok.queued
  have behind := ok.behind
  have below := ok.below
  unfold ioBatch at done
  split at done <;> cases done
  next some =>
    refine ⟨submit_ok (by omega), fun o => ?_, rfl, Nat.pos_of_ne_zero some⟩
    rw [submit_inFlight]
    simp only [inFlight, List.count_append, List.count_replicate, beq_iff_eq]
    simp only [eq_comm (a := op)]
    omega

end Queue

/-! ### Fibers in I/O calls -/

section

variable {n : Nat} {total : Int} {always : Bool} {s t : State n}

/-- The completions an `Op` waits for are in flight, and a fiber in an I/O call waits for some. -/
structure Ledger (s : State n) : Prop where
  left : ∀ op < s.nextOp, (s.ops op).cqeLeft = s.queue.inFlight op
  ctx : ∀ op < s.nextOp, (s.ops op).ctx ≠ none
  fresh : ∀ op, s.nextOp ≤ op → s.queue.inFlight op = 0
  waits : ∀ f op, s.sched.state f = .parked → s.waitsFor f = some op →
    op < s.nextOp ∧ (s.ops op).ctx = some f ∧ 0 < (s.ops op).cqeLeft

theorem Ledger.mono (ledger : Ledger s) (nextOp : t.nextOp = s.nextOp) (ops : t.ops = s.ops)
    (same : ∀ op, t.queue.inFlight op = s.queue.inFlight op)
    (parked : ∀ f op, t.sched.state f = .parked → t.waitsFor f = some op →
      s.sched.state f = .parked ∧ s.waitsFor f = some op) : Ledger t := by
  refine ⟨fun op old => ?_, fun op old => ?_, fun op new => ?_, fun f op here on => ?_⟩
  · rw [ops, same]
    exact ledger.left op (nextOp ▸ old)
  · rw [ops]
    exact ledger.ctx op (nextOp ▸ old)
  · rw [same]
    exact ledger.fresh op (nextOp ▸ new)
  · obtain ⟨here, on⟩ := parked f op here on
    rw [ops, nextOp]
    exact ledger.waits f op here on

theorem Ledger.parkOn (ledger : Ledger s) (f : Fin n) {q : Queue} {k : Nat} (some : 0 < k)
    (more : ∀ o, q.inFlight o = s.queue.inFlight o + if o = s.nextOp then k else 0) :
    Ledger (parkOn s f q k) := by
  refine ⟨fun op old => ?_, fun op old => ?_, fun op new => ?_, fun g op here on => ?_⟩
  · simp only [St.parkOn] at old ⊢
    rw [more]
    by_cases self : op = s.nextOp
    · simp [self, ledger.fresh s.nextOp (Nat.le_refl _)]
    · simp [self, ledger.left op (by omega)]
  · simp only [St.parkOn] at old ⊢
    by_cases self : op = s.nextOp
    · simp [self]
    · simp [self, ledger.ctx op (by omega)]
  · simp only [St.parkOn] at new ⊢
    rw [more, ledger.fresh op (by omega), if_neg (by omega)]
  · simp only [St.parkOn] at here on ⊢
    by_cases self : g = f
    · subst self
      simp only [Function.update_self, Option.some.injEq] at on
      subst on
      simpa using some
    · simp only [Sched.park, Sched.setState, Function.update_of_ne self] at here on
      obtain ⟨old, ctx, waiting⟩ := ledger.waits g op here on
      rw [Function.update_of_ne (by omega)]
      exact ⟨by omega, ctx, waiting⟩

theorem Ledger.complete {op : Nat} {f : Fin n} {sched : Sched n} (ledger : Ledger s)
    (inside : op ∈ s.queue.kernel) (ctx : (s.ops op).ctx = some f)
    (grows : Sched.Woken s.sched sched)
    (last : (s.ops op).cqeLeft - 1 = 0 → sched.state f ≠ .parked) :
    Ledger { s with
      sched := sched
      queue := { s.queue with kernel := s.queue.kernel.erase op }
      ops := Function.update s.ops op ⟨some f, (s.ops op).cqeLeft - 1⟩ } := by
  have some : 0 < s.queue.kernel.count op := List.count_pos_iff.mpr inside
  have less : (s.queue.kernel.erase op).count op = s.queue.kernel.count op - 1 :=
    List.count_erase_self
  refine ⟨fun o old => ?_, fun o old => ?_, fun o new => ?_, fun g o here on => ?_⟩
  · have left := ledger.left o old
    by_cases self : o = op
    · subst self
      simp only [Queue.inFlight, Function.update_self] at left ⊢
      omega
    · simpa [Queue.inFlight, self, List.count_erase_of_ne self] using left
  · by_cases self : o = op
    · simp [self]
    · simpa [self] using ledger.ctx o old
  · have none := ledger.fresh o new
    by_cases self : o = op
    · subst self
      simp only [Queue.inFlight] at none
      omega
    · simpa [Queue.inFlight, List.count_erase_of_ne self] using none
  · have parked : s.sched.state g = .parked := by
      rcases grows.state g with same | moved
      · exact same ▸ here
      · rw [moved.2] at here
        cases here
    obtain ⟨old, ctx', waiting⟩ := ledger.waits g o parked on
    by_cases self : o = op
    · subst self
      obtain rfl : f = g := Option.some.inj (ctx.symm.trans ctx')
      have more : (s.ops o).cqeLeft - 1 ≠ 0 := fun zero => last zero here
      refine ⟨old, by simp, ?_⟩
      simp only [Function.update_self]
      omega
    · simpa [self] using ⟨old, ctx', waiting⟩

theorem active_mono (stays : ∀ f, Active s f → Active t f) : active s ≤ active t :=
  Finset.card_le_card (Finset.monotone_filter_right _ fun f _ => stays f)

theorem active_le_succ {f : Fin n} (stays : ∀ g, g ≠ f → Active s g → Active t g) :
    active s ≤ active t + 1 := by
  have subset : Finset.univ.filter (Active s) ⊆ insert f (Finset.univ.filter (Active t)) := by
    intro g member
    by_cases self : g = f
    · simp [self]
    · simp only [Finset.mem_filter, Finset.mem_univ, true_and, Finset.mem_insert] at member ⊢
      exact Or.inr (stays g self member)
  exact (Finset.card_le_card subset).trans (Finset.card_insert_le _ _)

/-- Where no fiber runs or is ready and the kernel has nothing, each active fiber has an entry of
its own among the prepared ones. -/
theorem active_le_queued (ledger : Ledger s) (ok : s.sched.Ok) (free : s.sched.current = none)
    (idle : s.sched.ready = []) (none : s.queue.kernel = []) :
    active s ≤ s.queue.queued.length := by
  have waiting : ∀ f, Active s f → ∃ op ∈ s.queue.queued, s.waitsFor f = some op ∧
      (s.ops op).ctx = some f := by
    intro f live
    have parked : s.sched.state f = .parked := by
      cases here : s.sched.state f with
      | ready => simp [← ok.ready, idle] at here
      | running => simp [ok.running, free] at here
      | finished => exact absurd here live.1
      | parked => rfl
    cases on : s.waitsFor f with
    | none => exact absurd ⟨parked, on⟩ live.2
    | some op =>
      obtain ⟨old, ctx, left⟩ := ledger.waits f op parked on
      have flying := ledger.left op old
      rw [Queue.inFlight, none, List.count_nil] at flying
      exact ⟨op, List.count_pos_iff.mp (by omega), rfl, ctx⟩
  -- the entry of a fiber determines the fiber
  calc active s ≤ s.queue.queued.toFinset.card := by
        refine Finset.card_le_card_of_injOn (fun f => (s.waitsFor f).getD 0) ?_ ?_
        · intro f member
          obtain ⟨op, inside, on, _⟩ := waiting f (by simpa using member)
          simpa [on] using inside
        · intro f first g second same
          obtain ⟨op, _, on, ctx⟩ := waiting f (by simpa using first)
          obtain ⟨op', _, on', ctx'⟩ := waiting g (by simpa using second)
          simp only [on, on', Option.getD_some] at same
          subst same
          exact Option.some.inj (ctx.symm.trans ctx')
    _ ≤ s.queue.queued.length := List.toFinset_card_le _

/-! ### Whole runs -/

/-- The part of the invariant that does not depend on where `run` is. -/
structure Core (total : Int) (s : State n) : Prop where
  queue : s.queue.Ok total
  sched : s.sched.Ok
  ledger : Ledger s
  busy : s.queue.queued ≠ [] → total ≤ active s

def Phase.Ok (sched : Sched n) : Phase → Prop
  | .top => sched.current = none
  | .fibers left => left ≤ sched.ready.length
  | .drain => sched.current = none
  | .failed _ => True

structure Inv (total : Int) (s : State n) : Prop where
  few : n ≤ maxFibers
  core : Core total s
  phase : s.phase.Ok s.sched

theorem Core.atPhase (core : Core total s) (phase : Phase) : Core total { s with phase := phase } :=
  ⟨core.queue, core.sched, ⟨core.ledger.left, core.ledger.ctx, core.ledger.fresh,
    core.ledger.waits⟩, core.busy⟩

theorem Core.resume {f : Fin n} {rest : List (Fin n)} (core : Core total s)
    (free : s.sched.current = none) (first : s.sched.ready = f :: rest) :
    Core total { s with sched := ⟨Function.update s.sched.state f .running, rest, some f⟩ } := by
  refine ⟨core.queue, core.sched.resume free first,
    core.ledger.mono rfl rfl (fun _ => rfl) fun g op here on => ?_, fun some => ?_⟩
  · by_cases self : g = f
    · simp [self] at here
    · simp only [Function.update_of_ne self] at here
      exact ⟨here, on⟩
  · refine (core.busy some).trans (Int.ofNat_le.mpr (active_mono fun g live => ?_))
    by_cases self : g = f
    · simp [Active, self]
    · simpa [Active, self] using live

theorem Core.woken {sched : Sched n} (core : Core total s) (ok : sched.Ok)
    (grows : Sched.Woken s.sched sched) : Core total { s with sched := sched } := by
  refine ⟨core.queue, ok, core.ledger.mono rfl rfl (fun _ => rfl) fun f op here on => ?_,
    fun some => ?_⟩
  · rcases grows.state f with same | moved
    · exact ⟨same ▸ here, on⟩
    · rw [moved.2] at here
      cases here
  · refine (core.busy some).trans (Int.ofNat_le.mpr (active_mono fun f live => ?_))
    rcases grows.state f with same | moved
    · simp only [Active, same]
      exact live
    · simp [Active, moved.2]

theorem Core.wake (few : n ≤ maxFibers) (core : Core total s) (f : Fin n) :
    ∃ sched, wake s f = .ok { s with sched := sched } ∧ Core total { s with sched := sched } ∧
      Sched.Woken s.sched sched := by
  obtain ⟨sched, woken, ok, grows, _⟩ := core.sched.wake few f
  refine ⟨sched, ?_, core.woken ok grows, grows⟩
  simp only [St.wake, woken]
  rfl

theorem Core.parkOn {f : Fin n} {q : Queue} {k : Nat} (core : Core total s)
    (at_ : s.sched.current = some f) (queue : q.Ok total) (some : 0 < k)
    (more : ∀ o, q.inFlight o = s.queue.inFlight o + if o = s.nextOp then k else 0)
    (busy : q.queued ≠ [] → total ≤ active s) : Core total (parkOn s f q k) := by
  refine ⟨queue, core.sched.leave at_ ⟨by decide, by decide⟩,
    core.ledger.parkOn f some more, ?_⟩
  intro left
  refine (busy left).trans (Int.ofNat_le.mpr (active_mono fun g live => ?_))
  by_cases self : g = f
  · subst self
    simp [Active, St.parkOn, Sched.park, Sched.setState]
  · simpa [Active, St.parkOn, Sched.park, Sched.setState, self] using live

theorem Core.stop {f : Fin n} {state : FiberState} {waitsFor : Fin n → Option Nat}
    (core : Core total s) (at_ : s.sched.current = some f)
    (waits : state ≠ .ready ∧ state ≠ .running) (plain : state = .parked → waitsFor f = none)
    (others : ∀ g, g ≠ f → waitsFor g = s.waitsFor g)
    (calm : s.queue.queued = [] ∨ total + 1 ≤ active s) :
    Core total { s with
      sched := { s.sched.setState f state with current := none }, waitsFor := waitsFor } := by
  refine ⟨core.queue, core.sched.leave at_ waits, core.ledger.mono rfl rfl (fun _ => rfl) ?_, ?_⟩
  · intro g op here on
    by_cases self : g = f
    · subst self
      simp only [Sched.setState, Function.update_self] at here on
      rw [plain here] at on
      cases on
    · simp only [Sched.setState, Function.update_of_ne self, others g self] at here on
      exact ⟨here, on⟩
  · intro some
    rcases calm with none | enough
    · exact absurd none some
    · have fewer : active s ≤ active { s with
          sched := { s.sched.setState f state with current := none }, waitsFor := waitsFor } + 1 :=
        active_le_succ (f := f) fun g self live => by
          simpa [Active, Sched.setState, Function.update_of_ne self, others g self] using live
      omega

theorem core_call {f : Fin n} {c : Call n} (few : n ≤ maxFibers) (core : Core total s)
    (at_ : s.sched.current = some f) (calm : Calm total always s (.call c))
    (done : call total always s f c = .ok t) :
    Core total t ∧ s.sched.ready.length ≤ t.sched.ready.length := by
  cases c with
  | io lucky =>
    obtain ⟨q, prepared, same⟩ := bind_ok.mp done
    cases same
    obtain ⟨queue, more, submits⟩ := Queue.io_spec core.queue prepared
    refine ⟨core.parkOn (k := 1) at_ queue Nat.one_pos more fun some => ?_, Nat.le_refl _⟩
    rcases submits with none | waits
    · exact absurd none some
    · rcases calm with submits | submits | enough
      · exact absurd submits waits.1
      · rw [waits.2] at submits
        cases submits
      · exact enough
  | ioBatch k =>
    obtain ⟨q, prepared, same⟩ := bind_ok.mp done
    cases same
    obtain ⟨queue, more, none, positive⟩ := Queue.ioBatch_spec core.queue prepared
    exact ⟨core.parkOn at_ queue positive more fun some => absurd none some, Nat.le_refl _⟩
  | checkSubmit lucky =>
    obtain ⟨q, checked, same⟩ := bind_ok.mp done
    cases same
    have queued := core.queue.queued
    have behind := core.queue.behind
    obtain ⟨queue, same, left⟩ := Queue.checkSubmit_spec queued (by omega) (by omega)
      core.queue.below checked
    refine ⟨⟨queue, core.sched, core.ledger.mono rfl rfl same fun _ _ here on => ⟨here, on⟩,
      fun some => ?_⟩, Nat.le_refl _⟩
    rcases left with none | ⟨unchanged, _⟩
    · exact absurd none some
    · exact core.busy (unchanged ▸ some)
  | yield =>
    obtain ⟨sched, yielded, ok, rfl⟩ := core.sched.yield few at_
    simp only [call, yielded] at done
    cases done
    refine ⟨⟨core.queue, ok, core.ledger.mono rfl rfl (fun _ => rfl) fun g op here on => ?_,
      fun some => ?_⟩, by simp⟩
    · by_cases self : g = f
      · simp [self] at here
      · simp only [Function.update_of_ne self] at here
        exact ⟨here, on⟩
    · refine (core.busy some).trans (Int.ofNat_le.mpr (active_mono fun g live => ?_))
      by_cases self : g = f
      · simp [Active, self]
      · simpa [Active, self] using live
  | park =>
    cases done
    exact ⟨core.stop at_ ⟨by decide, by decide⟩ (fun _ => Function.update_self ..)
      (fun g self => Function.update_of_ne self ..) calm, Nat.le_refl _⟩
  | wake g =>
    obtain ⟨sched, woken, core', grows⟩ := core.wake few g
    simp only [call, woken] at done
    cases done
    obtain ⟨more, longer⟩ := grows.ready
    exact ⟨core', by simp [longer]⟩
  | finish =>
    cases done
    exact ⟨core.stop at_ ⟨by decide, by decide⟩ (fun same => by cases same) (fun _ _ => rfl) calm,
      Nat.le_refl _⟩

theorem core_complete {op : Nat} (few : n ≤ maxFibers) (core : Core total s)
    (inside : op ∈ s.queue.kernel) :
    ∃ t, complete s op = .ok t ∧ Core total t ∧ t.sched.current = s.sched.current ∧
      t.queue = { s.queue with kernel := s.queue.kernel.erase op } := by
  have old : op < s.nextOp := by
    by_contra new
    have none := core.ledger.fresh op (by omega)
    have some := List.count_pos_iff.mpr inside
    simp only [Queue.inFlight] at none
    omega
  cases ctx : (s.ops op).ctx with
  | none => exact absurd ctx (core.ledger.ctx op old)
  | some f =>
    have queue : ({ s.queue with kernel := s.queue.kernel.erase op } : Queue).Ok total :=
      ⟨core.queue.queued, core.queue.behind, core.queue.below⟩
    obtain ⟨sched, woken, ok, grows, moved⟩ := core.sched.wake few f
    simp only [complete, ctx]
    split
    next last =>
      have woken := core.woken ok grows
      refine ⟨{ s with
        sched := sched
        queue := { s.queue with kernel := s.queue.kernel.erase op }
        ops := Function.update s.ops op ⟨some f, (s.ops op).cqeLeft - 1⟩ }, ?_, ?_, grows.current,
        rfl⟩
      · simp only [wake, ‹s.sched.wake f = _›]
        rfl
      · exact ⟨queue, ok, core.ledger.complete inside ctx grows fun _ => moved, woken.busy⟩
    next more =>
      refine ⟨_, rfl, ⟨queue, core.sched, ?_, core.busy⟩, rfl, rfl⟩
      exact core.ledger.complete inside ctx (.refl _) fun last => absurd last more

theorem core_completeAll (few : n ≤ maxFibers) (core : Core total s) {cqes : List Nat}
    (inside : cqes.Subperm s.queue.kernel) :
    ∃ t, cqes.foldlM complete s = .ok t ∧ Core total t ∧ t.sched.current = s.sched.current := by
  induction cqes generalizing s with
  | nil => exact ⟨s, rfl, core, rfl⟩
  | cons op cqes ih =>
    obtain ⟨t, done, core', current, queue⟩ :=
      core_complete few core (inside.subset List.mem_cons_self)
    have rest : cqes.Subperm t.queue.kernel := by
      have erased := inside.erase op
      rw [queue]
      simpa using erased
    obtain ⟨u, all, core'', current'⟩ := ih core' rest
    refine ⟨u, ?_, core'', current'.trans current⟩
    rw [List.foldlM_cons, done]
    exact all

/-- **One calm step keeps the invariant.** -/
theorem inv_step {label : Act n × Unit} (inv : Inv total s) (calm : Calm total always s label.1)
    (stepped : (system n total always).step s label t) : Inv total t := by
  obtain ⟨act, ⟨⟩⟩ := label
  obtain ⟨few, core, phase⟩ := inv
  change exec total always s act = some (t, ()) at stepped
  cases act with simp only [exec] at stepped
  | begin =>
    split at stepped <;> cases stepped
    exact ⟨few, core.atPhase _, Nat.le_refl _⟩
  | resume =>
    split at stepped <;> cases stepped
    next left here free =>
      rw [here] at phase
      cases first : s.sched.ready with
      | nil => simp [Phase.Ok, first] at phase
      | cons f rest =>
        simp only [Phase.Ok, first, List.length_cons] at phase
        simp only [Sched.resume, first]
        exact ⟨few, (core.resume free first).atPhase _, Nat.le_of_succ_le_succ phase⟩
  | call c =>
    split at stepped <;> cases stepped
    next left f here at_ =>
      rw [here] at phase
      cases result : call total always s f c with
      | ok u =>
        obtain ⟨core', longer⟩ := core_call few core at_ calm result
        refine ⟨few, core'.atPhase _, ?_⟩
        rw [here]
        exact Nat.le_trans phase longer
      | error fault => exact ⟨few, core.atPhase _, trivial⟩
  | leave =>
    split at stepped <;> cases stepped
    next here => exact ⟨few, core.atPhase _, here.2⟩
  | drain cqes =>
    split at stepped <;> cases stepped
    next here =>
      rw [here.1] at phase
      obtain ⟨u, done, core', current⟩ := core_completeAll few core here.2
      unfold drainCqe
      split
      next => exact ⟨few, core.atPhase _, phase⟩
      next =>
        rw [done]
        refine ⟨few, ⟨⟨core'.queue.queued, core'.queue.behind, core'.queue.below⟩, core'.sched,
          ⟨core'.ledger.left, core'.ledger.ctx, core'.ledger.fresh, core'.ledger.waits⟩,
          core'.busy⟩, ?_⟩
        exact current.trans phase

theorem inv_initial (positive : 1 ≤ total) (start : Initial s) : Inv total s := by
  have few : n ≤ maxFibers := by
    have all : (Finset.univ : Finset (Fin n)) ⊆ s.sched.ready.toFinset :=
      fun f _ => List.mem_toFinset.mpr (start.spawned f).1
    have bound := (Finset.card_le_card all).trans (List.toFinset_card_le _)
    rw [Finset.card_univ, Fintype.card_fin] at bound
    exact bound.trans start.fits
  have ok : s.sched.Ok := by
    refine ⟨start.nodup, fun f => ?_, fun f => ?_⟩
    · simp [start.spawned f]
    · simp [start.spawned f, start.current]
  refine ⟨few, ⟨?_, ok, ⟨?_, ?_, ?_, ?_⟩, ?_⟩, ?_⟩
  · rw [start.queue]
    exact ⟨rfl, Int.le_refl 0, positive⟩
  · simp [start.nextOp]
  · simp [start.nextOp]
  · simp [start.queue, Queue.inFlight]
  · simp [start.spawned]
  · simp [start.queue]
  · rw [start.phase]
    exact start.current

/-- Once stuck, always stuck: `run` goes round without resuming a fiber or submitting. -/
theorem stuck_step {label : Act n × Unit} (stuck : Stuck s)
    (stepped : (system n total always).step s label t) : Stuck t := by
  obtain ⟨act, ⟨⟩⟩ := label
  obtain ⟨free, idle, some, none⟩ := stuck
  change exec total always s act = Option.some (t, ()) at stepped
  cases act with
  | begin | leave =>
    simp only [exec] at stepped
    split at stepped <;> cases stepped
    exact ⟨free, idle, some, none⟩
  | resume =>
    simp only [exec, Sched.resume, idle] at stepped
    split at stepped <;> cases stepped
    exact ⟨free, idle, some, none⟩
  | call c => simp [exec, free] at stepped
  | drain cqes =>
    simp only [exec, none, List.subperm_nil] at stepped
    split at stepped <;> cases stepped
    next here =>
      rw [here.2, drainCqe]
      split <;> exact ⟨free, idle, some, none⟩

end

/-- **The reactor does not get stuck while enough fibers do I/O.** In every run in which each
step that leaves prepared entries behind leaves `total_io_fibers` fibers that have not finished
and do not wait for another fiber: the reactor never has an entry prepared, nothing submitted
and no fiber to run. -/
theorem reactor_not_stuck (n : Nat) (total : Int) (always : Bool) (positive : 1 ≤ total)
    (labels : List (Act n × Unit)) (s : State n)
    (reached : (system n total always).Reaches (fun s label => Calm total always s label.1)
      labels s) : ¬ Stuck s := by
  have inv : Inv total s := reached.invariant (fun _ => inv_initial positive)
    fun _ _ _ inv calm => inv_step inv calm
  rintro ⟨free, idle, some, none⟩
  have busy := inv.core.busy some
  have few := active_le_queued inv.core.ledger inv.core.sched free idle none
  have queued := inv.core.queue.queued
  have behind := inv.core.queue.behind
  have below := inv.core.queue.below
  omega

def spawned (n : Nat) : State n where
  sched := ⟨fun _ => .ready, List.finRange n, none⟩
  waitsFor _ := none
  phase := .top
  ops _ := ⟨none, 1⟩
  nextOp := 0
  queue := ⟨[], [], 0, 0, 0⟩

theorem initial_spawned {n : Nat} (few : n ≤ maxFibers) : Initial (spawned n) :=
  ⟨rfl, rfl, List.nodup_finRange n, by simpa [spawned] using few,
    fun f => ⟨List.mem_finRange f, rfl⟩, rfl, rfl⟩

instance {n : Nat} (total : Int) (always : Bool) (s : State n) (act : Act n) :
    Decidable (Calm total always s act) := by
  cases act with
  | call c => cases c <;> simp only [Calm] <;> infer_instance
  | _ => exact instDecidableTrue

/-- Of five fibers one prepares a read that is not submitted and another one waits for it. -/
def oneWaits : List (Act 5) := [.begin, .resume, .call (.io false), .resume, .call .park]

theorem reactor_not_stuck_five : ∃ labels s,
    (system 5 4 false).Reaches (fun s label => Calm 4 false s label.1) labels s ∧
      s.queue.queued = [0] ∧ ¬ Stuck s := by
  have passed : (drive (exec 4 false) (fun s act => decide (Calm 4 false s act)) (spawned 5)
      oneWaits).any (fun r => r.1.queue.queued = [0]) := by decide +kernel
  obtain ⟨s, labels, reached, tested⟩ :=
    drive_meets (system 5 4 false) rfl (initial_spawned (by decide)) passed
  exact ⟨labels, s, reached, of_decide_eq_true tested,
    reactor_not_stuck 5 4 false (by decide) labels s reached⟩

/-- Four fibers and `total_io_fibers` of four. The first one faults a page and its read is not
submitted; the others want the same page and wait for it. -/
def allWait : List (Act 4) :=
  [.begin, .resume, .call (.io false), .resume, .call .park, .resume, .call .park, .resume,
    .call .park]

theorem reactor_stuck : ∃ labels s, (system 4 4 false).Reaches System.anyStep labels s ∧ Stuck s ∧
    ∀ more t, (system 4 4 false).Path System.anyStep s more t → Stuck t := by
  have passed : (drive (exec 4 false) (fun _ _ => true) (spawned 4) allWait).any
      (fun r => decide (Stuck r.1)) := by decide +kernel
  obtain ⟨s, labels, reached, tested⟩ :=
    drive_anyStep (system 4 4 false) rfl (initial_spawned (by decide)) passed
  have stuck : Stuck s := of_decide_eq_true tested
  exact ⟨labels, s,
    reached, stuck,
    fun more t path => path.preserves (fun _ _ _ stuck _ => stuck_step stuck) stuck⟩

end UringDb.Reactor.St
