import UringDb.Lib.Run
import UringDb.Lib.SpscRing
import UringDb.Reactor.Base

/-!
# The scheduler over its ring buffer

`spawn`, `yield`, `park`, `wake` and the loop of `run` on one reactor, with the ready ring as the
buffer and the two wrapping counters of `SpscRing` and with the pending wake-ups. Everything here
happens on the reactor's own thread: other workers go through its wake channel. The state refines
the scheduler `Sched`, in which the ring is a list.
-/
namespace UringDb.Reactor

/-- The reactor and its `n` fibers. `left` is how many pops the `for` loop of `run` still makes; it
is zero outside of that loop. -/
structure Fibers (n : Nat) where
  state : Fin n → FiberState
  pendingWake : Fin n → Bool
  spawned : Fin n → Bool
  ready : SpscRing (Fin n) 8 64
  current : Option (Fin n)
  left : Nat

variable {n : Nat}

namespace Fibers

section Operations

variable (s : Fibers n)

def setState (f : Fin n) (state : FiberState) : Fibers n :=
  { s with state := Function.update s.state f state }

def setPendingWake (f : Fin n) (pending : Bool) : Fibers n :=
  { s with pendingWake := Function.update s.pendingWake f pending }

def setSpawned (f : Fin n) : Fibers n :=
  { s with spawned := Function.update s.spawned f true }

/-- Control goes back to the reactor. -/
def hop : Fibers n := { s with current := none }

def setReady (ready : SpscRing (Fin n) 8 64) : Fibers n := { s with ready := ready }

def push (f : Fin n) : Except Fault (Fibers n) :=
  match s.ready.push f with
  | none => .error .readyFull
  | some ready => .ok (s.setReady ready)

/-- A fiber is created with the state `Ready`; spawning it only enqueues it. -/
def spawn (f : Fin n) : Except Fault (Fibers n) := (s.setSpawned f).push f

def yield (f : Fin n) : Except Fault (Fibers n) :=
  ((s.setState f .ready).push f).map hop

def park (f : Fin n) : Fibers n :=
  let parked := (s.setState f .parked).setPendingWake f false
  if s.pendingWake f then parked.setState f .running else parked.hop

/-- The result says whether the wake-up had an effect. -/
def wake : Option (Fin n) → Except Fault (Fibers n × Bool)
  | none => .ok (s, false)
  | some f =>
    match s.state f with
    | .finished => .ok (s, false)
    | .parked => ((s.setState f .ready).push f).map fun t => (t, true)
    | .running => .ok (s.setPendingWake f true, true)
    | .ready => .ok (s, false)

def finish (f : Fin n) : Fibers n := (s.setState f .finished).hop

/-- `size_t n = ready_.size()` -/
def beginRound : Fibers n := { s with left := s.ready.size }

/-- The reactor hands the control to a fiber, in one of the iterations it has left. -/
def enter (f : Fin n) : Fibers n := { s with current := some f, left := s.left - 1 }

/-- One iteration of the `for` loop of `run`. -/
def resume : Except Fault (Fibers n) :=
  match s.ready.pop with
  | none => .error .readyEmpty
  | some (f, ready) => .ok (((s.setReady ready).enter f).setState f .running)

/-- Code that may call `spawn` and `wake` runs: a fiber, or the reactor outside of its loop, where
the hooks and the completions are. -/
def calls : Bool := s.current.isSome || s.left == 0

end Operations

inductive Action (n : Nat) where
  | spawn (f : Fin n)
  | yield
  | park
  | wake (f : Option (Fin n))
  | finish
  | beginRound
  | resume
  deriving DecidableEq

/-- The next step, if the action is possible. A fiber object is spawned once. -/
def step (s : Fibers n) : Action n → Option (Except Fault (Fibers n))
  | .spawn f => if s.calls && !s.spawned f then some (s.spawn f) else none
  | .yield => s.current.map s.yield
  | .park => s.current.map fun f => .ok (s.park f)
  | .wake f => if s.calls then some ((s.wake f).map Prod.fst) else none
  | .finish => s.current.map fun f => .ok (s.finish f)
  | .beginRound => if s.current = none ∧ s.left = 0 then some (.ok s.beginRound) else none
  | .resume => if s.current = none ∧ 0 < s.left then some s.resume else none

/-- No fiber is spawned yet and the ring is empty. The source starts its counters at zero; here
they start anywhere, so that short runs wrap them as well. -/
def Initial (s : Fibers n) : Prop :=
  (∀ f, s.state f = .ready ∧ s.spawned f = false) ∧ s.ready.head = s.ready.tail ∧
    s.current = none ∧ s.left = 0

def system (n : Nat) : System (Fibers n) (Action n) where
  init := Initial
  step s a t := s.step a = some (.ok t)

/-! ### The list-level scheduler -/

/-- A fiber that is not spawned yet is none of the scheduler's. -/
def sched (s : Fibers n) : Sched n where
  state f := if s.spawned f then s.state f else .finished
  ready := s.ready.toList
  current := s.current

structure Ok (s : Fibers n) : Prop where
  sched : s.sched.Ok
  fresh : ∀ f, s.spawned f = false → s.state f = .ready
  left : s.left ≤ s.ready.toList.length

variable {s t : Fibers n} {f : Fin n}

@[simp] theorem state_setState (state : FiberState) :
    (s.setState f state).state = Function.update s.state f state := rfl

@[simp] theorem pendingWake_setPendingWake (pending : Bool) :
    (s.setPendingWake f pending).pendingWake = Function.update s.pendingWake f pending := rfl

@[simp] theorem spawned_setSpawned :
    (s.setSpawned f).spawned = Function.update s.spawned f true := rfl

theorem sched_setState (owned : s.spawned f = true) (state : FiberState) :
    (s.setState f state).sched = s.sched.setState f state := by
  have same : (s.setState f state).sched.state = (s.sched.setState f state).state := by
    funext g
    by_cases self : g = f
    · subst self
      simp [Fibers.sched, setState, Sched.setState, owned]
    · simp [Fibers.sched, setState, Sched.setState, self]
  exact congrArg (Sched.mk · s.ready.toList s.current) same

theorem sched_setSpawned (fresh : s.state f = .ready) :
    (s.setSpawned f).sched = s.sched.setState f .ready := by
  have same : (s.setSpawned f).sched.state = (s.sched.setState f .ready).state := by
    funext g
    by_cases self : g = f
    · subst self
      simp [Fibers.sched, setSpawned, Sched.setState, fresh]
    · simp [Fibers.sched, setSpawned, Sched.setState, self]
  exact congrArg (Sched.mk · s.ready.toList s.current) same

theorem sched_state (owned : s.spawned f = true) : s.sched.state f = s.state f := if_pos owned

theorem Ok.spawned (ok : s.Ok) (other : s.state f ≠ .ready) : s.spawned f = true := by
  by_contra missing
  exact other (ok.fresh f (Bool.eq_false_of_not_eq_true missing))

theorem Ok.spawned_current (ok : s.Ok) (runs : s.current = some f) : s.spawned f = true := by
  have running : (if s.spawned f then s.state f else .finished) = .running :=
    (ok.sched.running f).mpr runs
  by_contra missing
  rw [if_neg missing] at running
  cases running

theorem Ok.state_current (ok : s.Ok) (runs : s.current = some f) : s.state f = .running := by
  rw [← sched_state (ok.spawned_current runs)]
  exact (ok.sched.running f).mpr runs

theorem Ok.size_le (ok : s.Ok) (few : n ≤ maxFibers) : s.ready.size ≤ 2 ^ 8 := by
  have bound := ok.sched.nodup.length_le_card
  rw [Fintype.card_fin] at bound
  rw [← SpscRing.length_toList]
  exact bound.trans few

theorem Ok.push (ok : s.Ok) (few : n ≤ maxFibers) (out : f ∉ s.ready.toList)
    (same : t.ready = s.ready) :
    ∃ ready, t.push f = .ok (t.setReady ready) ∧ ready.toList = s.ready.toList ++ [f] := by
  obtain ⟨ready, pushed⟩ := SpscRing.push_isSome (v := f) (ok.sched.length_lt few out)
  refine ⟨ready, ?_, SpscRing.push_toList (by decide) (ok.size_le few) pushed⟩
  rw [Fibers.push, same, pushed]

theorem Ok.enqueued (ok : s.Ok) {ready : SpscRing (Fin n) 8 64}
    (appended : ready.toList = s.ready.toList ++ [f])
    (sched : t.sched = ⟨Function.update s.sched.state f .ready, s.sched.ready, t.current⟩)
    (others : ∀ g, g ≠ f → (t.current = some g ↔ s.current = some g))
    (leaves : t.current ≠ some f) (out : f ∉ s.ready.toList) (left : t.left = s.left)
    (fresh : ∀ g, t.spawned g = false → t.state g = .ready) : (t.setReady ready).Ok := by
  have queued := ok.sched.enqueue out others leaves
  refine ⟨?_, fresh, ?_⟩
  · have same : (t.setReady ready).sched =
        ⟨Function.update s.sched.state f .ready, s.sched.ready ++ [f], t.current⟩ := by
      have states : t.sched.state = Function.update s.sched.state f .ready :=
        congrArg Sched.state sched
      rw [← states]
      exact congrArg (Sched.mk t.sched.state · t.current) appended
    rw [same]
    exact queued
  · have bound := ok.left
    change t.left ≤ ready.toList.length
    rw [appended, List.length_append]
    omega

/-! ### What a step does -/

/-- A step keeps the bookkeeping, and only a `park` of the fiber itself takes its pending wake. -/
structure Keeps (s : Fibers n) (a : Action n) (t : Fibers n) : Prop where
  ok : t.Ok
  pending : ∀ f, s.pendingWake f = true → ¬(a = .park ∧ s.current = some f) →
    t.pendingWake f = true

theorem Ok.spawn (ok : s.Ok) (few : n ≤ maxFibers) (new : s.spawned f = false) :
    ∃ t, s.spawn f = .ok t ∧ Keeps s (.spawn f) t := by
  have absent : s.sched.state f = .finished := if_neg (by simp [new])
  have out : f ∉ s.ready.toList := by
    change f ∉ s.sched.ready
    rw [ok.sched.ready, absent]
    exact (fun same => by cases same)
  have elsewhere : s.current ≠ some f := by
    intro runs
    rw [ok.spawned_current runs] at new
    cases new
  obtain ⟨ready, pushed, appended⟩ := ok.push few out (t := s.setSpawned f) rfl
  refine ⟨_, pushed, ?_, fun g pending _ => pending⟩
  refine ok.enqueued appended (sched_setSpawned (ok.fresh f new)) (fun _ _ => Iff.rfl) elsewhere out
    rfl (fun g missing => ok.fresh g ?_)
  by_cases self : g = f
  · rw [self]
    exact new
  · rwa [spawned_setSpawned, Function.update_of_ne self] at missing

theorem Ok.ready (ok : s.Ok) (few : n ≤ maxFibers) (other : s.state f ≠ .ready) :
    f ∉ s.ready.toList ∧ ∃ ready, (s.setState f .ready).push f =
      .ok ((s.setState f .ready).setReady ready) ∧ ready.toList = s.ready.toList ++ [f] := by
  have out : f ∉ s.ready.toList := by
    change f ∉ s.sched.ready
    rw [ok.sched.ready, sched_state (ok.spawned other)]
    exact other
  exact ⟨out, ok.push few out rfl⟩

theorem Ok.fresh_setState (ok : s.Ok) (owned : s.spawned f = true) (state : FiberState) (g : Fin n)
    (missing : s.spawned g = false) : (s.setState f state).state g = .ready := by
  have other : g ≠ f := by
    rintro rfl
    rw [owned] at missing
    cases missing
  rw [state_setState, Function.update_of_ne other]
  exact ok.fresh g missing

theorem Ok.yield (ok : s.Ok) (few : n ≤ maxFibers) (runs : s.current = some f) :
    ∃ t, s.yield f = .ok t ∧ Keeps s .yield t := by
  have running := ok.state_current runs
  obtain ⟨out, ready, pushed, appended⟩ := ok.ready few (f := f) (by rw [running]; decide)
  have owned := ok.spawned_current runs
  refine ⟨((s.setState f .ready).hop).setReady ready, ?_, ?_, fun g pending _ => pending⟩
  · rw [Fibers.yield, pushed]
    rfl
  · refine ok.enqueued appended ?_ (fun g other => ?_) (fun same => by cases same) out rfl
      (ok.fresh_setState owned .ready)
    · exact congrArg (fun sched : Sched n => (⟨sched.state, sched.ready, none⟩ : Sched n))
        (sched_setState owned .ready)
    · simp [hop, setState, runs, Ne.symm other]

theorem Ok.leave (ok : s.Ok) (runs : s.current = some f) {state : FiberState}
    (waits : state ≠ .ready ∧ state ≠ .running) : (s.setState f state).hop.Ok := by
  have owned := ok.spawned_current runs
  have same : (s.setState f state).hop.sched =
      { s.sched.setState f state with current := none } :=
    congrArg (fun sched : Sched n => (⟨sched.state, sched.ready, none⟩ : Sched n))
      (sched_setState owned state)
  refine ⟨?_, ok.fresh_setState owned state, ok.left⟩
  rw [same]
  exact ok.sched.leave runs waits

theorem Ok.finish (ok : s.Ok) (runs : s.current = some f) : Keeps s .finish (s.finish f) :=
  ⟨ok.leave runs (by decide), fun _ pending _ => pending⟩

theorem Ok.setPendingWake (ok : s.Ok) (f : Fin n) (pending : Bool) :
    (s.setPendingWake f pending).Ok := ⟨ok.sched, ok.fresh, ok.left⟩

/-- A pending wake-up lets the fiber run on, with everything else as it was. -/
theorem park_pending (ok : s.Ok) (runs : s.current = some f) (pending : s.pendingWake f = true) :
    s.park f = s.setPendingWake f false := by
  have running := ok.state_current runs
  have same : Function.update (Function.update s.state f .parked) f .running = s.state := by
    rw [Function.update_idem, ← running, Function.update_eq_self]
  rw [park, if_pos pending]
  exact congrArg (fun state => { s.setPendingWake f false with state := state }) same

theorem Ok.park (ok : s.Ok) (runs : s.current = some f) : Keeps s .park (s.park f) := by
  have kept : ∀ g, s.pendingWake g = true → ¬((.park : Action n) = .park ∧ s.current = some g) →
      (s.setPendingWake f false).pendingWake g = true := by
    intro g pending other
    have apart : g ≠ f := by
      rintro rfl
      exact other ⟨rfl, runs⟩
    rw [pendingWake_setPendingWake, Function.update_of_ne apart, pending]
  by_cases pending : s.pendingWake f = true
  · rw [park_pending ok runs pending]
    exact ⟨ok.setPendingWake f false, kept⟩
  · rw [Fibers.park, if_neg pending]
    exact ⟨(ok.leave runs (by decide)).setPendingWake f false, kept⟩

theorem Ok.wake (ok : s.Ok) (few : n ≤ maxFibers) (target : Option (Fin n)) :
    ∃ t effect, s.wake target = .ok (t, effect) ∧ Keeps s (.wake target) t := by
  cases target with
  | none => exact ⟨s, false, rfl, ok, fun _ pending _ => pending⟩
  | some f =>
    unfold Fibers.wake
    dsimp only
    split
    next => exact ⟨s, false, rfl, ok, fun _ pending _ => pending⟩
    next parked =>
      have other : s.state f ≠ .ready := by
        rw [parked]
        decide
      obtain ⟨out, ready, pushed, appended⟩ := ok.ready few other
      have owned := ok.spawned other
      have elsewhere : s.current ≠ some f := by
        intro runs
        rw [ok.state_current runs] at parked
        cases parked
      rw [pushed]
      refine ⟨_, true, rfl, ?_, fun g pending _ => pending⟩
      exact ok.enqueued appended (sched_setState owned .ready) (fun _ _ => Iff.rfl) elsewhere out
        rfl (ok.fresh_setState owned .ready)
    next =>
      refine ⟨_, true, rfl, ok.setPendingWake f true, fun g pending _ => ?_⟩
      by_cases self : g = f
      · simp [self]
      · simp [self, pending]
    next => exact ⟨s, false, rfl, ok, fun _ pending _ => pending⟩

theorem Ok.beginRound (ok : s.Ok) : Keeps s .beginRound s.beginRound :=
  ⟨⟨ok.sched, ok.fresh, (SpscRing.length_toList s.ready).ge⟩, fun _ pending _ => pending⟩

/-- The fibers only push while the loop runs, so that the ring holds what the loop pops. -/
theorem Ok.resume (ok : s.Ok) (free : s.current = none) (more : 0 < s.left) :
    ∃ t, s.resume = .ok t ∧ Keeps s .resume t := by
  have some_left : s.ready.toList ≠ [] := by
    intro empty
    have bound := ok.left
    rw [empty, List.length_nil] at bound
    omega
  obtain ⟨f, ready, popped⟩ := SpscRing.pop_isSome some_left
  have first : s.ready.toList = f :: ready.toList := SpscRing.pop_toList (by decide) popped
  have owned : s.spawned f = true := by
    have member : f ∈ s.sched.ready := by
      change f ∈ s.ready.toList
      rw [first]
      exact List.mem_cons_self
    rw [ok.sched.ready] at member
    by_contra missing
    change (if s.spawned f then s.state f else .finished) = .ready at member
    rw [if_neg missing] at member
    cases member
  have next := ok.sched.resume free first
  refine ⟨((s.setReady ready).enter f).setState f .running, ?_,
    ⟨?_, ok.fresh_setState owned .running, ?_⟩, fun _ pending _ => pending⟩
  · rw [Fibers.resume, popped]
  · have same := congrArg Sched.state (sched_setState owned .running)
    exact (congrArg (fun state => (⟨state, ready.toList, some f⟩ : Sched n).Ok) same).mpr next
  · have bound := ok.left
    rw [first, List.length_cons] at bound
    change s.left - 1 ≤ ready.toList.length
    omega

/-- Every possible step succeeds. -/
theorem Ok.step (ok : s.Ok) (few : n ≤ maxFibers) {a : Action n} {result : Except Fault (Fibers n)}
    (possible : s.step a = some result) : ∃ t, result = .ok t ∧ Keeps s a t := by
  cases a with
  | spawn f =>
    simp only [Fibers.step] at possible
    split at possible <;> cases possible
    next allowed =>
      rw [Bool.and_eq_true, Bool.not_eq_true'] at allowed
      exact ok.spawn few allowed.2
  | yield =>
    obtain ⟨f, runs, rfl⟩ := Option.map_eq_some_iff.mp possible
    exact ok.yield few runs
  | park =>
    obtain ⟨f, runs, rfl⟩ := Option.map_eq_some_iff.mp possible
    exact ⟨_, rfl, ok.park runs⟩
  | wake target =>
    simp only [Fibers.step] at possible
    split at possible <;> cases possible
    obtain ⟨t, effect, woken, keeps⟩ := ok.wake few target
    exact ⟨t, by rw [woken]; rfl, keeps⟩
  | finish =>
    obtain ⟨f, runs, rfl⟩ := Option.map_eq_some_iff.mp possible
    exact ⟨_, rfl, ok.finish runs⟩
  | beginRound =>
    simp only [Fibers.step] at possible
    split at possible <;> cases possible
    exact ⟨_, rfl, ok.beginRound⟩
  | resume =>
    simp only [Fibers.step] at possible
    split at possible <;> cases possible
    next allowed => exact ok.resume allowed.1 allowed.2

theorem Initial.ok (start : s.Initial) : s.Ok := by
  obtain ⟨fibers, counters, idle, left⟩ := start
  have empty : s.ready.toList = [] := SpscRing.empty_iff.mp (by rw [SpscRing.empty, counters]; simp)
  refine ⟨⟨?_, fun f => ?_, fun f => ?_⟩, fun f _ => (fibers f).1, by omega⟩
  · change s.ready.toList.Nodup
    rw [empty]
    exact List.nodup_nil
  · simp [Fibers.sched, empty, (fibers f).2]
  · simp [Fibers.sched, idle, (fibers f).2]

theorem Keeps.of_step (ok : s.Ok) (few : n ≤ maxFibers) {a : Action n}
    (taken : (system n).step s a t) : Keeps s a t := by
  obtain ⟨t', same, keeps⟩ := ok.step few taken
  cases same
  exact keeps

theorem Ok.of_reaches (few : n ≤ maxFibers) {acts : List (Action n)}
    (reached : (system n).Reaches System.anyStep acts s) : s.Ok := by
  apply reached.invariant (P := Ok)
  · intro s start
    exact start.ok
  · intro s a t ok _ taken
    exact (Keeps.of_step ok few taken).ok

/-- A pending wake-up waits for the next `park` of its fiber. -/
theorem pending_of_path (few : n ≤ maxFibers) (ok : s.Ok) {acts : List (Action n)}
    (path : (system n).Path (fun s a => ¬(a = .park ∧ s.current = some f)) s acts t)
    (pending : s.pendingWake f = true) : t.Ok ∧ t.pendingWake f = true := by
  apply path.preserves (P := fun s => s.Ok ∧ s.pendingWake f = true)
  · intro s a t kept unparked taken
    have keeps := Keeps.of_step kept.1 few taken
    exact ⟨keeps.ok, keeps.pending f kept.2 unparked⟩
  · exact ⟨ok, pending⟩

theorem Ok.current_of_running (ok : s.Ok) (running : s.state f = .running) :
    s.current = some f := by
  have owned := ok.spawned (f := f) (by rw [running]; decide)
  exact (ok.sched.running f).mp ((sched_state owned).trans running)

theorem Ok.count_ready (ok : s.Ok) (owned : s.spawned f = true) :
    s.ready.toList.count f = if s.state f = .ready then 1 else 0 := by
  have member := ok.sched.ready f
  rw [sched_state owned] at member
  split
  next ready => exact List.count_eq_one_of_mem ok.sched.nodup (member.mpr ready)
  next other => exact List.count_eq_zero_of_not_mem (fun within => other (member.mp within))

/-- The bookkeeping of the scheduler, in every run of at most 256 fibers. A spawned fiber is in the
ready ring once if its state is `Ready` and is not in it otherwise, at most one fiber runs, no
`ensure` of a push or a pop fails, and a wake-up of a running fiber makes its next `park` return
at once, however the fiber gets there. -/
theorem scheduling (few : n ≤ maxFibers) {acts : List (Action n)}
    (reached : (system n).Reaches System.anyStep acts s) :
    (∀ f, s.spawned f = true →
      s.ready.toList.count f = if s.state f = .ready then 1 else 0) ∧
    (∀ f g, s.state f = .running → s.state g = .running → f = g) ∧
    (∀ a fault, s.step a ≠ some (.error fault)) ∧
    ∀ f woken before t, s.state f = .running → (system n).step s (.wake (some f)) woken →
      (system n).Path (fun s a => ¬(a = .park ∧ s.current = some f)) woken before t →
      t.current = some f → ∃ u, (system n).step t .park u ∧ u.current = some f ∧
        u.state f = .running := by
  have ok := Ok.of_reaches few reached
  refine ⟨fun f owned => ok.count_ready owned, fun f g runs runs' => ?_, fun a fault failed => ?_,
    ?_⟩
  · have first := ok.current_of_running runs
    exact Option.some_inj.mp (first.symm.trans (ok.current_of_running runs'))
  · obtain ⟨t, same, _⟩ := ok.step few failed
    cases same
  · intro f woken before t running taken path runs
    have woken_ok := (Keeps.of_step ok few taken).ok
    have pending : woken.pendingWake f = true := by
      simp only [system, Fibers.step, Fibers.wake, running] at taken
      split at taken <;> cases taken
      exact Function.update_self f true s.pendingWake
    obtain ⟨t_ok, still⟩ := pending_of_path few woken_ok path pending
    refine ⟨t.park f, ?_, ?_, ?_⟩
    · change t.current.map _ = _
      rw [runs]
      rfl
    · rw [park_pending t_ok runs still]
      exact runs
    · rw [park_pending t_ok runs still]
      exact t_ok.state_current runs

/-- A reactor with two fibers whose counters are about to wrap around. -/
def wrapping : Fibers 2 where
  state _ := .ready
  pendingWake _ := false
  spawned _ := false
  ready := ⟨fun _ => 0, BitVec.allOnes 64, BitVec.allOnes 64⟩
  current := none
  left := 0

/-- The reactor spawns both fibers and resumes the first one, which then wakes itself. -/
def wrappingActs : List (Action 2) := [.spawn 0, .spawn 1, .beginRound, .resume]

theorem scheduling_wraps :
    ∃ s, (system 2).Reaches System.anyStep wrappingActs s ∧ s.ready.head = 0 ∧
      s.ready.toList.count 1 = 1 ∧ s.step .yield ≠ some (.error .readyFull) ∧
      ∃ woken u, (system 2).step s (.wake (some 0)) woken ∧ (system 2).step woken .park u ∧
        u.state 0 = .running := by
  have reached : (system 2).Reaches System.anyStep wrappingActs _ :=
    ⟨wrapping, ⟨fun _ => ⟨rfl, rfl⟩, rfl, rfl, rfl⟩,
      .cons rfl trivial (.cons rfl trivial (.cons rfl trivial (.cons rfl trivial (.nil _))))⟩
  obtain ⟨counts, _, succeeds, wakes⟩ := scheduling (by decide) reached
  refine ⟨_, reached, by decide, counts 1 (by decide), succeeds .yield .readyFull, ?_⟩
  obtain ⟨u, parked, _, running⟩ := wakes 0 _ [] _ (by decide) rfl (.nil _) (by decide)
  exact ⟨_, u, rfl, parked, running⟩

end Fibers

end UringDb.Reactor
