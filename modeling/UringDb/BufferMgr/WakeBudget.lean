import UringDb.Lib.Run
import UringDb.Lib.Ring
import UringDb.Lib.Sum

/-!
# Waking the fibers that wait for a free frame

Fibers that found no free frame are parked in one queue per worker. Whoever frees frames adds to
`free_bid_wake_budget` and calls `wake_free_bid_waiters_locked`, which claims the whole budget,
pops fibers from the queues one after the other and gives back what is left. Atomic operations
and the sections under a queue's lock are steps; `shared_free_count` changes at will.
-/
namespace UringDb.BufferMgr.WakeBudget

/-- A parked fiber. The ticket, a ghost, numbers the calls of `wait_for_free_bid` that park. -/
structure Waiter (φ : Type) where
  ticket : Nat
  fiber : φ
  deriving DecidableEq

/-- The next step of a thread, with the locals it still needs. -/
inductive Pc (φ : Type) where
  | idle
  -- `wake_free_bid_waiters_locked`
  | load (preferred : Nat)
  | cas (preferred budget : Nat)
  | drain (preferred step remaining : Nat) (out : List (Waiter φ))
  | refund (remaining : Nat) (out : List (Waiter φ))
  -- `wait_for_free_bid`; the lock is held from `check` on
  | lock (worker : Nat) (fiber : φ)
  | check (worker : Nat) (fiber : φ)
  | push (worker : Nat) (fiber : φ)
  | unlock (worker : Nat)
  -- `releaseFreed` behind the pools
  | own (worker slots : Nat)
  | addSlots (worker slots : Nat)
  -- the popped fibers are woken
  | wake (out : List (Waiter φ))
  deriving DecidableEq

/-- The budget, the queues with the back of the vector in front, who holds a queue's lock, and as
ghosts the budget ever added, the number of tickets, and the tickets popped by the calls that
spend budget and by the others. -/
structure State (threads : Nat) (φ : Type) where
  budget : Nat
  sharedFree : Nat
  queues : Nat → List (Waiter φ)
  locks : Nat → Option (Fin threads)
  pcs : Fin threads → Pc φ
  added : Nat
  tickets : Nat
  woken : List Nat
  taken : List Nat

inductive Call (φ : Type) where
  | wakeFreeBidWaiters (preferred : Nat)
  | waitForFreeBid (worker : Nat) (fiber : φ)
  | releaseFreed (worker frames refillTarget : Nat)
  deriving DecidableEq

/-- `add` is an addition to the budget, `popOwn` a section that pops fibers of the own queue
without a budget. -/
inductive Act (threads : Nat) (φ : Type) where
  | call (t : Fin threads) (call : Call φ)
  | step (t : Fin threads) (spurious : Bool)
  | add (amount : Nat)
  | popOwn (worker count : Nat)
  | setFree (count : Nat)
  deriving DecidableEq

variable {threads : Nat} {φ : Type}

namespace State

def goto (s : State threads φ) (t : Fin threads) (pc : Pc φ) : State threads φ :=
  { s with pcs := Function.update s.pcs t pc }

def setQueue (s : State threads φ) (worker : Nat) (queue : List (Waiter φ)) : State threads φ :=
  { s with queues := Function.update s.queues worker queue }

def setLock (s : State threads φ) (worker : Nat) (holder : Option (Fin threads)) :
    State threads φ :=
  { s with locks := Function.update s.locks worker holder }

/-- The fibers popped from a queue when at most `count` may be. -/
def front (s : State threads φ) (worker count : Nat) : List (Waiter φ) :=
  (s.queues worker).take (min count (s.queues worker).length)

/-- A section that pops them. -/
def popped (s : State threads φ) (worker count : Nat) : State threads φ :=
  s.setQueue worker ((s.queues worker).drop (min count (s.queues worker).length))

end State

def wakeSlots (frames refillTarget : Nat) : Nat := max 1 (frames / refillTarget)

/-- The loop over the queues after `drain_queue`. -/
def afterDrain (workers preferred step remaining : Nat) (out : List (Waiter φ)) : Pc φ :=
  if step + 1 < workers ∧ 0 < remaining then .drain preferred (step + 1) remaining out
  else if 0 < remaining then .refund remaining out
  else .wake out

def drainQueue (workers : Nat) (s : State threads φ) (t : Fin threads)
    (preferred step remaining : Nat) (out : List (Waiter φ)) : Option (State threads φ) :=
  let worker := (preferred + step) % workers
  let front := s.front worker remaining
  if s.locks worker = none then
    some ({ s.popped worker remaining with woken := s.woken ++ front.map Waiter.ticket }.goto t
      (afterDrain workers preferred step (remaining - front.length) (out ++ front)))
  else none

/-- The fast path of `releaseFreed`. -/
def popOwnQueue (s : State threads φ) (t : Fin threads) (worker slots : Nat) :
    Option (State threads φ) :=
  let front := s.front worker slots
  if s.locks worker = none then
    some ({ s.popped worker slots with taken := s.taken ++ front.map Waiter.ticket }.goto t
      (if front = [] then .addSlots worker slots else .wake front))
  else none

/-- One step of a thread; `spurious` lets a weak compare-and-swap fail. -/
def stepThread (workers : Nat) (s : State threads φ) (t : Fin threads) (spurious : Bool) :
    Option (State threads φ) :=
  match s.pcs t with
  | .idle => none
  | .load preferred => some (s.goto t (if workers = 0 then .wake [] else .cas preferred s.budget))
  | .cas preferred budget =>
    if budget = 0 then some (s.goto t (.wake []))
    else if s.budget = budget ∧ spurious = false then
      some ({ s with budget := 0 }.goto t (.drain preferred 0 budget []))
    else some (s.goto t (.cas preferred s.budget))
  | .drain preferred step remaining out => drainQueue workers s t preferred step remaining out
  | .refund remaining out =>
    some ({ s with budget := (s.budget + remaining) % 2 ^ 64 }.goto t (.wake out))
  | .lock worker fiber =>
    if s.locks worker = none then some ((s.setLock worker (some t)).goto t (.check worker fiber))
    else none
  | .check worker fiber =>
    some (s.goto t (if 0 < s.sharedFree then .unlock worker else .push worker fiber))
  | .push worker fiber =>
    some ({ (s.setQueue worker (⟨s.tickets, fiber⟩ :: s.queues worker)).setLock worker none with
      tickets := s.tickets + 1 }.goto t .idle)
  | .unlock worker => some ((s.setLock worker none).goto t .idle)
  | .own worker slots => popOwnQueue s t worker slots
  | .addSlots worker slots =>
    some ({ s with
      budget := (s.budget + slots) % 2 ^ 64
      added := s.added + slots }.goto t (.load worker))
  | .wake _ => some (s.goto t .idle)

/-- The first step of a call by an idle thread. -/
def Call.start (workers : Nat) : Call φ → Option (Pc φ)
  | .wakeFreeBidWaiters preferred => some (.load preferred)
  | .waitForFreeBid worker fiber => if worker < workers then some (.lock worker fiber) else none
  | .releaseFreed worker frames refillTarget =>
    if worker < workers ∧ 1 ≤ frames then some (.own worker (wakeSlots frames refillTarget))
    else none

def Pc.isIdle : Pc φ → Bool
  | .idle => true
  | _ => false

def exec (workers : Nat) (s : State threads φ) : Act threads φ → Option (State threads φ)
  | .call t call =>
    if (s.pcs t).isIdle then (call.start workers).map (s.goto t) else none
  | .step t spurious => stepThread workers s t spurious
  | .add amount =>
    some { s with budget := (s.budget + amount) % 2 ^ 64, added := s.added + amount }
  | .popOwn worker count =>
    if worker < workers ∧ s.locks worker = none then
      some { s.popped worker count with
        taken := s.taken ++ (s.front worker count).map Waiter.ticket }
    else none
  | .setFree count => some { s with sharedFree := count }

def initial (threads : Nat) (φ : Type) : State threads φ where
  budget := 0
  sharedFree := 0
  queues := fun _ => []
  locks := fun _ => none
  pcs := fun _ => .idle
  added := 0
  tickets := 0
  woken := []
  taken := []

def system (workers threads : Nat) (φ : Type) : System (State threads φ) (Act threads φ) where
  init s := ∃ free, s = { initial threads φ with sharedFree := free }
  step s act s' := exec workers s act = some s'

variable {workers : Nat} {s s' : State threads φ} {t : Fin threads} {pc : Pc φ}

/-! ### What is held and where a ticket is -/

namespace Pc

def held : Pc φ → Nat
  | .drain _ _ remaining _ => remaining
  | .refund remaining _ => remaining
  | _ => 0

/-- The queue whose lock a thread holds between two steps. -/
def locked : Pc φ → Option Nat
  | .check worker _ => some worker
  | .push worker _ => some worker
  | .unlock worker => some worker
  | _ => none

/-- The queues a thread works on exist. -/
def InRange (workers : Nat) : Pc φ → Prop
  | .cas _ _ => 0 < workers
  | .drain _ _ _ _ => 0 < workers
  | .lock worker _ => worker < workers
  | .check worker _ => worker < workers
  | .push worker _ => worker < workers
  | .own worker _ => worker < workers
  | _ => True

end Pc

def State.held (s : State threads φ) : Nat := ∑ t, (s.pcs t).held

/-- How often a ticket is in the queues and in the logs. -/
def State.places (workers : Nat) (s : State threads φ) (ticket : Nat) : Nat :=
  s.woken.count ticket + s.taken.count ticket +
    ∑ w ∈ Finset.range workers, ((s.queues w).map Waiter.ticket).count ticket

/-- The budget is accounted for. -/
structure Spent (s : State threads φ) : Prop where
  modular : (s.budget + s.held + s.woken.length) % 2 ^ 64 = s.added % 2 ^ 64
  fitting : s.added < 2 ^ 64 → s.budget + s.held + s.woken.length = s.added

/-- Every ticket is in one place, and a thread that is in a locked section holds the lock. -/
structure Inv (workers : Nat) (s : State threads φ) : Prop where
  spent : Spent s
  tickets : ∀ k, s.places workers k = if k < s.tickets then 1 else 0
  locks : ∀ t w, (s.pcs t).locked = some w → s.locks w = some t
  inRange : ∀ t, (s.pcs t).InRange workers

/-- A section that pops fibers moves their tickets out of the queues. -/
theorem queued_popped (s : State threads φ) {worker : Nat} (inRange : worker < workers)
    (count k : Nat) :
    (∑ w ∈ Finset.range workers, (((s.popped worker count).queues w).map Waiter.ticket).count k) +
        ((s.front worker count).map Waiter.ticket).count k =
      ∑ w ∈ Finset.range workers, ((s.queues w).map Waiter.ticket).count k := by
  have moved := sum_update (Finset.range workers) s.queues worker
    ((s.queues worker).drop (min count (s.queues worker).length))
    (fun queue => (queue.map Waiter.ticket).count k) (Finset.mem_range.mpr inRange)
  have whole : ((s.queues worker).map Waiter.ticket).count k =
      ((s.front worker count).map Waiter.ticket).count k +
        (((s.queues worker).drop (min count (s.queues worker).length)).map Waiter.ticket).count k := by
    rw [← List.count_append, ← List.map_append, State.front, List.take_append_drop]
  simp only [State.popped, State.setQueue]
  omega

theorem length_front (s : State threads φ) (worker count : Nat) :
    (s.front worker count).length = min count (s.queues worker).length := by
  simp [State.front]

/-! ### One step -/

/-- What keeps the books when thread `t` moves to `pc`: `total` is the budget before it is
reduced to 64 bits. -/
structure Booked (workers : Nat) (s s' : State threads φ) (t : Fin threads) (pc : Pc φ) :
    Prop where
  pcs : s'.pcs = Function.update s.pcs t pc
  budget : ∃ total, (s'.budget = total ∨ s'.budget = total % 2 ^ 64) ∧
    total + pc.held + s'.woken.length + s.added =
      s.budget + (s.pcs t).held + s.woken.length + s'.added
  added : s.added ≤ s'.added
  places : ∀ k, s'.places workers k + (if k < s.tickets then 1 else 0) =
    s.places workers k + if k < s'.tickets then 1 else 0
  others : ∀ u w, u ≠ t → s.locks w = some u → s'.locks w = some u
  locked : ∀ w, pc.locked = some w → s'.locks w = some t
  inRange : pc.InRange workers

theorem Inv.after (inv : Inv workers s) (booked : Booked workers s s' t pc) : Inv workers s' := by
  obtain ⟨total, reduced, balance⟩ := booked.budget
  have held : s'.held + (s.pcs t).held = s.held + pc.held := by
    unfold State.held
    rw [booked.pcs]
    exact sum_update Finset.univ s.pcs t pc Pc.held (Finset.mem_univ t)
  have more := booked.added
  have modular := inv.spent.modular
  refine ⟨⟨?_, fun fits => ?_⟩, fun k => ?_, fun u w holds => ?_, fun u => ?_⟩
  · rcases reduced with same | same <;> rw [same] <;> omega
  · have fitting := inv.spent.fitting (by omega)
    have small : total ≤ s'.added := by omega
    rcases reduced with same | same
    · rw [same]
      omega
    · rw [same, Nat.mod_eq_of_lt (by omega)]
      omega
  · have before := inv.tickets k
    have here := booked.places k
    omega
  · rw [booked.pcs] at holds
    by_cases same : u = t
    · subst same
      rw [Function.update_self] at holds
      exact booked.locked w holds
    · rw [Function.update_of_ne same] at holds
      exact booked.others u w same (inv.locks u w holds)
  · rw [booked.pcs]
    by_cases same : u = t
    · subst same
      rw [Function.update_self]
      exact booked.inRange
    · rw [Function.update_of_ne same]
      exact inv.inRange u

theorem booked_goto {budget total added : Nat} (reduced : budget = total ∨ budget = total % 2 ^ 64)
    (balance : total + pc.held + s.added = s.budget + (s.pcs t).held + added)
    (more : s.added ≤ added) (locked : ∀ w, pc.locked = some w → s.locks w = some t)
    (inRange : pc.InRange workers) :
    Booked workers s ({ s with budget := budget, added := added }.goto t pc) t pc where
  pcs := rfl
  budget := ⟨total, reduced, by simp only [State.goto]; omega⟩
  added := more
  places := fun _ => rfl
  others := fun _ _ _ held => held
  locked := locked
  inRange := inRange

theorem booked_move (held : pc.held = (s.pcs t).held)
    (locked : ∀ w, pc.locked = some w → s.locks w = some t) (inRange : pc.InRange workers) :
    Booked workers s (s.goto t pc) t pc :=
  booked_goto (.inl rfl) (by rw [held]) (Nat.le_refl _) locked inRange

theorem booked_lock {worker : Nat} {holder : Option (Fin threads)}
    (held : pc.held = (s.pcs t).held) (before : s.locks worker = none ∨ s.locks worker = some t)
    (locked : ∀ w, pc.locked = some w → w = worker ∧ holder = some t)
    (inRange : pc.InRange workers) :
    Booked workers s ((s.setLock worker holder).goto t pc) t pc where
  pcs := rfl
  budget := ⟨s.budget, .inl rfl, by rw [held]; rfl⟩
  added := Nat.le_refl _
  places := fun _ => rfl
  others := fun u w ne held => by
    have apart : w ≠ worker := by
      rintro rfl
      rcases before with free | own
      · rw [free] at held
        cases held
      · rw [own] at held
        exact ne (Option.some.inj held).symm
    simpa only [State.goto, State.setLock, Function.update_of_ne apart] using held
  locked := fun w holds => by
    obtain ⟨rfl, rfl⟩ := locked w holds
    simp [State.goto, State.setLock]
  inRange := inRange

theorem held_afterDrain (preferred step remaining : Nat) (out : List (Waiter φ)) :
    (afterDrain workers preferred step remaining out).held = remaining := by
  unfold afterDrain
  split
  · rfl
  · split
    · rfl
    next spent => exact (Nat.eq_zero_of_not_pos spent).symm

theorem afterDrain_spec (some_ : 0 < workers) (preferred step remaining : Nat)
    (out : List (Waiter φ)) :
    (afterDrain workers preferred step remaining out).locked = none ∧
      (afterDrain workers preferred step remaining out).InRange workers := by
  unfold afterDrain
  split
  · exact ⟨rfl, some_⟩
  · split <;> exact ⟨rfl, trivial⟩

theorem Inv.drainQueue (inv : Inv workers s) {preferred step remaining : Nat}
    {out : List (Waiter φ)} (at_ : s.pcs t = .drain preferred step remaining out)
    (stepped : drainQueue workers s t preferred step remaining out = some s') :
    Inv workers s' := by
  have some_ : 0 < workers := by
    have inside := inv.inRange t
    rwa [at_] at inside
  unfold WakeBudget.drainQueue at stepped
  dsimp only at stepped
  split at stepped <;> cases stepped
  have inside := Nat.mod_lt (preferred + step) some_
  generalize (preferred + step) % workers = worker at inside ⊢
  have few := length_front s worker remaining
  have spec := afterDrain_spec some_ preferred step
    (remaining - (s.front worker remaining).length) (out ++ s.front worker remaining)
  refine inv.after ⟨rfl, ⟨s.budget, .inl rfl, ?_⟩, Nat.le_refl _, fun k => ?_,
    fun _ _ _ held => held, fun w holds => ?_, spec.2⟩
  · rw [held_afterDrain, at_]
    simp only [State.goto, State.popped, State.setQueue, List.length_append, List.length_map,
      Pc.held]
    omega
  · have moved := queued_popped s inside remaining k
    simp only [State.places, State.goto, List.count_append] at moved ⊢
    change _ + (if k < s.tickets then 1 else 0) = _ + (if k < s.tickets then 1 else 0)
    change s.woken.count k + _ + s.taken.count k + _ + _ = _
    omega
  · rw [spec.1] at holds
    cases holds

/-- A section that pops fibers without a budget keeps every ticket in one place. -/
theorem places_taken (s : State threads φ) {worker : Nat} (inRange : worker < workers)
    (count k : Nat) :
    { s.popped worker count with
      taken := s.taken ++ (s.front worker count).map Waiter.ticket }.places workers k =
      s.places workers k := by
  have moved := queued_popped s inRange count k
  simp only [State.places, List.count_append]
  change s.woken.count k + _ + _ = _
  omega

/-- The fast path of `releaseFreed` leaves the budget alone. -/
theorem Inv.popOwnQueue (inv : Inv workers s) {worker slots : Nat}
    (at_ : s.pcs t = .own worker slots) (stepped : popOwnQueue s t worker slots = some s') :
    Inv workers s' := by
  have inside : worker < workers := by
    have inside := inv.inRange t
    rwa [at_] at inside
  unfold WakeBudget.popOwnQueue at stepped
  dsimp only at stepped
  split at stepped <;> cases stepped
  have spec : ∀ front : List (Waiter φ),
      (if front = [] then Pc.addSlots worker slots else .wake front).held = 0 ∧
      (if front = [] then Pc.addSlots worker slots else .wake front).locked = none ∧
      (if front = [] then Pc.addSlots worker slots else .wake front).InRange workers := by
    intro front
    split <;> exact ⟨rfl, rfl, trivial⟩
  refine inv.after ⟨rfl, ⟨s.budget, .inl rfl, ?_⟩, Nat.le_refl _, fun k => ?_,
    fun _ _ _ held => held, fun w holds => ?_, (spec _).2.2⟩
  · rw [(spec _).1, at_]
    rfl
  · exact congrArg (· + _) (places_taken s inside slots k)
  · rw [(spec _).2.1] at holds
    cases holds

theorem Inv.push (inv : Inv workers s) {worker : Nat} {fiber : φ}
    (at_ : s.pcs t = .push worker fiber) :
    Inv workers ({ (s.setQueue worker (⟨s.tickets, fiber⟩ :: s.queues worker)).setLock worker none with
      tickets := s.tickets + 1 }.goto t .idle) := by
  have inside : worker < workers := by
    have inside := inv.inRange t
    rwa [at_] at inside
  have holds : s.locks worker = some t := inv.locks t worker (by rw [at_]; rfl)
  refine inv.after ⟨rfl, ⟨s.budget, .inl rfl, by rw [at_]; rfl⟩, Nat.le_refl _, fun k => ?_,
    fun u w ne held => ?_, (fun w none_ => by cases none_), trivial⟩
  · have moved := sum_update (Finset.range workers) s.queues worker
      (⟨s.tickets, fiber⟩ :: s.queues worker) (fun queue => (queue.map Waiter.ticket).count k)
      (Finset.mem_range.mpr inside)
    simp only [List.map_cons, List.count_cons, beq_iff_eq] at moved
    simp only [State.places, State.goto, State.setLock, State.setQueue]
    have fresh : (if k < s.tickets + 1 then 1 else 0) =
        (if k < s.tickets then 1 else 0) + if s.tickets = k then 1 else 0 := by
      split_ifs <;> omega
    change _ = _ + if k < s.tickets + 1 then 1 else 0
    omega
  · have apart : w ≠ worker := by
      rintro rfl
      rw [holds] at held
      exact ne (Option.some.inj held).symm
    simpa only [State.goto, State.setLock, State.setQueue, Function.update_of_ne apart] using held

theorem Inv.stepThread (inv : Inv workers s) {spurious : Bool}
    (stepped : stepThread workers s t spurious = some s') : Inv workers s' := by
  unfold WakeBudget.stepThread at stepped
  have inside := inv.inRange t
  have mine := inv.locks t
  split at stepped
  next => cases stepped
  next preferred at_ =>
    cases stepped
    refine inv.after (booked_move ?_ (fun w holds => ?_) ?_)
    · rw [at_]
      split <;> rfl
    · split at holds <;> cases holds
    · split
      · trivial
      next some_ => exact Nat.pos_of_ne_zero some_
  next preferred budget at_ =>
    rw [at_] at inside
    split at stepped
    · cases stepped
      exact inv.after (booked_move (by rw [at_]; rfl) (fun w holds => by cases holds) trivial)
    · split at stepped
      next swaps =>
        cases stepped
        have nothing : (0 : Nat) = 0 ∨ (0 : Nat) = 0 % 2 ^ 64 := .inl rfl
        refine inv.after (booked_goto nothing ?_ (Nat.le_refl _) (fun w holds => by cases holds)
          inside)
        rw [at_, ← swaps.1]
        simp only [Pc.held]
        omega
      next =>
        cases stepped
        exact inv.after (booked_move (by rw [at_]; rfl) (fun w holds => by cases holds) inside)
  next at_ => exact inv.drainQueue at_ stepped
  next remaining out at_ =>
    cases stepped
    refine inv.after (booked_goto (.inr rfl) ?_ (Nat.le_refl _) (fun w holds => by cases holds)
      trivial)
    rw [at_]
    simp only [Pc.held]
    omega
  next worker fiber at_ =>
    split at stepped <;> cases stepped
    next free =>
      rw [at_] at inside
      refine inv.after (booked_lock (by rw [at_]; rfl) (.inl free) (fun w holds => ?_) inside)
      exact ⟨(Option.some.inj holds).symm, rfl⟩
  next worker fiber at_ =>
    cases stepped
    rw [at_] at inside mine
    refine inv.after (booked_move ?_ (fun w holds => ?_) ?_)
    · rw [at_]
      split <;> rfl
    · apply mine w
      split at holds <;> exact holds
    · split
      · trivial
      · exact inside
  next worker fiber at_ =>
    cases stepped
    exact inv.push at_
  next worker at_ =>
    cases stepped
    rw [at_] at mine
    exact inv.after (booked_lock (by rw [at_]; rfl) (.inr (mine worker rfl))
      (fun w holds => by cases holds) trivial)
  next at_ => exact inv.popOwnQueue at_ stepped
  next worker slots at_ =>
    cases stepped
    refine inv.after (booked_goto (.inr rfl) ?_ (Nat.le_add_right _ _)
      (fun w holds => by cases holds) trivial)
    rw [at_]
    simp only [Pc.held]
    omega
  next at_ =>
    cases stepped
    exact inv.after (booked_move (by rw [at_]; rfl) (fun w holds => by cases holds) trivial)

theorem Inv.exec (inv : Inv workers s) {act : Act threads φ}
    (stepped : exec workers s act = some s') : Inv workers s' := by
  cases act with
  | call t call =>
    simp only [WakeBudget.exec] at stepped
    split at stepped
    next idle =>
      obtain ⟨pc, starts, rfl⟩ := Option.map_eq_some_iff.mp stepped
      have at_ : (s.pcs t).held = 0 := by
        cases here : s.pcs t <;> rw [here] at idle <;> first | rfl | cases idle
      have spec : pc.held = 0 ∧ pc.locked = none ∧ pc.InRange workers := by
        cases call <;> simp only [Call.start] at starts
        · cases starts
          exact ⟨rfl, rfl, trivial⟩
        · split at starts
          next inside =>
            cases starts
            exact ⟨rfl, rfl, inside⟩
          next => cases starts
        · split at starts
          next inside =>
            cases starts
            exact ⟨rfl, rfl, inside.1⟩
          next => cases starts
      refine inv.after (booked_move (by rw [at_, spec.1]) (fun w holds => ?_) spec.2.2)
      rw [spec.2.1] at holds
      cases holds
    next => cases stepped
  | step t spurious => exact inv.stepThread stepped
  | add amount =>
    cases stepped
    have modular := inv.spent.modular
    refine ⟨⟨?_, fun fits => ?_⟩, inv.tickets, inv.locks, inv.inRange⟩
    · simp only [State.held] at modular ⊢
      omega
    · have fitting := inv.spent.fitting (by dsimp only at fits; omega)
      simp only [State.held] at fitting fits ⊢
      omega
  | popOwn worker count =>
    simp only [WakeBudget.exec] at stepped
    split at stepped <;> cases stepped
    next allowed =>
      exact ⟨⟨inv.spent.modular, inv.spent.fitting⟩,
        fun k => (places_taken s allowed.1 count k).trans (inv.tickets k), inv.locks, inv.inRange⟩
  | setFree count =>
    cases stepped
    exact ⟨⟨inv.spent.modular, inv.spent.fitting⟩, inv.tickets, inv.locks, inv.inRange⟩

theorem inv_of_reaches {acts : List (Act threads φ)}
    (reached : (system workers threads φ).Reaches System.anyStep acts s) : Inv workers s := by
  refine reached.invariant (P := Inv workers) ?_ fun _ _ _ inv _ stepped => inv.exec stepped
  rintro _ ⟨free, rfl⟩
  refine ⟨⟨by simp [initial, State.held, Pc.held], fun _ => by simp [initial, State.held, Pc.held]⟩,
    fun k => by simp [initial, State.places], (fun t w holds => by cases holds), fun t => trivial⟩

/-! ### Who is parked -/

/-- A step moves its own thread only, and a fiber gets ready to be parked by reading 0. -/
theorem stepThread_goes {spurious : Bool} (stepped : stepThread workers s t spurious = some s') :
    ∃ pc, s'.pcs = Function.update s.pcs t pc ∧ ∀ w fiber, pc = .push w fiber →
      s.pcs t = .check w fiber ∧ s.sharedFree = 0 := by
  unfold stepThread at stepped
  split at stepped
  next => cases stepped
  next =>
    cases stepped
    refine ⟨_, rfl, fun w fiber parks => ?_⟩
    split at parks <;> cases parks
  next =>
    split at stepped
    · cases stepped
      exact ⟨_, rfl, fun w fiber parks => by cases parks⟩
    · split at stepped <;> cases stepped <;> exact ⟨_, rfl, fun w fiber parks => by cases parks⟩
  next =>
    unfold drainQueue at stepped
    dsimp only at stepped
    split at stepped <;> cases stepped
    refine ⟨_, rfl, fun w fiber parks => ?_⟩
    unfold afterDrain at parks
    split at parks
    · cases parks
    · split at parks <;> cases parks
  next =>
    cases stepped
    exact ⟨_, rfl, fun w fiber parks => by cases parks⟩
  next =>
    split at stepped <;> cases stepped
    exact ⟨_, rfl, fun w fiber parks => by cases parks⟩
  next worker fiber at_ =>
    cases stepped
    refine ⟨_, rfl, fun w fiber' parks => ?_⟩
    split at parks <;> cases parks
    next none_ => exact ⟨at_, Nat.eq_zero_of_not_pos none_⟩
  next =>
    cases stepped
    exact ⟨_, rfl, fun w fiber parks => by cases parks⟩
  next =>
    cases stepped
    exact ⟨_, rfl, fun w fiber parks => by cases parks⟩
  next =>
    unfold popOwnQueue at stepped
    dsimp only at stepped
    split at stepped <;> cases stepped
    refine ⟨_, rfl, fun w fiber parks => ?_⟩
    split at parks <;> cases parks
  next =>
    cases stepped
    exact ⟨_, rfl, fun w fiber parks => by cases parks⟩
  next =>
    cases stepped
    exact ⟨_, rfl, fun w fiber parks => by cases parks⟩

theorem exec_push {act : Act threads φ} {w : Nat} {fiber : φ}
    (stepped : exec workers s act = some s') (parks : s'.pcs t = .push w fiber) :
    s.pcs t = .push w fiber ∨ s.pcs t = .check w fiber ∧ s.sharedFree = 0 := by
  cases act with
  | call u call =>
    simp only [exec] at stepped
    split at stepped
    next =>
      obtain ⟨pc, starts, rfl⟩ := Option.map_eq_some_iff.mp stepped
      by_cases same : t = u
      · subst same
        simp only [State.goto, Function.update_self] at parks
        subst parks
        cases call <;> simp only [Call.start] at starts
        · cases starts
        · split at starts <;> cases starts
        · split at starts <;> cases starts
      · simp only [State.goto, Function.update_of_ne same] at parks
        exact .inl parks
    next => cases stepped
  | step u spurious =>
    obtain ⟨pc, pcs, reads⟩ := stepThread_goes stepped
    rw [pcs] at parks
    by_cases same : t = u
    · subst same
      rw [Function.update_self] at parks
      exact .inr (reads w fiber parks)
    · rw [Function.update_of_ne same] at parks
      exact .inl parks
  | add amount =>
    cases stepped
    exact .inl parks
  | popOwn worker count =>
    simp only [exec] at stepped
    split at stepped <;> cases stepped
    exact .inl parks
  | setFree count =>
    cases stepped
    exact .inl parks

/-- A thread that is about to park its fiber has read 0 in the same call. -/
theorem push_read {w : Nat} {fiber : φ} {acts : List (Act threads φ)}
    (path : (system workers threads φ).Path System.anyStep s acts s')
    (parks : s'.pcs t = .push w fiber) :
    s.pcs t = .push w fiber ∨ ∃ before since u, acts = before ++ since ∧
      (system workers threads φ).Path System.anyStep s before u ∧
      (system workers threads φ).Path System.anyStep u since s' ∧
      u.sharedFree = 0 ∧ u.pcs t = .check w fiber := by
  induction path with
  | nil => exact .inl parks
  | @cons first next last act rest step meets path ih =>
    rcases ih parks with here | ⟨before, since, u, rfl, earlier, later, zero, checks⟩
    · rcases exec_push step here with already | ⟨checks, zero⟩
      · exact .inl already
      · exact .inr ⟨[], act :: rest, first, rfl, .nil _, .cons step meets path, zero, checks⟩
    · exact .inr ⟨act :: before, since, u, rfl, .cons step meets earlier, later, zero, checks⟩

/-- Only the last step of `wait_for_free_bid` adds to a queue. -/
theorem exec_queues {act : Act threads φ} {w : Nat} {waiter : Waiter φ}
    (stepped : exec workers s act = some s') (queued : waiter ∈ s'.queues w)
    (new : waiter ∉ s.queues w) : ∃ t, s.pcs t = .push w waiter.fiber := by
  have dropped : ∀ worker count, waiter ∈ (s.popped worker count).queues w → waiter ∈ s.queues w := by
    intro worker count member
    by_cases same : w = worker
    · subst same
      simp only [State.popped, State.setQueue, Function.update_self] at member
      exact List.mem_of_mem_drop member
    · simpa only [State.popped, State.setQueue, Function.update_of_ne same] using member
  cases act with
  | call t call =>
    simp only [exec] at stepped
    split at stepped
    next =>
      obtain ⟨pc, -, rfl⟩ := Option.map_eq_some_iff.mp stepped
      exact absurd queued new
    next => cases stepped
  | step t spurious =>
    simp only [exec] at stepped
    cases at_ : s.pcs t <;> simp only [stepThread, at_, drainQueue, popOwnQueue] at stepped
    case push worker fiber =>
      cases stepped
      by_cases same : w = worker
      · subst same
        simp only [State.goto, State.setLock, State.setQueue, Function.update_self,
          List.mem_cons] at queued
        rcases queued with rfl | old
        · exact ⟨t, at_⟩
        · exact absurd old new
      · simp only [State.goto, State.setLock, State.setQueue, Function.update_of_ne same] at queued
        exact absurd queued new
    -- every other step leaves the queues or takes waiters from them
    all_goals
      repeat' split at stepped
      all_goals cases stepped
      all_goals first
        | exact absurd queued new
        | exact absurd (dropped _ _ queued) new
  | add amount | setFree count =>
    cases stepped
    exact absurd queued new
  | popOwn worker count =>
    simp only [exec] at stepped
    split at stepped <;> cases stepped
    exact absurd (dropped _ _ queued) new

theorem Inv.popped_once (inv : Inv workers s) : (s.woken ++ s.taken).Nodup := by
  rw [List.nodup_iff_count_le_one]
  intro k
  have places := inv.tickets k
  rw [List.count_append]
  unfold State.places at places
  split at places <;> omega

/-- **The wake budget.** The budget, what running calls hold of it and the number of fibers they
have popped add up to what was ever added; no parked fiber is popped twice; and a fiber is parked
only if `shared_free_count` was 0 when it held the lock of its queue. -/
theorem wake_budget_conserved {acts : List (Act threads φ)}
    (reached : (system workers threads φ).Reaches System.anyStep acts s) :
    ((s.budget + s.held + s.woken.length) % 2 ^ 64 = s.added % 2 ^ 64 ∧
      (s.added < 2 ^ 64 → s.budget + s.held + s.woken.length = s.added)) ∧
    (s.woken ++ s.taken).Nodup ∧
    ∀ act s' w waiter, exec workers s act = some s' → waiter ∈ s'.queues w →
      waiter ∉ s.queues w → ∃ t before since u, acts = before ++ since ∧
        (system workers threads φ).Reaches System.anyStep before u ∧
        (system workers threads φ).Path System.anyStep u since s ∧
        u.sharedFree = 0 ∧ u.locks w = some t ∧ u.pcs t = .check w waiter.fiber := by
  have inv := inv_of_reaches reached
  refine ⟨⟨inv.spent.modular, inv.spent.fitting⟩, inv.popped_once,
    fun act s' w waiter stepped queued new => ?_⟩
  obtain ⟨t, parks⟩ := exec_queues stepped queued new
  obtain ⟨s₀, ⟨free, rfl⟩, path⟩ := reached
  rcases push_read path parks with absurd_ | ⟨before, since, u, rfl, earlier, later, zero, checks⟩
  · cases absurd_
  · have there : (system workers threads φ).Reaches System.anyStep before u :=
      ⟨_, ⟨free, rfl⟩, earlier⟩
    refine ⟨t, before, since, u, rfl, there, later, zero, ?_, checks⟩
    exact (inv_of_reaches there).locks t w (by rw [checks]; rfl)

/-- Two fibers of two workers are parked, a budget of three is added, and a call of worker 1 takes
it: it pops both, and holds the one that is left when frame counts change. -/
def bothWoken : List (Act 2 Nat) :=
  [.call 0 (.waitForFreeBid 0 7), .step 0 false, .step 0 false, .step 0 false,
    .call 0 (.waitForFreeBid 1 8), .step 0 false, .step 0 false, .step 0 false, .add 3,
    .call 1 (.wakeFreeBidWaiters 1), .step 1 false, .step 1 true, .step 1 false, .step 1 false,
    .step 1 false]

theorem wake_budget_conserved_both :
    ∃ s, (system 2 2 Nat).Reaches System.anyStep bothWoken s ∧ s.budget = 0 ∧
      s.pcs 1 = .refund 1 [⟨1, 8⟩, ⟨0, 7⟩] ∧ s.woken = [1, 0] ∧
      s.budget + s.held + s.woken.length = 3 := by
  have performed : (perform (exec 2) (initial 2 Nat) bothWoken).any (fun s =>
      decide (s.budget = 0 ∧ s.pcs 1 = .refund 1 [⟨1, 8⟩, ⟨0, 7⟩] ∧ s.woken = [1, 0] ∧
        s.added = 3)) = true := by
    decide +kernel
  obtain ⟨s, performed, tested⟩ := (Option.any_eq_true _ _).mp performed
  obtain ⟨claimed, left, popped, three⟩ := of_decide_eq_true tested
  have reached : (system 2 2 Nat).Reaches System.anyStep bothWoken s :=
    ⟨_, ⟨0, rfl⟩, perform_path (fun _ _ _ stepped => ⟨stepped, trivial⟩) performed⟩
  refine ⟨s, reached, claimed, left, popped, ?_⟩
  rw [(wake_budget_conserved reached).1.2 (by rw [three]; decide), three]

end UringDb.BufferMgr.WakeBudget
