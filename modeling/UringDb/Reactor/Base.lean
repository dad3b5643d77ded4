import Mathlib

/-!
# The parts both reactors share

`BaseReactor` schedules fibers: a fiber is running, in the ready ring, parked or finished. The
submission heuristic of `check_submit` is the same text in the single-threaded and in the
multi-threaded reactor. A failing `ensure` and the exception of `table.at` are faults.
-/
namespace UringDb.Reactor

def maxFibers : Nat := 256

inductive Fault where
  /-- `ensure(ready_.push(f))` -/
  | readyFull
  /-- `ensure(ready_.pop(f))` -/
  | readyEmpty
  /-- `ensure(n > 0)` of `io_batch` -/
  | emptyBatch
  /-- `ensure(ret > 0)` of `submit_exact` -/
  | nothingSubmitted
  /-- `std::out_of_range`, thrown by `table.at` -/
  | outOfRange
  deriving DecidableEq, Repr

/-! ### The submission heuristic -/

/-- `table.at(i)` for the table of the exponentials of 0 to `maxFibers`. The value `exp(i)` is
represented by `i`. -/
def tableAt (i : Int) : Option Int :=
  if 0 ≤ i ∧ i ≤ maxFibers then some i else none

/-- The decision of `check_submit`. The quotient of the two table entries is at least one, so
that every draw submits, exactly if the first exponent is not the smaller one. Otherwise both
outcomes of the draw are possible, and `lucky` is the one that came. -/
def doSubmit (totalIoFibers fibersSinceFirstIo toSubmit : Int) (lucky : Bool) :
    Except Fault Bool :=
  if fibersSinceFirstIo = totalIoFibers then .ok true
  else
    match tableAt (fibersSinceFirstIo - toSubmit), tableAt (totalIoFibers / 4) with
    | some d, some quarter => .ok (decide (quarter ≤ d) || lucky)
    | _, _ => .error .outOfRange

/-- Within its bounds the table is never missed, and the counter stays below its bound where
nothing is submitted. -/
theorem doSubmit_ok {total since toSubmit : Int} (lucky : Bool) (low : 0 ≤ toSubmit)
    (behind : toSubmit ≤ since) (below : since ≤ total) (fits : total ≤ maxFibers) :
    ∃ submit, doSubmit total since toSubmit lucky = .ok submit ∧
      (submit = false → since < total) := by
  have max : maxFibers = 256 := rfl
  unfold doSubmit
  split
  next => exact ⟨true, rfl, (fun same => by cases same)⟩
  next before =>
    rw [tableAt, tableAt, if_pos (by omega), if_pos (by omega)]
    exact ⟨_, rfl, fun _ => by omega⟩

theorem doSubmit_false {total since toSubmit : Int} {lucky : Bool} (below : since ≤ total)
    (waits : doSubmit total since toSubmit lucky = .ok false) : since < total := by
  unfold doSubmit at waits
  split at waits
  · cases waits
  next before => omega

/-! ### Fibers -/

inductive FiberState where
  | ready
  | running
  | parked
  | finished
  deriving DecidableEq, Repr

/-- The scheduling state of a reactor: `fiber_current_`, `ready_` and the fibers' states. -/
structure Sched (n : Nat) where
  state : Fin n → FiberState
  ready : List (Fin n)
  current : Option (Fin n)

variable {n : Nat}

def Sched.setState (sched : Sched n) (f : Fin n) (state : FiberState) : Sched n :=
  { sched with state := Function.update sched.state f state }

def Sched.push (sched : Sched n) (f : Fin n) : Except Fault (Sched n) :=
  if sched.ready.length = maxFibers then .error .readyFull
  else .ok { sched with ready := sched.ready ++ [f] }

/-- The fiber `f` enqueues itself and hops to the reactor. -/
def Sched.yield (sched : Sched n) (f : Fin n) : Except Fault (Sched n) := do
  let sched ← (sched.setState f .ready).push f
  .ok { sched with current := none }

/-- The fiber `f` hops to the reactor and stays out of the ready ring. -/
def Sched.park (sched : Sched n) (f : Fin n) : Sched n :=
  { sched.setState f .parked with current := none }

def Sched.finish (sched : Sched n) (f : Fin n) : Sched n :=
  { sched.setState f .finished with current := none }

/-- A parked fiber becomes ready; other fibers stay as they are. -/
def Sched.wake (sched : Sched n) (f : Fin n) : Except Fault (Sched n) :=
  match sched.state f with
  | .parked => (sched.setState f .ready).push f
  | _ => .ok sched

/-- The reactor pops a fiber and resumes it. -/
def Sched.resume (sched : Sched n) : Except Fault (Sched n) :=
  match sched.ready with
  | [] => .error .readyEmpty
  | f :: rest => .ok ⟨Function.update sched.state f .running, rest, some f⟩

/-- The states of the fibers say where they are. -/
structure Sched.Ok (sched : Sched n) : Prop where
  nodup : sched.ready.Nodup
  ready : ∀ f, f ∈ sched.ready ↔ sched.state f = .ready
  running : ∀ f, sched.state f = .running ↔ sched.current = some f

namespace Sched

variable {sched sched' : Sched n} {f : Fin n}

/-- At most 256 fibers fit into the ready ring. -/
theorem Ok.length_lt (ok : sched.Ok) (few : n ≤ maxFibers) (out : f ∉ sched.ready) :
    sched.ready.length < maxFibers := by
  have longer : (f :: sched.ready).Nodup := List.nodup_cons.mpr ⟨out, ok.nodup⟩
  have bound := longer.length_le_card
  rw [Fintype.card_fin, List.length_cons] at bound
  omega

theorem Ok.push (ok : sched.Ok) (few : n ≤ maxFibers) (out : f ∉ sched.ready) (state : FiberState) :
    (sched.setState f state).push f =
      .ok ⟨Function.update sched.state f state, sched.ready ++ [f], sched.current⟩ := by
  have room := ok.length_lt few out
  exact if_neg (Nat.ne_of_lt room)

theorem Ok.enqueue (ok : sched.Ok) (out : f ∉ sched.ready) {current : Option (Fin n)}
    (others : ∀ g, g ≠ f → (current = some g ↔ sched.current = some g))
    (leaves : current ≠ some f) :
    (⟨Function.update sched.state f .ready, sched.ready ++ [f], current⟩ : Sched n).Ok := by
  refine ⟨?_, fun g => ?_, fun g => ?_⟩
  · exact List.nodup_append'.mpr ⟨ok.nodup, List.nodup_singleton f, by simpa using out⟩
  · by_cases self : g = f
    · simp [self]
    · simp [self, ok.ready]
  · by_cases self : g = f
    · simp [self, leaves]
    · simp [self, ok.running, others g self]

theorem Ok.current_not_ready (ok : sched.Ok) (at_ : sched.current = some f) : f ∉ sched.ready := by
  rw [ok.ready, (ok.running f).mpr at_]
  exact (fun same => by cases same)

theorem Ok.yield (ok : sched.Ok) (few : n ≤ maxFibers) (at_ : sched.current = some f) :
    ∃ sched', sched.yield f = .ok sched' ∧ sched'.Ok ∧
      sched' = ⟨Function.update sched.state f .ready, sched.ready ++ [f], none⟩ := by
  have out := ok.current_not_ready at_
  have ok' : (⟨Function.update sched.state f .ready, sched.ready ++ [f], none⟩ : Sched n).Ok :=
    ok.enqueue out (fun g other => by simp [at_, Ne.symm other]) (fun same => by cases same)
  refine ⟨_, ?_, ok', rfl⟩
  simp only [Sched.yield, ok.push few out]
  rfl

/-- What waking fibers does: parked fibers move to the end of the ready ring. -/
structure Woken (sched sched' : Sched n) : Prop where
  ready : ∃ more, sched'.ready = sched.ready ++ more
  current : sched'.current = sched.current
  state : ∀ g, sched'.state g = sched.state g ∨
    (sched.state g = .parked ∧ sched'.state g = .ready)

theorem Woken.refl (sched : Sched n) : Woken sched sched :=
  ⟨⟨[], (List.append_nil _).symm⟩, rfl, fun _ => Or.inl rfl⟩

theorem Ok.wake (ok : sched.Ok) (few : n ≤ maxFibers) (f : Fin n) :
    ∃ sched', sched.wake f = .ok sched' ∧ sched'.Ok ∧ Woken sched sched' ∧
      sched'.state f ≠ .parked := by
  unfold Sched.wake
  split
  next parked =>
    have out : f ∉ sched.ready := by
      rw [ok.ready, parked]
      exact (fun same => by cases same)
    have leaves : sched.current ≠ some f := by
      rw [Ne, ← ok.running, parked]
      exact (fun same => by cases same)
    have grows : Woken sched
        ⟨Function.update sched.state f .ready, sched.ready ++ [f], sched.current⟩ := by
      refine ⟨⟨[f], rfl⟩, rfl, fun g => ?_⟩
      by_cases self : g = f
      · subst self
        exact Or.inr ⟨parked, by simp⟩
      · exact Or.inl (by simp [self])
    exact ⟨_, ok.push few out .ready, ok.enqueue out (fun _ _ => Iff.rfl) leaves, grows, by simp⟩
  next other => exact ⟨sched, rfl, ok, .refl sched, other⟩

theorem Ok.leave (ok : sched.Ok) (at_ : sched.current = some f) {state : FiberState}
    (waits : state ≠ .ready ∧ state ≠ .running) :
    ({ sched.setState f state with current := none } : Sched n).Ok := by
  have out := ok.current_not_ready at_
  refine ⟨ok.nodup, fun g => ?_, fun g => ?_⟩
  · by_cases self : g = f
    · simp [self, setState, waits.1, out]
    · simp [self, setState, ok.ready]
  · by_cases self : g = f
    · simp [self, setState, waits.2]
    · simp [self, setState, ok.running, at_, Ne.symm self]

theorem Ok.resume (ok : sched.Ok) (free : sched.current = none) {rest : List (Fin n)}
    (first : sched.ready = f :: rest) :
    (⟨Function.update sched.state f .running, rest, some f⟩ : Sched n).Ok := by
  have nodup := ok.nodup
  rw [first, List.nodup_cons] at nodup
  refine ⟨nodup.2, fun g => ?_, fun g => ?_⟩
  · by_cases self : g = f
    · simp [self, nodup.1]
    · simp [self, ← ok.ready, first]
  · by_cases self : g = f
    · simp [self]
    · simp [self, ok.running, free, Ne.symm self]

end Sched

end UringDb.Reactor
