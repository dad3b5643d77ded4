import UringDb.BufferMgr.Current

/-!
# The budget of concurrent evictions

`evict_pages_inflight` counts the frames that running calls of `evict` have reserved. A call adds
its reservation by a compare-and-swap, takes back what its sweep has not selected, and takes back
the rest at its end.
-/
namespace UringDb.BufferMgr

open PageState PageTable

variable {n : Nat} {cfg : Config n} {sh : Shared n} {f : Fin n} {fib : Fiber} {pc : Pc}
  {r : Result n} {ev : Eviction}

/-! ### What a call holds -/

def Eviction.selectedCount (ev : Eviction) : Nat := ev.toEvict.length + ev.toWrite.length

namespace Pc

/-- The vectors and the budget of the call, once it has a reservation. -/
def eviction? : Pc → Option Eviction
  | .evOwners ev | .evSize ev .. | .evPos ev .. | .evScan ev _ | .evPid ev .. | .evMode ev ..
  | .evIo ev .. | .evEvicting ev .. | .evMarkLoad ev .. | .evMarkCas ev .. | .evSet ev ..
  | .evDirty ev .. | .evClean ev .. | .evPosStore ev .. | .evUnreserve ev | .evIssue ev ..
  | .evAwait ev _ | .evNowPid ev .. | .evErase ev .. | .preEvicting ev .. | .preMode ev ..
  | .preDirty ev .. | .preIo ev .. | .preAnswer ev .. | .evCollapse ev .. | .evPost ev ..
  | .evRelease ev .. | .evUsed ev _ | .evDone ev => some ev
  | _ => none

/-- The call may still select a frame. -/
def sweeping : Pc → Bool
  | .evOwners _ | .evSize .. | .evPos .. | .evScan .. | .evPid .. | .evMode .. | .evIo ..
  | .evEvicting .. | .evMarkLoad .. | .evMarkCas .. | .evSet .. | .evDirty .. | .evClean .. => true
  | _ => false

/-- The call has read `physUsedCount` and has not reserved yet. -/
def reading : Pc → Bool
  | .evLoadInflight _ => true
  | .evReserve _ _ => true
  | _ => false

/-- The current reservation of a call, 0 if there is none. -/
def reservation (pc : Pc) : Nat :=
  match pc.eviction? with
  | some ev => ev.reserved
  | none => 0

def selectedCount (pc : Pc) : Nat :=
  match pc.eviction? with
  | some ev => ev.selectedCount
  | none => 0

/-- The call keeps to its reservation, and while it sweeps there is room for one more frame. -/
def Within (pc : Pc) : Prop :=
  pc.selectedCount ≤ pc.reservation ∧ (pc.sweeping = true → pc.selectedCount < pc.reservation)

/-- A point of the call `ev`, entered with the selection finished. -/
structure Settles (ev : Eviction) (pc : Pc) : Prop where
  eviction : pc.eviction? = some ev
  settled : pc.sweeping = false

theorem Settles.within (settles : Settles ev pc) (inside : ev.selectedCount ≤ ev.reserved) :
    pc.Within := by
  simp only [Within, selectedCount, reservation, settles.eviction, settles.settled]
  exact ⟨inside, fun sweeps => by cases sweeps⟩

end Pc

/-! ### Points a call continues at -/

theorem eviction_client (client : pc.inEvict = false) : pc.eviction? = none := by
  cases pc <;> first | rfl | cases client

theorem job_of_eviction (client : pc.eviction? = none) : pc.job cfg = Job.none := by
  cases pc <;> first | rfl | cases client

theorem reading_client (client : pc.inEvict = false) : pc.reading = false := by
  cases pc <;> first | rfl | cases client

theorem reading_eviction (at_ : pc.eviction? = some ev) : pc.reading = false := by
  cases pc <;> first | rfl | cases at_

theorem within_client (client : pc.eviction? = none) : pc.Within := by
  have rests : pc.sweeping = false := by
    cases pc <;> first | rfl | cases client
  simp only [Pc.Within, Pc.selectedCount, Pc.reservation, client, rests]
  exact ⟨Nat.le_refl 0, fun sweeps => by cases sweeps⟩

section

variable (cfg : Config n) (ev : Eviction)

theorem eviction_sweepNext (sw : Sweep) : (sw.next cfg ev).eviction? = some ev := by
  unfold Sweep.next
  split <;> rfl

theorem eviction_chosen (sw : Sweep) : (ev.chosen cfg sw).eviction? = some ev := by
  unfold Eviction.chosen
  split
  · rfl
  · exact eviction_sweepNext cfg ev sw

/-- The sweep stops as soon as the budget is used up. -/
theorem within_chosen (sw : Sweep) (inside : ev.selectedCount ≤ ev.reserved) :
    (ev.chosen cfg sw).Within := by
  have same := eviction_chosen cfg ev sw
  refine ⟨?_, fun sweeps => ?_⟩
  · simpa only [Pc.selectedCount, Pc.reservation, same] using inside
  · have open_ : ev.selectedCount ≠ ev.reserved := by
      intro full
      rw [Eviction.chosen, if_pos (show ev.toEvict.length + ev.toWrite.length = _ from full)] at sweeps
      cases sweeps
    simpa only [Pc.selectedCount, Pc.reservation, same] using lt_of_le_of_ne inside open_

theorem settles_finishWritten : Pc.Settles ev ev.finishWritten := by
  unfold Eviction.finishWritten
  split <;> exact ⟨rfl, rfl⟩

theorem settles_startWritten : Pc.Settles ev ev.startWritten := by
  unfold Eviction.startWritten
  split
  · exact settles_finishWritten ev
  · exact ⟨rfl, rfl⟩

theorem settles_next (ph : Phase) (rest : List Nat) : Pc.Settles ev (ev.next ph rest) := by
  cases rest with
  | cons b rest => exact ⟨rfl, rfl⟩
  | nil =>
    cases ph with
    | written => exact settles_finishWritten ev
    | clean =>
      change Pc.Settles ev ev.finishClean
      unfold Eviction.finishClean
      split
      · exact settles_startWritten ev
      · exact ⟨rfl, rfl⟩

end

/-! ### The counters -/

theorem u64_lt (x : Int) : u64 x < 2 ^ 64 := by
  unfold u64
  omega

/-- The counters and registrations that only a few steps touch; `physUsedCount` stays a 64-bit
word. -/
structure Unmoved (sh sh' : Shared n) : Prop where
  inflight : sh'.inflight = sh.inflight
  workers : sh'.activeWorkers = sh.activeWorkers
  active : ∀ w, (sh'.locals w).active = (sh.locals w).active
  word : sh.used < 2 ^ 64 → sh'.used < 2 ^ 64

theorem Unmoved.refl (sh : Shared n) : Unmoved sh sh := ⟨rfl, rfl, fun _ => rfl, id⟩

theorem Unmoved.trans {a b c : Shared n} (ab : Unmoved a b) (bc : Unmoved b c) : Unmoved a c :=
  ⟨bc.inflight.trans ab.inflight, bc.workers.trans ab.workers,
    fun w => (bc.active w).trans (ab.active w), fun word => bc.word (ab.word word)⟩

theorem unmoved_setLocal (sh : Shared n) (w : Nat) (loc : Local)
    (same : loc.active = (sh.locals w).active) : Unmoved sh (sh.setLocal w loc) := by
  refine ⟨rfl, rfl, fun v => ?_, id⟩
  by_cases here : v = w
  · subst here
    simp [Shared.setLocal, same]
  · simp [Shared.setLocal, here]

theorem unmoved_accum (d : Int) : Unmoved sh (accumPhysUsed cfg sh f d) := by
  have moved := fun delta => unmoved_setLocal sh (cfg.wid f)
    { ownLocal cfg sh f with delta := delta } rfl
  unfold accumPhysUsed
  dsimp only
  split
  · exact ⟨rfl, rfl, (moved 0).active, fun _ => u64_lt _⟩
  · exact moved _

theorem unmoved_refill (step : Nat) : Unmoved sh (refillFromPool cfg sh f step) := by
  have moved : ∀ idx bids, Unmoved sh (sh.setPool idx bids) := fun _ _ => ⟨rfl, rfl, fun _ => rfl, id⟩
  exact (moved _ _).trans (unmoved_setLocal _ (cfg.wid f) _ rfl)

theorem unmoved_release (bid : Nat) (prefer : Bool) :
    Unmoved sh (releaseFreeBid cfg sh f bid prefer) := by
  unfold releaseFreeBid
  dsimp only
  split
  · exact unmoved_setLocal sh _ _ rfl
  · exact ⟨rfl, rfl, fun _ => rfl, id⟩

theorem unmoved_stored (wr : Write) : Unmoved sh (sh.stored wr) := by
  unfold Shared.stored
  split
  · exact ⟨rfl, rfl, fun _ => rfl, id⟩
  · exact Unmoved.refl sh

theorem unmoved_table {call : Call} {answer : Bool} {out : PageTable.Out} {sh' : Shared n}
    (stepped : tableStep cfg sh f call answer = some (sh', out)) : Unmoved sh sh' := by
  obtain ⟨r, -, put⟩ := Option.map_eq_some_iff.mp stepped
  cases put
  exact ⟨rfl, rfl, fun _ => rfl, id⟩

/-! ### One step -/

/-- A step of a call that is not an eviction. -/
structure Aside (sh : Shared n) (r : Result n) : Prop where
  client : r.fiber.pc.inEvict = false
  still : Unmoved sh r.shared

theorem aside_go {sh' : Shared n} {pc' : Pc} (still : Unmoved sh sh')
    (client : pc'.inEvict = false) (goes : go sh' fib pc' = some r) : Aside sh r := by
  cases goes
  exact ⟨client, still⟩

theorem aside_lookup {pid : Nat} {found : Nat → Pc} {missing : Pc}
    (client : fib.pc.inEvict = false) (onFound : ∀ bid, (found bid).inEvict = false)
    (onMissing : missing.inEvict = false)
    (stepped : lookup cfg sh f fib pid found missing = some r) : Aside sh r := by
  unfold lookup at stepped
  split at stepped
  · cases stepped
  next called => exact aside_go (unmoved_table called) (onFound _) stepped
  next called => exact aside_go (unmoved_table called) onMissing stepped
  next called => exact aside_go (unmoved_table called) client stepped

theorem inEvict_start (fx : Fix) : fx.start.inEvict = false := by
  unfold Fix.start
  split <;> rfl

theorem inEvict_conflict (fx : Fix) : fx.conflict.inEvict = false := by
  unfold Fix.conflict
  split <;> rfl

theorem inEvict_mismatch (fx : Fix) : fx.mismatch.inEvict = false := by
  unfold Fix.mismatch
  split <;> rfl

/-- The steps of `allocPage`, of `handleFault` and of the functions that fix, unfix and validate
leave the counters of the evictor alone. -/
theorem step_aside {choice : Nat} (client : fib.pc.inEvict = false)
    (stepped : stepFiber cfg sh f fib choice = some r) : Aside sh r := by
  have same := Unmoved.refl sh
  have framed : ∀ bid frame, Unmoved sh (sh.setFrame bid frame) :=
    fun _ _ => ⟨rfl, rfl, fun _ => rfl, id⟩
  cases at_ : fib.pc <;> rw [at_] at client <;> try cases client
  all_goals simp only [stepFiber, at_] at stepped
  case fixLookup =>
    exact aside_lookup (by rw [at_]; rfl) (fun _ => rfl) (lands_missing cfg none).inEvict stepped
  case optLookup => exact aside_lookup (by rw [at_]; rfl) (fun _ => rfl) rfl stepped
  case faultLookup pid caller =>
    exact aside_lookup (by rw [at_]; rfl) (fun _ => rfl) (lands_faultRefill cfg sh f pid caller).inEvict
      stepped
  case loseLookup pid caller =>
    exact aside_lookup (by rw [at_]; rfl) (fun _ => rfl) (lands_resume cfg none caller).inEvict stepped
  case refill need why step =>
    unfold refill at stepped
    dsimp only at stepped
    split at stepped
    · exact aside_go (unmoved_refill step) rfl stepped
    · obtain ⟨pc', next, goes⟩ := Option.bind_eq_some_iff.mp stepped
      exact aside_go (unmoved_refill step) (lands_afterRefill next).inEvict goes
  case pop =>
    have popped := fun free => unmoved_setLocal sh (cfg.wid f)
      { ownLocal cfg sh f with free := free } rfl
    unfold pop at stepped
    dsimp only at stepped
    repeat' split at stepped
    all_goals first | exact aside_go (popped _) rfl stepped | cases stepped
  case insert =>
    unfold insert at stepped
    repeat' split at stepped
    all_goals first
      | exact aside_go (unmoved_table ‹_›) rfl stepped
      | exact aside_go (unmoved_table ‹_›) (by rw [at_]; rfl) stepped
      | cases stepped
  case allocAccum | faultAccum => exact aside_go (unmoved_accum 1) rfl stepped
  case loseAccum => exact aside_go (unmoved_accum (-1)) rfl stepped
  case loseRelease pid bid caller => exact aside_go (unmoved_release bid _) rfl stepped
  case acquire need =>
    unfold acquire at stepped
    dsimp only at stepped
    split at stepped
    · exact aside_go same rfl stepped
    · exact aside_go same (lands_checkWatermark cfg need _).inEvict stepped
  case unfixXStore | allocPid =>
    cases stepped
    exact ⟨rfl, rfl, rfl, fun _ => rfl, id⟩
  -- the rest reads or writes one frame and continues outside of an eviction
  all_goals
    try simp only [fixLock, fixPidLocked, undoStore, optLoad, optMark, optPidAgain, unfixSCas,
      setFlag, go] at stepped
    repeat' split at stepped
    all_goals cases stepped
    all_goals
      refine ⟨?_, by first | exact same | exact framed _ _⟩
      first
        | rfl
        | exact inEvict_start _
        | exact inEvict_conflict _
        | exact inEvict_mismatch _
        | exact (lands_resume cfg none _).inEvict

/-- What a step does to the evictor's counter: it moves by what the fiber's reservation moves. -/
structure Balanced (sh : Shared n) (pc : Pc) (r : Result n) : Prop where
  inflight : ((r.shared.inflight : Int) - r.fiber.pc.reservation) % 2 ^ 64 =
    (sh.inflight - pc.reservation) % 2 ^ 64
  bounded : sh.inflight < 2 ^ 64 → r.shared.inflight < 2 ^ 64
  workers : r.shared.activeWorkers = sh.activeWorkers
  active : ∀ w, (r.shared.locals w).active = (sh.locals w).active
  within : (∀ inflight reserved, pc = .evReserve inflight reserved → 0 < reserved) →
    pc.Within → r.fiber.pc.Within
  reading : r.fiber.pc.reading = true → pc = .evLoadUsed ∨ pc.reading = true
  shrinks : r.fiber.pc.reservation ≤ pc.reservation ∨
    ∃ inflight, pc = .evReserve inflight r.fiber.pc.reservation
  word : sh.used < 2 ^ 64 → r.shared.used < 2 ^ 64

theorem Aside.balanced (aside : Aside sh r) (client : pc.inEvict = false) :
    Balanced sh pc r where
  inflight := by
    simp only [Pc.reservation, eviction_client client, eviction_client aside.client,
      aside.still.inflight]
  bounded := by
    rw [aside.still.inflight]
    exact id
  workers := aside.still.workers
  active := aside.still.active
  within := fun _ _ => within_client (eviction_client aside.client)
  reading := fun reads => by
    rw [reading_client aside.client] at reads
    cases reads
  shrinks := .inl (by simp only [Pc.reservation, eviction_client aside.client]; exact Nat.zero_le _)
  word := aside.still.word

theorem balanced_go {sh' : Shared n} {pc' : Pc}
    (goes : go sh' fib pc' = some r) (still : Unmoved sh sh')
    (same : pc'.reservation = pc.reservation) (within : pc.Within → pc'.Within)
    (reading : pc'.reading = true → pc = .evLoadUsed ∨ pc.reading = true) : Balanced sh pc r := by
  cases goes
  exact ⟨by rw [same, still.inflight], by rw [still.inflight]; exact id, still.workers,
    still.active, fun _ => within, reading, .inl (Nat.le_of_eq same), still.word⟩

theorem balanced_same {sh' : Shared n} {pc' : Pc} (goes : go sh' fib pc' = some r)
    (still : Unmoved sh sh') (at_ : pc.eviction? = some ev) (same : pc'.eviction? = some ev)
    (rests : pc'.sweeping = true → pc.sweeping = true) : Balanced sh pc r := by
  refine balanced_go goes still (by simp only [Pc.reservation, at_, same]) (fun within => ?_)
    (fun reads => by rw [reading_eviction same] at reads; cases reads)
  simp only [Pc.Within, Pc.selectedCount, Pc.reservation, at_, same] at within ⊢
  exact ⟨within.1, fun sweeps => within.2 (rests sweeps)⟩

/-- A step behind the selection, which neither the budget nor the selected frames change in. -/
theorem balanced_settles {sh' : Shared n} {pc' : Pc} {ev' : Eviction}
    (goes : go sh' fib pc' = some r) (still : Unmoved sh sh') (at_ : pc.eviction? = some ev)
    (settles : Pc.Settles ev' pc')
    (same : ev'.reserved = ev.reserved ∧ ev'.selectedCount = ev.selectedCount) :
    Balanced sh pc r := by
  refine balanced_go goes still ?_ (fun within => settles.within ?_)
    (fun reads => by rw [reading_eviction settles.eviction] at reads; cases reads)
  · simp only [Pc.reservation, at_, settles.eviction, same.1]
  · have inside := within.1
    simp only [Pc.selectedCount, Pc.reservation, at_] at inside
    rw [same.1, same.2]
    exact inside

theorem balanced_erase {ph : Phase} {bid pid : Nat} {rest : List Nat}
    (at_ : fib.pc = .evErase ev ph bid pid rest)
    (stepped : evErase cfg sh f fib ev ph bid pid rest = some r) :
    Balanced sh (.evErase ev ph bid pid rest) r := by
  unfold evErase at stepped
  split at stepped
  · cases stepped
  next called =>
    cases stepped
    have still := unmoved_table called
    exact ⟨by rw [still.inflight]; rfl, by rw [still.inflight]; exact id, still.workers,
      still.active, fun _ within => within, (fun reads => by cases reads), .inl (Nat.le_refl _),
      still.word⟩
  next called =>
    exact balanced_settles stepped (unmoved_table called) rfl (settles_next ev ph rest) ⟨rfl, rfl⟩
  next called =>
    have still := unmoved_table called
    split at stepped
    · split at stepped <;> exact balanced_settles stepped still rfl ⟨rfl, rfl⟩ ⟨rfl, rfl⟩
    · exact balanced_settles stepped still rfl (by rw [at_]; exact ⟨rfl, rfl⟩) ⟨rfl, rfl⟩

theorem balanced_reserve {inflight reserved choice : Nat}
    (stepped : evReserve sh fib inflight reserved choice = some r) :
    Balanced sh (.evReserve inflight reserved) r := by
  unfold evReserve at stepped
  split at stepped
  next swaps =>
    cases stepped
    refine ⟨?_, fun _ => ?_, rfl, fun _ => rfl, fun positive _ => ?_, (fun reads => by cases reads),
      .inr ⟨inflight, rfl⟩, id⟩
    · simp only [Pc.reservation, Pc.eviction?, u64, swaps.1]
      omega
    · simp only [u64]
      omega
    · have room := positive _ _ rfl
      exact ⟨Nat.zero_le _, fun _ => room⟩
  next => exact balanced_go stepped (Unmoved.refl sh) rfl id (fun reads => by cases reads)

theorem balanced_unreserve (stepped : evUnreserve sh fib ev = some r) :
    Balanced sh (.evUnreserve ev) r := by
  obtain ⟨pc', settles, shared, at_⟩ : ∃ pc',
      Pc.Settles { ev with reserved := min ev.reserved ev.selectedCount } pc' ∧
      r.shared = (if ev.selectedCount < ev.reserved then
        { sh with inflight := u64 (sh.inflight - (ev.reserved - ev.selectedCount)) } else sh) ∧
      r.fiber.pc = pc' := by
    cases stepped
    refine ⟨_, ?_, rfl, rfl⟩
    dsimp only
    split
    · exact settles_next _ .clean ev.toEvict
    · exact ⟨rfl, rfl⟩
  have before : (Pc.evUnreserve ev).reservation = ev.reserved := rfl
  have behind : r.fiber.pc.reservation = min ev.reserved ev.selectedCount := by
    simp only [at_, Pc.reservation, settles.eviction]
  have kept : (Pc.evUnreserve ev).Within → r.fiber.pc.Within := by
    intro within
    rw [at_]
    exact settles.within (Nat.le_min.mpr ⟨within.1, Nat.le_refl _⟩)
  have unread : r.fiber.pc.reading = true →
      Pc.evUnreserve ev = .evLoadUsed ∨ (Pc.evUnreserve ev).reading = true := by
    rw [at_, reading_eviction settles.eviction]
    exact fun reads => by cases reads
  by_cases partly : ev.selectedCount < ev.reserved
  · rw [if_pos partly] at shared
    refine ⟨?_, fun _ => ?_, by rw [shared], fun w => by rw [shared], fun _ => kept,
      unread, .inl (by rw [before, behind]; exact Nat.min_le_left _ _), by rw [shared]; exact id⟩
    · rw [shared, before, behind]
      simp only [u64]
      omega
    · rw [shared]
      simp only [u64]
      omega
  · rw [if_neg partly] at shared
    refine ⟨?_, by rw [shared]; exact id, by rw [shared], fun w => by rw [shared], fun _ => kept,
      unread, .inl (by rw [before, behind]; exact Nat.min_le_left _ _), by rw [shared]; exact id⟩
    rw [shared, before, behind, Nat.min_eq_left (Nat.le_of_not_lt partly)]

theorem balanced_done (stepped : evDone sh fib ev = some r) : Balanced sh (.evDone ev) r := by
  cases stepped
  refine ⟨?_, fun _ => ?_, rfl, fun _ => rfl, fun _ _ => within_client rfl,
    (fun reads => by cases reads), .inl (Nat.zero_le _), id⟩
  · simp only [Pc.reservation, Pc.eviction?, u64]
    omega
  · simp only [u64]
    omega

theorem balanced_select {sh' : Shared n} {ev' : Eviction} {sw : Sweep}
    (goes : go sh' fib (ev'.chosen cfg sw) = some r) (still : Unmoved sh sh')
    (at_ : pc.eviction? = some ev) (sweeps : pc.sweeping = true)
    (same : ev'.reserved = ev.reserved) (more : ev'.selectedCount = ev.selectedCount + 1) :
    Balanced sh pc r := by
  refine balanced_go goes still ?_ (fun within => within_chosen cfg ev' sw ?_)
    (fun reads => by rw [reading_eviction (eviction_chosen cfg ev' sw)] at reads; cases reads)
  · simp only [Pc.reservation, at_, eviction_chosen, same]
  · have room := within.2 sweeps
    simp only [Pc.selectedCount, Pc.reservation, at_] at room
    rw [more, same]
    exact room

theorem step_balanced {choice : Nat} (stepped : stepFiber cfg sh f fib choice = some r) :
    Balanced sh fib.pc r := by
  by_cases client : fib.pc.inEvict = false
  · exact (step_aside client stepped).balanced client
  have same := Unmoved.refl sh
  have framed : ∀ bid frame, Unmoved sh (sh.setFrame bid frame) :=
    fun _ _ => ⟨rfl, rfl, fun _ => rfl, id⟩
  cases at_ : fib.pc <;> rw [at_] at client <;> try exact absurd rfl client
  all_goals simp only [stepFiber, at_] at stepped
  case evLoadUsed => exact balanced_go stepped same rfl id (fun _ => .inl rfl)
  case evLoadInflight =>
    unfold evLoadInflight at stepped
    split at stepped
    · exact balanced_go stepped same rfl id (fun _ => .inr rfl)
    · cases stepped
      exact ⟨rfl, id, rfl, fun _ => rfl, fun _ _ => within_client rfl, (fun reads => by cases reads),
        .inl (Nat.le_refl _), id⟩
  case evReserve => exact balanced_reserve stepped
  case evDirty =>
    unfold evDirty at stepped
    split at stepped
    · exact balanced_same stepped same rfl rfl id
    · refine balanced_select stepped same rfl rfl rfl ?_
      simp only [Eviction.selectedCount, List.length_append, List.length_singleton]
      omega
  case evClean =>
    refine balanced_select stepped (framed _ _) rfl rfl rfl ?_
    simp only [Eviction.selectedCount, List.length_append, List.length_singleton]
    omega
  case evPosStore =>
    cases stepped
    exact ⟨rfl, id, rfl, fun _ => rfl, fun _ within => within, (fun reads => by cases reads),
      .inl (Nat.le_refl _), id⟩
  case evUnreserve => exact balanced_unreserve stepped
  case evAwait ev pending =>
    unfold evAwait at stepped
    split at stepped
    · split at stepped
      · exact balanced_settles stepped same rfl (settles_next ev .clean ev.toEvict) ⟨rfl, rfl⟩
      · cases stepped
    · exact balanced_same stepped (unmoved_stored _) rfl rfl id
  case evErase => exact balanced_erase at_ stepped
  case preAnswer ev ph bid pid rest answer =>
    obtain ⟨called, stepped', goes⟩ := Option.bind_eq_some_iff.mp stepped
    refine balanced_settles goes (unmoved_table stepped') rfl ?_ ⟨rfl, rfl⟩
    split
    · exact ⟨rfl, rfl⟩
    · exact settles_next ev ph rest
  case evCollapse =>
    unfold evCollapse at stepped
    split at stepped
    · cases stepped
    next called => exact balanced_same stepped (unmoved_table called) rfl rfl id
    next called =>
      exact balanced_settles stepped (unmoved_table called) rfl (by rw [at_]; exact ⟨rfl, rfl⟩)
        ⟨rfl, rfl⟩
  case evPost ev ph bid pid rest =>
    exact balanced_settles stepped (framed _ _) rfl (settles_next _ ph rest) ⟨rfl, rfl⟩
  case evRelease ev ph pool =>
    have settles : ∀ ev' : Eviction, Pc.Settles ev'
        (if pool + 1 < cfg.poolCount then .evRelease ev' ph (pool + 1) else .evUsed ev' ph) := by
      intro ev'
      split <;> exact ⟨rfl, rfl⟩
    exact balanced_settles stepped ⟨rfl, rfl, fun _ => rfl, id⟩ rfl (settles _) ⟨rfl, rfl⟩
  case evUsed ev ph =>
    have moved := unmoved_setLocal sh (cfg.wid f) { ownLocal cfg sh f with delta := 0 } rfl
    have still := fun used : Int => (⟨rfl, rfl, moved.active, fun _ => u64_lt used⟩ : Unmoved sh
      { sh.setLocal (cfg.wid f) _ with used := u64 used })
    cases ph with
    | clean => exact balanced_settles stepped (still _) rfl (settles_startWritten _) ⟨rfl, rfl⟩
    | written => exact balanced_settles stepped (still _) rfl ⟨rfl, rfl⟩ ⟨rfl, rfl⟩
  case evDone => exact balanced_done stepped
  -- the other steps read, or mark a frame, and go on with the same call
  all_goals
    try simp only [evSize, evScan, evIssue] at stepped
    repeat' split at stepped
    all_goals first
      | exact balanced_same stepped same rfl rfl id
      | exact balanced_same stepped (framed _ _) rfl rfl id
      | exact balanced_same stepped same rfl (eviction_sweepNext cfg _ _) (fun _ => rfl)
      | exact balanced_same stepped (framed _ _) rfl (eviction_sweepNext cfg _ _) (fun _ => rfl)
      | exact balanced_settles stepped same rfl ⟨rfl, rfl⟩ ⟨rfl, rfl⟩
      | cases stepped

/-- A call leaves the counters alone and is no eviction with a reservation yet. -/
theorem call_begins {op : Op} (called : call cfg sh f fib op = some r) :
    Unmoved sh r.shared ∧ r.fiber.pc.eviction? = none ∧ r.fiber.pc.reading = false := by
  have same := Unmoved.refl sh
  cases op <;> simp only [call] at called
  case fixSFrom | fixXFrom | validateO | evict =>
    split at called <;> cases called
    exact ⟨same, rfl, rfl⟩
  case unfix lock =>
    split at called <;> cases called
    cases lock.kind <;> exact ⟨same, rfl, rfl⟩
  case modify =>
    split at called <;> cases called
    exact ⟨⟨rfl, rfl, fun _ => rfl, id⟩, rfl, rfl⟩
  all_goals
    cases called
    exact ⟨same, rfl, rfl⟩

theorem call_balanced {op : Op} (idle : fib.pc = .idle) (called : call cfg sh f fib op = some r) :
    Balanced sh fib.pc r := by
  have outside : fib.pc.reservation = 0 := by rw [idle]; rfl
  obtain ⟨still, client, unread⟩ := call_begins called
  have none_ : r.fiber.pc.reservation = 0 := by simp only [Pc.reservation, client]
  refine ⟨by rw [still.inflight, outside, none_], by rw [still.inflight]; exact id,
    still.workers, still.active, fun _ _ => within_client client, fun reads => ?_,
    .inl (by rw [none_]; exact Nat.zero_le _), still.word⟩
  rw [unread] at reads
  cases reads

/-! ### What a call frees -/

/-- The frames a call has freed or may still free are among those it has selected. -/
def Job.Frees (job : Job) : Prop :=
  job.chosen.length + job.retiring.length + job.freed.length ≤ job.selected.length

section

variable {phase : Phase} {rest chosen retiring freed : List Nat}

theorem frees_erasing_iff : (ev.erasing chosen retiring freed).Frees ↔
    chosen.length + retiring.length + freed.length ≤ ev.selectedCount := by
  simp only [Job.Frees, Eviction.erasing, Eviction.selected, Eviction.selectedCount,
    List.length_append]

theorem frees_next (frees : (ev.erasing (ev.after phase rest) [] ev.freed).Frees) :
    ((ev.next phase rest).job cfg).Frees := by
  rwa [job_next]

theorem frees_giveUp {b : Nat} (frees : (ev.erase phase b rest).Frees) :
    ((ev.next phase rest).job cfg).Frees := by
  refine frees_next ?_
  rw [Eviction.erase] at frees
  rw [frees_erasing_iff, List.length_cons] at *
  omega

end

section Steps

variable {choice : Nat} (stepped : stepFiber cfg sh f fib choice = some r)
  (frees : (fib.pc.job cfg).Frees)

include stepped frees

theorem frees_sweep (part : fib.pc.part = .sweeping) : (r.fiber.pc.job cfg).Frees := by
  cases at_ : fib.pc <;> rw [at_] at part frees <;> try cases part
  all_goals simp only [stepFiber, at_] at stepped
  case evDirty | evClean =>
    -- one more frame is selected, and none is freed before the sweep is over
    try simp only [evDirty] at stepped
    try split at stepped
    all_goals
      cases stepped
      first
        | exact frees
        | rw [job_chosen]
          simp only [Job.Frees, Pc.job, Eviction.sweeping, Eviction.selected, List.length_append,
            List.length_singleton, List.length_nil] at frees ⊢
          omega
  case evUnreserve =>
    cases stepped
    dsimp only
    split
    next none_ =>
      refine frees_next ?_
      rw [frees_erasing_iff]
      simp only [Job.Frees, Pc.job, Eviction.sweeping, Eviction.selected, Eviction.after,
        Eviction.selectedCount, List.length_append] at frees ⊢
      exact frees
    next => exact frees
  -- no frame is selected or freed by the others
  all_goals
    try simp only [evLoadInflight, evReserve, evSize, evScan, go] at stepped
    repeat' split at stepped
    all_goals cases stepped
    all_goals first
      | exact frees
      | rw [job_sweepNext]; exact frees

theorem frees_erase (part : fib.pc.part = .erasing) : (r.fiber.pc.job cfg).Frees := by
  cases at_ : fib.pc <;> rw [at_] at part frees <;> try cases part
  all_goals simp only [stepFiber, at_] at stepped
  case evErase ev ph b p rest =>
    simp only [evErase] at stepped
    split at stepped
    · cases stepped
    · cases stepped
      simp only [Pc.job] at frees ⊢
      change (ev.erase ph b rest).Frees at frees
      rw [Eviction.erase] at frees
      rw [frees_erasing_iff] at *
      simp only [List.length_cons, List.length_nil] at *
      omega
    · cases stepped
      exact frees_giveUp frees
    · split at stepped
      · split at stepped <;> cases stepped <;> exact frees
      · cases stepped
        rw [at_]
        exact frees
  case preAnswer =>
    obtain ⟨called, -, goes⟩ := Option.bind_eq_some_iff.mp stepped
    cases goes
    dsimp only
    split
    · exact frees
    · exact frees_giveUp frees
  case evPost ev ph b p rest =>
    cases stepped
    refine frees_next ?_
    simp only [Pc.job] at frees
    rw [frees_erasing_iff] at *
    simp only [Eviction.selectedCount, Eviction.after, List.length_append, List.length_singleton,
      List.length_nil] at *
    omega
  case evRelease ev ph pool =>
    cases stepped
    have fewer : (ev.freed.filter fun bid => pool + 1 ≤ cfg.freePoolIndexForBid bid).length ≤
        (ev.freed.filter fun bid => pool ≤ cfg.freePoolIndexForBid bid).length := by
      refine (List.monotone_filter_right _ fun bid later => ?_).length_le
      exact decide_eq_true (Nat.le_of_succ_le (of_decide_eq_true later))
    dsimp only
    split
    all_goals
      simp only [Pc.job] at frees ⊢
      rw [frees_erasing_iff] at *
    · exact Nat.le_trans (Nat.add_le_add_left fewer _) frees
    · exact Nat.le_trans (Nat.add_le_add_left (Nat.zero_le _) _) frees
  case evUsed ev ph =>
    cases stepped
    cases ph with
    | clean =>
      dsimp only
      rw [job_startWritten]
      exact frees
    | written => exact Nat.zero_le _
  -- writing and collapsing free nothing
  all_goals
    try simp only [evIssue, evAwait, evCollapse, go] at stepped
    repeat' split at stepped
    all_goals cases stepped
    all_goals first
      | exact frees
      | exact frees_next frees
      | exact Nat.le_refl 0
      | rw [at_]; exact frees

end Steps

theorem step_frees {choice : Nat} (stepped : stepFiber cfg sh f fib choice = some r)
    (frees : (fib.pc.job cfg).Frees) : (r.fiber.pc.job cfg).Frees := by
  by_cases client : fib.pc.inEvict = false
  · rw [job_client (step_aside client stepped).client]
    exact Nat.le_refl 0
  · cases part : fib.pc.part
    case sweeping => exact frees_sweep stepped frees part
    case erasing => exact frees_erase stepped frees part
    all_goals exact absurd (by rw [Pc.inEvict, part]) client

/-! ### Runs -/

/-- A state, and what the running `evict` of each fiber has read of `physUsedCount`. -/
structure Audited (n : Nat) where
  state : State n
  usedRead : Fin n → Nat

namespace Audited

variable {a a' : Audited n}

def reads (a : Audited n) : Act n → Fin n → Nat
  | .step f _, g =>
    if g = f then
      match (a.state.fibers g).pc with
      | .evLoadUsed => a.state.shared.used
      | _ => a.usedRead g
    else a.usedRead g
  | _, g => a.usedRead g

def exec (cfg : Config n) (a : Audited n) (act : Act n) : Option (Audited n × Out) :=
  (BufferMgr.exec cfg a.state act).map fun r => (⟨r.1, a.reads act⟩, r.2)

def initial (cfg : Config n) : Audited n := ⟨BufferMgr.initial cfg, fun _ => 0⟩

def system (cfg : Config n) : System (Audited n) (Act n × Out) :=
  System.ofStep (fun a => a = initial cfg) (exec cfg)

/-- The free frames and the reserved ones, as the entry test of `evict` adds them. -/
def covered (cfg : Config n) (used inflight : Nat) : Nat :=
  u64 (u64 (cfg.pageCount - used) + inflight)

/-- What a call that has read `used` knows when it is about to reserve. -/
def Knows (cfg : Config n) (used : Nat) : Pc → Prop
  | .evLoadInflight read => read = used
  | .evReserve inflight reserved => covered cfg used inflight < cfg.freeTarget ∧
      reserved = max 1 (min cfg.evictBatch (cfg.freeTarget - covered cfg used inflight))
  | _ => True

theorem knows_unread {used : Nat} (unread : pc.reading = false) : Knows cfg used pc := by
  cases pc <;> trivial

/-- The counter agrees with the reservations, and every call keeps to its own. -/
structure Audit (cfg : Config n) (a : Audited n) : Prop where
  inflight : ((a.state.shared.inflight : Int) -
    ∑ f, ((a.state.fibers f).pc.reservation : Int)) % 2 ^ 64 = 0
  bounded : a.state.shared.inflight < 2 ^ 64
  within : ∀ f, (a.state.fibers f).pc.Within
  affordable : ∀ f, (a.state.fibers f).pc.reservation ≤ cfg.freeTarget ∧
    (a.state.fibers f).pc.reservation ≤ max 1 cfg.evictBatch
  knows : ∀ f, Knows cfg (a.usedRead f) (a.state.fibers f).pc
  frees : ∀ f, ((a.state.fibers f).pc.job cfg).Frees

/-- A call never reserves more than the deficit or than a batch. -/
theorem Knows.reserved_le {used inflight reserved : Nat}
    (knows : Knows cfg used (.evReserve inflight reserved)) :
    0 < reserved ∧ reserved ≤ cfg.freeTarget - covered cfg used inflight ∧
      reserved ≤ max 1 cfg.evictBatch := by
  obtain ⟨below, rfl⟩ := knows
  omega

theorem knows_step {choice : Nat}
    (stepped : stepFiber cfg a.state.shared f (a.state.fibers f) choice = some r)
    (knows : Knows cfg (a.usedRead f) (a.state.fibers f).pc) :
    Knows cfg (a.reads (.step f choice) f) r.fiber.pc := by
  have balanced := step_balanced stepped
  cases at_ : (a.state.fibers f).pc <;> rw [at_] at balanced knows
  case evLoadUsed =>
    simp only [stepFiber, at_] at stepped
    cases stepped
    simp [reads, at_, Knows]
  case evLoadInflight used =>
    cases knows
    simp only [stepFiber, at_, evLoadInflight] at stepped
    split at stepped <;> cases stepped
    next passes =>
      simp only [reads, at_, if_true]
      exact ⟨of_decide_eq_true passes, rfl⟩
    next => trivial
  case evReserve inflight reserved =>
    simp only [stepFiber, at_, evReserve] at stepped
    split at stepped <;> cases stepped <;> trivial
  all_goals
    refine knows_unread (Bool.eq_false_iff.mpr fun reads => ?_)
    rcases balanced.reading reads with here | here <;> cases here

theorem Audit.after {usedRead : Fin n → Nat} (audit : Audit cfg a)
    (balanced : Balanced a.state.shared (a.state.fibers f).pc r)
    (others : ∀ g, g ≠ f → usedRead g = a.usedRead g)
    (knows : Knows cfg (usedRead f) r.fiber.pc) (frees : (r.fiber.pc.job cfg).Frees) :
    Audit cfg ⟨(a.state.put f r).1, usedRead⟩ := by
  have at_ : ((a.state.put f r).1.fibers f) = r.fiber := by simp [State.put]
  have apart : ∀ g, g ≠ f → (a.state.put f r).1.fibers g = a.state.fibers g :=
    fun g ne => by simp [State.put, ne]
  have positive : ∀ inflight reserved,
      (a.state.fibers f).pc = .evReserve inflight reserved → 0 < reserved := by
    intro inflight reserved reserves
    have known := audit.knows f
    rw [reserves] at known
    exact known.reserved_le.1
  refine ⟨?_, balanced.bounded audit.bounded, fun g => ?_, fun g => ?_, fun g => ?_, fun g => ?_⟩
  · have moved := sum_update Finset.univ a.state.fibers f r.fiber
      (fun fib => (fib.pc.reservation : Int)) (Finset.mem_univ f)
    have before := audit.inflight
    have here := balanced.inflight
    dsimp only [State.put]
    omega
  · by_cases same : g = f
    · subst same
      rw [at_]
      exact balanced.within positive (audit.within g)
    · rw [apart g same]
      exact audit.within g
  · by_cases same : g = f
    · subst same
      rw [at_]
      rcases balanced.shrinks with less | ⟨inflight, reserves⟩
      · exact ⟨less.trans (audit.affordable g).1, less.trans (audit.affordable g).2⟩
      · have known := audit.knows g
        rw [reserves] at known
        exact ⟨known.reserved_le.2.1.trans (Nat.sub_le _ _), known.reserved_le.2.2⟩
    · rw [apart g same]
      exact audit.affordable g
  · by_cases same : g = f
    · subst same
      rw [at_]
      exact knows
    · rw [apart g same]
      dsimp only
      rw [others g same]
      exact audit.knows g
  · by_cases same : g = f
    · subst same
      rw [at_]
      exact frees
    · rw [apart g same]
      exact audit.frees g

theorem audit_exec {act : Act n} {out : Out} (audit : Audit cfg a)
    (execs : exec cfg a act = some (a', out)) : Audit cfg a' := by
  obtain ⟨⟨s', out'⟩, moved, put⟩ := Option.map_eq_some_iff.mp execs
  cases put
  cases act with
  | call f op =>
    simp only [BufferMgr.exec] at moved
    split at moved
    next allowed =>
      obtain ⟨r, called, put⟩ := Option.map_eq_some_iff.mp moved
      cases put
      have idle := isIdle_iff.mp allowed.1
      have balanced := call_balanced idle called
      have frees : (r.fiber.pc.job cfg).Frees := by
        rw [job_of_eviction (call_begins called).2.1]
        exact Nat.le_refl 0
      refine audit.after balanced (fun _ _ => rfl)
        (knows_unread (Bool.eq_false_iff.mpr fun reads => ?_)) frees
      rw [idle] at balanced
      rcases balanced.reading reads with here | here <;> cases here
    next => cases moved
  | step f choice =>
    obtain ⟨r, stepped, put⟩ := Option.map_eq_some_iff.mp moved
    cases put
    refine audit.after (step_balanced stepped) (fun g ne => ?_) (knows_step stepped (audit.knows f))
      (step_frees stepped (audit.frees f))
    exact if_neg ne
  | initWorker w | shutdownWorker w =>
    simp only [BufferMgr.exec] at moved
    split at moved <;> cases moved
    exact ⟨audit.inflight, audit.bounded, audit.within, audit.affordable, audit.knows, audit.frees⟩

theorem audit_reaches {labels : List (Act n × Out)}
    (reached : (system cfg).Reaches System.anyStep labels a) : Audit cfg a := by
  refine reached.invariant (P := Audit cfg) ?_ fun _ _ _ audit _ stepped => audit_exec audit stepped
  rintro _ rfl
  exact ⟨by simp [initial, BufferMgr.initial, Pc.reservation, Pc.eviction?],
    by simp [initial, BufferMgr.initial], fun _ => within_client rfl,
    fun _ => ⟨Nat.zero_le _, Nat.zero_le _⟩, fun _ => trivial, fun _ => Nat.le_refl 0⟩

/-- A call of `releaseFreed` has no more frames than a batch. -/
theorem freed_le {labels : List (Act n × Out)} {phase : Phase}
    (reached : (system cfg).Reaches System.anyStep labels a)
    (releases : (a.state.fibers f).pc = .evRelease ev phase 0) :
    ev.freed.length ≤ max 1 cfg.evictBatch := by
  have audit := audit_reaches reached
  have frees := audit.frees f
  have within : ev.selectedCount ≤ ev.reserved := by
    have inside := (audit.within f).1
    rwa [releases] at inside
  have reserved : ev.reserved ≤ max 1 cfg.evictBatch := by
    have batch := (audit.affordable f).2
    rwa [releases] at batch
  rw [releases, job_evRelease, frees_erasing_iff] at frees
  omega

def reservations (a : Audited n) : Nat := ∑ f, (a.state.fibers f).pc.reservation

theorem Audit.inflight_eq (audit : Audit cfg a) :
    a.state.shared.inflight = a.reservations % 2 ^ 64 := by
  have zero := audit.inflight
  have bounded := audit.bounded
  have cast : ((a.reservations : Nat) : Int) = ∑ f, ((a.state.fibers f).pc.reservation : Int) := by
    simp [reservations]
  omega

theorem Audit.reservations_le (audit : Audit cfg a) : a.reservations ≤ n * cfg.freeTarget := by
  calc a.reservations ≤ ∑ _f : Fin n, cfg.freeTarget :=
        Finset.sum_le_sum fun f _ => (audit.affordable f).1
    _ = n * cfg.freeTarget := by simp

theorem reserve_cases {choice inflight reserved : Nat} {out : Out}
    (at_ : (a.state.fibers f).pc = .evReserve inflight reserved)
    (execs : exec cfg a (.step f choice) = some (a', out)) :
    (a'.state.fibers f).pc.reservation = 0 ∨
      a.state.shared.inflight = inflight ∧ a'.state.shared.inflight = u64 (inflight + reserved) := by
  obtain ⟨⟨s', out'⟩, moved, put⟩ := Option.map_eq_some_iff.mp execs
  cases put
  obtain ⟨r, stepped, put⟩ := Option.map_eq_some_iff.mp moved
  cases put
  simp only [stepFiber, at_, evReserve] at stepped
  split at stepped <;> cases stepped
  next swaps => exact .inr ⟨swaps.1, rfl⟩
  next => exact .inl (by simp [Pc.reservation, Pc.eviction?])

/-- The free frames the call has read and the reserved frames stay within the target. -/
theorem Audit.reserve_le (audit : Audit cfg a) {choice inflight reserved : Nat} {out : Out}
    (fits : cfg.pageCount + n * cfg.freeTarget < 2 ^ 64)
    (at_ : (a.state.fibers f).pc = .evReserve inflight reserved)
    (execs : exec cfg a (.step f choice) = some (a', out))
    (reserves : (a'.state.fibers f).pc.reservation ≠ 0) (sane : a.usedRead f ≤ cfg.pageCount) :
    cfg.pageCount - a.usedRead f + a'.state.shared.inflight ≤ cfg.freeTarget := by
  obtain ⟨here, there⟩ := (reserve_cases at_ execs).resolve_left reserves
  have known := audit.knows f
  rw [at_] at known
  have below : covered cfg (a.usedRead f) inflight < cfg.freeTarget := known.1
  have least := known.reserved_le.2.1
  have sum := audit.inflight_eq
  have small := audit.reservations_le
  rw [here] at sum
  rw [there]
  unfold covered u64 at *
  omega

/-- **The budget of concurrent evictions.** The counter is the sum of the reservations, as a 64-bit
word and exactly when all reservations together fit into one; no call selects more frames than it
has reserved; and no reservation goes beyond the target. -/
theorem reservations_exact (cfg : Config n) {labels : List (Act n × Out)}
    (reached : (system cfg).Reaches System.anyStep labels a) :
    a.state.shared.inflight = a.reservations % 2 ^ 64 ∧
    ((∀ f, (a.state.fibers f).pc.inEvict = false) → a.state.shared.inflight = 0) ∧
    (∀ f, (a.state.fibers f).pc.selectedCount ≤ (a.state.fibers f).pc.reservation) ∧
    (cfg.pageCount + n * cfg.freeTarget < 2 ^ 64 →
      a.state.shared.inflight = a.reservations ∧
      ∀ f inflight reserved choice a' out,
        (a.state.fibers f).pc = .evReserve inflight reserved →
        exec cfg a (.step f choice) = some (a', out) →
        (a'.state.fibers f).pc.reservation ≠ 0 → a.usedRead f ≤ cfg.pageCount →
        cfg.pageCount - a.usedRead f + a'.state.shared.inflight ≤ cfg.freeTarget) := by
  have audit := audit_reaches reached
  refine ⟨audit.inflight_eq, fun none_ => ?_, fun f => (audit.within f).1, fun fits => ⟨?_, ?_⟩⟩
  · have zero : a.reservations = 0 := Finset.sum_eq_zero fun f _ => by
      simp only [Pc.reservation, eviction_client (none_ f)]
    rw [audit.inflight_eq, zero]
    rfl
  · have small := audit.reservations_le
    rw [audit.inflight_eq]
    exact Nat.mod_eq_of_lt (by omega)
  · intro f inflight reserved choice a' out at_ execs reserves sane
    exact audit.reserve_le fits at_ execs reserves sane

/-- The call has found nothing reserved and wants one frame. -/
def reservesOne : Pc → Bool
  | .evReserve 0 1 => true
  | _ => false

theorem reservesOne_spec (reserving : reservesOne pc = true) : pc = .evReserve 0 1 := by
  unfold reservesOne at reserving
  split at reserving
  · rfl
  · cases reserving

/-- The eviction fibers of two workers; all of the four frames are to be kept free, and
`evict_batch` is 0. -/
def twoEvictors : Config 2 :=
  { twoWorkers with
    pageCount := 4
    target := 4
    evictBatch := 0
    table := .ofBits 3
    evictor := fun _ => true }

/-- Both calls have read the counters and want the one frame that is missing. -/
def rivals : List (Act 2) :=
  [.initWorker 0, .initWorker 1, .call 0 .evict, .call 1 .evict, .step 0 1, .step 1 1, .step 0 1,
    .step 1 1]

/-- The first one gets it. -/
theorem reservations_exact_rivals :
    ∃ labels a a' out, (system twoEvictors).Reaches System.anyStep labels a ∧
      exec twoEvictors a (.step 0 1) = some (a', out) ∧ a.state.shared.inflight = a.reservations ∧
      twoEvictors.pageCount - a.usedRead 0 = 3 ∧
      twoEvictors.pageCount - a.usedRead 0 + a'.state.shared.inflight ≤ twoEvictors.freeTarget := by
  have passed : (drive (exec twoEvictors) (fun _ _ => true) (initial twoEvictors) rivals).any
      (fun r => decide (r.1.usedRead 0 = 1) && reservesOne (r.1.state.fibers 0).pc &&
        (exec twoEvictors r.1 (.step 0 1)).any
        fun t => decide ((t.1.state.fibers 0).pc.reservation = 1)) = true := by
    decide +kernel
  obtain ⟨a, labels, reached, tested⟩ := drive_anyStep (system twoEvictors) rfl rfl passed
  simp only [Bool.and_eq_true, decide_eq_true_eq] at tested
  obtain ⟨⟨readOne, reserving⟩, swaps⟩ := tested
  obtain ⟨⟨a', out⟩, execs, reserves⟩ := (Option.any_eq_true _ _).mp swaps
  have reserves : (a'.state.fibers 0).pc.reservation = 1 := of_decide_eq_true reserves
  have exact_ := (reservations_exact twoEvictors reached).2.2.2 (by decide)
  refine ⟨labels, a, a', out, reached, execs, exact_.1, by rw [readOne]; rfl, ?_⟩
  exact exact_.2 0 0 1 1 a' out (reservesOne_spec reserving) execs (by rw [reserves]; decide)
    (by rw [readOne]; decide)

/-! ### A target that is rounded up -/

/-- A number rounded to the 24 significant bits of a `float`, ties to even. -/
def toFloat (x : Nat) : Nat :=
  let unit := 2 ^ (x.log2 - 23)
  let rest := x % unit
  let up := unit < 2 * rest ∨ unit = 2 * rest ∧ x / unit % 2 = 1
  (x / unit + if up then 1 else 0) * unit

/-- `static_cast<u64>(page_count * cfg.free_target)` for the `float` `mantissa / 2 ^ shift`. -/
def floatTarget (pageCount mantissa shift : Nat) : Nat :=
  toFloat (toFloat pageCount * mantissa) / 2 ^ shift

/-- Six frames with `--free_target 0.8333333`, which is `13981013 / 2 ^ 24` as a `float`. -/
def sixFrames : Config 2 :=
  { twoWorkers with
    pageCount := 6
    target := floatTarget 6 13981013 24
    table := .ofBits 3 }

/-- Worker 0 takes a frame and leaves; the evictor of worker 1 is about to reserve. -/
def oneTaken : List (Act 2) :=
  List.flatten [[.initWorker 0, .call 0 .allocPage], steps 0 13,
    [.call 0 (.unfix ⟨.exclusive, 1, 1⟩)], steps 0 4,
    [.shutdownWorker 0, .initWorker 1, .call 1 .evict], steps 1 2]

/-- The product is a little less than five and a `float` rounds it to five. The call has read two
used frames, so there are four free ones, and reserves a fifth. -/
theorem reserves_beyond_floor :
    6 * 13981013 / 2 ^ 24 = 4 ∧ floatTarget 6 13981013 24 = 5 ∧
    ∃ labels a a' out, (system sixFrames).Reaches System.anyStep labels a ∧
      exec sixFrames a (.step 1 1) = some (a', out) ∧
      (a.state.fibers 1).pc = .evReserve 0 1 ∧ (a'.state.fibers 1).pc.reservation = 1 ∧
      a.usedRead 1 = 2 ∧ sixFrames.pageCount - a.usedRead 1 + a'.state.shared.inflight = 5 := by
  refine ⟨by decide, by decide +kernel, ?_⟩
  have passed : (drive (exec sixFrames) (fun _ _ => true) (initial sixFrames) oneTaken).any
      (fun r => decide (r.1.usedRead 1 = 2) && reservesOne (r.1.state.fibers 1).pc &&
        (exec sixFrames r.1 (.step 1 1)).any
        fun t => decide ((t.1.state.fibers 1).pc.reservation = 1 ∧
          t.1.state.shared.inflight = 1)) = true := by
    decide +kernel
  obtain ⟨a, labels, reached, tested⟩ := drive_anyStep (system sixFrames) rfl rfl passed
  simp only [Bool.and_eq_true, decide_eq_true_eq] at tested
  obtain ⟨⟨readTwo, reserving⟩, swaps⟩ := tested
  obtain ⟨⟨a', out⟩, execs, reserves⟩ := (Option.any_eq_true _ _).mp swaps
  obtain ⟨one, counted⟩ := of_decide_eq_true reserves
  refine ⟨labels, a, a', out, reached, execs,
    reservesOne_spec reserving, one, readTwo, ?_⟩
  rw [readTwo, counted]
  rfl

end Audited

end UringDb.BufferMgr
