import UringDb.BufferMgr.EvictSteps

/-!
# The invariant holds along every sound run
-/
namespace UringDb.BufferMgr

open PageState PageTable

variable {n : Nat} {cfg : Config n} {s s' : State n} {f : Fin n} {r : Result n} {out : Out}

/-! ### Steps -/

section Steps

variable {choice : Nat} (inv : Inv cfg s) (sound : Sound cfg s (.step f choice))
  (stepped : stepFiber cfg s.shared f (s.fibers f) choice = some r)

include inv stepped

include sound in
theorem Inv.step_fixing (part : (s.fibers f).pc.part = .fixing) :
    Inv cfg (s.after f r.shared r.fiber) := by
  have still := inv.still (f := f)
  cases at_ : (s.fibers f).pc <;> rw [at_] at part <;> try cases part
  all_goals
    have ok := inv.ok_at at_
    have agree := inv.agree_at at_
    simp only [stepFiber, at_] at stepped
  case fixStart =>
    split at stepped <;> cases stepped
    · exact inv.land at_ still (Pc.Lands.idle _) agree ⟨rfl, rfl, rfl⟩
    · exact inv.land at_ still (lands_start cfg ok) agree ⟨rfl, rfl, rfl⟩
  case fixLookup => exact inv.step_fixLookup at_ (sound.1 false) stepped
  case fixPid | fixPidAgain =>
    cases stepped
    dsimp only
    split
    · exact inv.move at_ still ⟨rfl, rfl, rfl, rfl⟩ ok agree (fun _ member => member) not_inEvict
    · exact inv.land at_ still (lands_mismatch cfg) agree ⟨rfl, rfl, rfl⟩
  case fixLoad =>
    cases stepped
    dsimp only
    split
    next same =>
      exact inv.move at_ still ⟨rfl, rfl, rfl, rfl⟩ ⟨ok.1, inv.seen_loaded at_ same⟩ agree
        (fun _ member => member) not_inEvict
    next => exact inv.land at_ still (Pc.Lands.idle _) agree ⟨rfl, rfl, rfl⟩
  case fixIo =>
    cases stepped
    dsimp only
    split
    · exact inv.land at_ still (lands_conflict cfg ok.1) agree ⟨rfl, rfl, rfl⟩
    · exact inv.move at_ still ⟨rfl, rfl, rfl, rfl⟩ ok agree (fun _ member => member) not_inEvict
  case fixEvicting =>
    cases stepped
    dsimp only
    split
    next => exact inv.land at_ still (lands_conflict cfg ok.1) agree ⟨rfl, rfl, rfl⟩
    next clear =>
      rw [Bool.not_eq_true] at clear
      exact inv.move at_ still ⟨rfl, rfl, rfl, rfl⟩ ⟨ok.1, ok.2.check clear⟩ agree
        (fun _ member => member) not_inEvict
  case fixLock => exact inv.step_fixLock at_ stepped
  case fixPidLocked => exact inv.step_fixPidLocked at_ stepped
  case undoLoad | undoStore => exact ok.elim

include sound in
theorem Inv.step_guarding (part : (s.fibers f).pc.part = .guarding) :
    Inv cfg (s.after f r.shared r.fiber) := by
  have still := inv.still (f := f)
  cases at_ : (s.fibers f).pc <;> rw [at_] at part <;> try cases part
  all_goals
    have ok := inv.ok_at at_
    have agree := inv.agree_at at_
    simp only [stepFiber, at_] at stepped
  case optLookup => exact inv.step_optLookup at_ (sound.1 false) stepped
  case optLoad => exact inv.step_optLoad at_ stepped
  case optMark => exact inv.step_optMark at_ stepped
  case optPidAgain => exact inv.step_optPidAgain at_ stepped
  -- the other steps only look at the frame, and go on or start over
  all_goals
    try simp only [go] at stepped
    try split at stepped
    all_goals cases stepped
    all_goals first
      | exact inv.land at_ still (Pc.Lands.idle _) agree ⟨rfl, rfl, rfl⟩
      | exact inv.land at_ still (lands_optLookup _ _) agree ⟨rfl, rfl, rfl⟩
      | exact inv.move at_ still ⟨rfl, rfl, rfl, rfl⟩ ok agree (fun _ member => member) not_inEvict

theorem Inv.step_unfixing (part : (s.fibers f).pc.part = .unfixing) :
    Inv cfg (s.after f r.shared r.fiber) := by
  have still := inv.still (f := f)
  cases at_ : (s.fibers f).pc <;> rw [at_] at part <;> try cases part
  all_goals
    have ok := inv.ok_at at_
    have agree := inv.agree_at at_
    simp only [stepFiber, at_] at stepped
  case unfixSMode | unfixXMode | unfixSLoad =>
    try split at stepped
    all_goals cases stepped
    all_goals exact inv.move at_ still ⟨rfl, rfl, rfl, rfl⟩ ok agree handed_none not_inEvict
  case unfixSCas => exact inv.step_unfixSCas at_ stepped
  case unfixXDirty =>
    cases stepped
    exact inv.flag at_ ⟨rfl, rfl, rfl, rfl⟩ rfl rfl id ok agree rfl not_inEvict
  case unfixXLoad =>
    cases stepped
    exact inv.move at_ still ⟨rfl, rfl, rfl, rfl⟩ ⟨ok, rfl⟩ agree handed_none not_inEvict
  case unfixXStore => exact inv.step_unfixXStore at_ stepped

include sound in
theorem Inv.step_acquiring (part : (s.fibers f).pc.part = .acquiring) :
    Inv cfg (s.after f r.shared r.fiber) := by
  have still := inv.still (f := f)
  cases at_ : (s.fibers f).pc <;> rw [at_] at part <;> try cases part
  all_goals
    have agree := inv.agree_at at_
    simp only [stepFiber, at_] at stepped
  case refill => exact inv.step_refill at_ stepped
  case pop => exact inv.step_pop at_ stepped
  case allocAccum | faultAccum =>
    cases stepped
    refine inv.move at_ (inv.calm_accum _) ⟨rfl, rfl, rfl, rfl⟩ trivial ?_ handed_none not_inEvict
    rw [accumPhysUsed_table]
    exact agree
  case allocPid =>
    cases stepped
    exact inv.move at_ (inv.calm rfl (fun _ => ⟨rfl, rfl⟩) rfl fun _ => rfl) ⟨rfl, rfl, rfl, rfl⟩
      trivial agree handed_none not_inEvict
  case faultLookup =>
    exact inv.step_faultLookup at_ agree (fun d => Or.inr ⟨d, rfl⟩)
      (lands_faultRefill cfg _ _ _ _) (lands_faultLookup _ _ _) (sound.1 false) stepped
  -- what remains looks at the own list, or at the frame of another fiber
  all_goals
    try simp only [acquire, go] at stepped
    try split at stepped
    all_goals cases stepped
    all_goals first
      | exact inv.move at_ still ⟨rfl, rfl, rfl, rfl⟩ trivial agree handed_none not_inEvict
      | exact inv.land at_ still (lands_checkWatermark cfg _ _) agree ⟨rfl, rfl, rfl⟩
      | exact inv.land at_ still (lands_resume _ _ _) agree ⟨rfl, rfl, rfl⟩

include sound in
theorem Inv.step_loading (part : (s.fibers f).pc.part = .loading) :
    Inv cfg (s.after f r.shared r.fiber) := by
  have still := inv.still (f := f)
  cases at_ : (s.fibers f).pc <;> rw [at_] at part <;> try cases part
  all_goals
    have agree := inv.agree_at at_
    simp only [stepFiber, at_] at stepped
  case loseAccum =>
    cases stepped
    refine inv.move at_ (inv.calm_accum _) ⟨rfl, rfl, rfl, rfl⟩ trivial ?_ handed_none not_inEvict
    rw [accumPhysUsed_table]
    exact agree
  case loseLookup =>
    exact inv.step_faultLookup at_ agree (fun d => Or.inr ⟨d, rfl⟩)
      (lands_resume _ _ _)
      ⟨rfl, rfl, rfl, rfl, rfl, handed_none, fun _ => trivial, fun _ free => Or.inl free⟩ (sound.1 false) stepped
  case rebindLoad | readLoad | loseLoad =>
    cases stepped
    exact inv.move at_ still ⟨rfl, rfl, rfl, rfl⟩ rfl agree handed_none not_inEvict
  case rebindStore =>
    cases stepped
    exact inv.step_rebindStore at_
  case setFlag => exact inv.step_setFlag at_ stepped
  case setFrame =>
    cases stepped
    exact inv.step_setFrame at_
  case insert => exact inv.step_insert at_ (sound.1 false) stepped
  case memset => exact inv.step_memset at_ stepped
  case read p b caller =>
    cases stepped
    exact inv.move at_ (inv.calm_loaded b) ⟨rfl, rfl, rfl, rfl⟩ trivial agree handed_none not_inEvict
  case readIo =>
    cases stepped
    exact inv.flag at_ ⟨rfl, rfl, rfl, rfl⟩ rfl rfl id trivial agree rfl not_inEvict
  case readStore =>
    cases stepped
    exact inv.step_readStore at_
  case loseStore =>
    cases stepped
    exact inv.step_loseStore at_
  case loseRelease =>
    cases stepped
    exact inv.step_release at_ _

theorem Inv.step_sweeping (part : (s.fibers f).pc.part = .sweeping) :
    Inv cfg (s.after f r.shared r.fiber) := by
  have still := inv.still (f := f)
  have whole := stepped
  cases at_ : (s.fibers f).pc <;> rw [at_] at part <;> try cases part
  all_goals
    have ok := inv.ok_at at_
    have agree := inv.agree_at at_
    simp only [stepFiber, at_] at stepped
  case evScan => exact inv.step_evScan at_ stepped
  case evMarkCas => exact inv.step_evMarkCas at_ whole
  case evSet =>
    cases stepped
    exact inv.step_evSet at_
  case evDirty => exact inv.step_evDirty at_ stepped
  case evClean => exact inv.step_evClean at_ stepped
  case evUnreserve => exact inv.step_evUnreserve at_ stepped
  -- the other steps move a counter or the clock hand, or pass a frame over
  all_goals
    try simp only [evLoadInflight, evReserve, evSize, go] at stepped
    repeat' split at stepped
    all_goals cases stepped
    all_goals first
      | exact inv.move at_ (inv.calm rfl (fun _ => ⟨rfl, rfl⟩) rfl fun _ => rfl) ⟨rfl, rfl, rfl, rfl⟩
          ok agree handed_none fun _ => rfl
      | exact inv.move at_ still ⟨rfl, rfl, rfl, rfl⟩ ok agree handed_none not_inEvict
      | exact inv.land at_ still (lands_sweepNext cfg _ _) agree ⟨rfl, rfl, rfl⟩

include sound in
theorem Inv.step_erasing (part : (s.fibers f).pc.part = .erasing) :
    Inv cfg (s.after f r.shared r.fiber) := by
  have still := inv.still (f := f)
  have critical := sound.2
  cases at_ : (s.fibers f).pc <;> rw [at_] at part <;> try cases part
  all_goals
    have agree := inv.agree_at at_
    simp only [stepFiber, at_] at stepped
  case evIssue => exact inv.step_evIssue at_ stepped
  case evAwait => exact inv.step_evAwait at_ stepped
  case evNowPid =>
    cases stepped
    exact inv.move at_ still ⟨rfl, rfl, rfl, rfl⟩ trivial (Or.inl agree) handed_none fun _ => rfl
  case evErase =>
    rw [at_] at critical
    exact inv.step_evErase at_ (sound.1 false) critical stepped
  case preEvicting | preMode | preDirty =>
    obtain ⟨i, raw, waiting, bid⟩ := agree
    cases stepped
    dsimp only
    split
    all_goals first
      | exact inv.move at_ still ⟨rfl, rfl, rfl, rfl⟩ trivial ⟨i, raw, waiting, bid⟩ handed_none fun _ => rfl
      | exact inv.move at_ still ⟨rfl, rfl, rfl, rfl⟩ trivial ⟨i, raw, waiting, fun _ => bid⟩ handed_none
          fun _ => rfl
  case preIo =>
    obtain ⟨i, raw, waiting, bid⟩ := agree
    split at stepped <;> cases stepped
    exact inv.move at_ still ⟨rfl, rfl, rfl, rfl⟩ trivial ⟨i, raw, waiting, fun _ => bid⟩ handed_none
      fun _ => rfl
  case preAnswer ev ph b p rest answer => exact inv.step_preAnswer at_ (sound.1 answer) stepped
  case evCollapse => exact inv.step_evCollapse at_ (sound.1 false) stepped
  case evPost =>
    rw [at_] at critical
    exact inv.step_evPost at_ critical stepped
  case evRelease => exact inv.step_evRelease at_ stepped
  case evUsed => exact inv.step_evUsed at_ stepped
  case evDone =>
    simp only [evDone] at stepped
    cases stepped
    exact inv.move at_ (inv.calm rfl (fun _ => ⟨rfl, rfl⟩) rfl fun _ => rfl) ⟨rfl, rfl, rfl, rfl⟩
      trivial agree handed_none not_inEvict

include sound

theorem Inv.step : Inv cfg (s.after f r.shared r.fiber) := by
  cases part : (s.fibers f).pc.part with
  | idle => exact absurd part (part_ne_idle stepped)
  | fixing => exact inv.step_fixing sound stepped part
  | guarding => exact inv.step_guarding sound stepped part
  | unfixing => exact inv.step_unfixing stepped part
  | acquiring => exact inv.step_acquiring sound stepped part
  | loading => exact inv.step_loading sound stepped part
  | sweeping => exact inv.step_sweeping stepped part
  | erasing => exact inv.step_erasing sound stepped part

end Steps

/-! ### Calls -/

theorem Inv.client {fib : Fiber} (inv : Inv cfg s) (idle : (s.fibers f).pc = .idle)
    (lands : fib.pc.owned cfg = [] ∧ fib.pc.setsUp = none ∧ fib.pc.committed = none)
    (ok : PcOk cfg s fib.pc) (agree : Agree fib.pc (s.shared.table.pcs f))
    (handed : ∀ g ∈ fib.pc.guard, g ∈ fib.guards) (alone : fib.pc.inEvict = true → fib.guards = [])
    (guards : ∀ g ∈ fib.guards, g ∈ (s.fibers f).guards)
    (locks : fib.locks.Perm (s.fibers f).locks) : Inv cfg (s.after f s.shared fib) := by
  have still := inv.still (f := f)
  have sets : fib.pc.setsUp = (s.fibers f).pc.setsUp := by
    rw [lands.2.1, idle]
    rfl
  refine inv.quiet still.table still.pcs still.entries still.frames still.sections (fun b => ?_)
    (fun b => ?_) (fun b => ?_) ?_ ok agree handed alone
    (fun g member => (inv.fibers f).guards g (guards g member))
    fun lock member => (inv.fibers f).locks lock (locks.mem_iff.mp member)
  · rw [lands.1, idle]
    exact le_refl _
  · simp only [Fiber.exclusives, sets, locks.countP_eq]
  · simp only [Fiber.shareds, locks.countP_eq]
  · rw [lands.2.2, idle]
    rfl

theorem Inv.call {op : Op} (inv : Inv cfg s) (idle : (s.fibers f).pc = .idle)
    (called : call cfg s.shared f (s.fibers f) op = some r) :
    Inv cfg (s.after f r.shared r.fiber) := by
  have agree := inv.agree_at idle
  have still := inv.still (f := f)
  have begin_ : ∀ {pc' : Pc}, pc'.Lands cfg [] false none →
      Inv cfg (s.after f s.shared { s.fibers f with pc := pc' }) := fun lands =>
    inv.land idle still lands agree ⟨rfl, rfl, rfl⟩
  -- calls on a guard of the client
  have on_guard : ∀ {pc' : Pc} {g : Guard}, g ∈ (s.fibers f).guards → pc'.guard = some g →
      pc'.Lands cfg [] false (some g) →
      Inv cfg (s.after f s.shared { s.fibers f with pc := pc' }) := by
    intro pc' g member guard lands
    refine inv.client idle ⟨lands.owned, lands.setsUp, lands.committed⟩ (lands.ok s)
      (lands.agree _ agree) ?_ ?_ (fun _ member => member) ?_
    · intro g' member'
      obtain rfl : g = g' := Option.some.inj (lands.guard g' member')
      exact member
    · simp [lands.inEvict]
    · simp only [Fiber.locks, lands.locks, idle]
      exact List.Perm.refl _
  cases op with
  | fixS p | fixX p policy =>
    cases called
    exact begin_ ⟨rfl, rfl, rfl, rfl, rfl, handed_none, fun _ => handed_none, fun _ free => free⟩
  | fixSFrom g | fixXFrom g policy =>
    simp only [BufferMgr.call] at called
    split at called <;> cases called
    next member =>
      refine on_guard member rfl
        ⟨rfl, rfl, rfl, rfl, rfl, fun _ member => member, fun _ => ?_, fun _ free => free⟩
      intro g' same
      obtain rfl : g = g' := Option.some.inj same
      rfl
  | fixO p | allocPage =>
    cases called
    exact begin_ ⟨rfl, rfl, rfl, rfl, rfl, handed_none, fun _ => trivial, fun _ free => free⟩
  | validateO g =>
    simp only [BufferMgr.call] at called
    split at called <;> cases called
    next member =>
      exact on_guard member rfl
        ⟨rfl, rfl, rfl, rfl, rfl, fun _ member => member, fun _ => trivial, fun _ free => free⟩
  | release g =>
    cases called
    refine inv.client idle ⟨rfl, rfl, rfl⟩ trivial agree handed_none not_inEvict
      (fun _ member => List.mem_of_mem_erase member) ?_
    simp only [Fiber.locks, idle]
    exact List.Perm.refl _
  | unfix lock =>
    simp only [BufferMgr.call] at called
    split at called <;> cases called
    next member =>
      have perm : (lock :: (s.fibers f).held.erase lock).Perm (s.fibers f).locks := by
        simp only [Fiber.locks, idle, Pc.locks, List.nil_append]
        exact (List.perm_cons_erase member).symm
      cases kind : lock.kind with
      | shared => exact inv.client idle ⟨rfl, rfl, rfl⟩ kind agree handed_none not_inEvict (fun _ h => h) perm
      | exclusive => exact inv.client idle ⟨rfl, rfl, rfl⟩ kind agree handed_none not_inEvict (fun _ h => h) perm
  | modify lock =>
    simp only [BufferMgr.call] at called
    split at called <;> cases called
    refine inv.land idle ?_ (Pc.Lands.idle _) agree ⟨rfl, rfl, rfl⟩
    refine inv.calm rfl (fun c => ?_) rfl fun _ => rfl
    by_cases here : c = lock.bid
    · subst here
      simp [Shared.modify]
    · simp [Shared.modify, setFrame_ne _ _ _ here]
  | handleFault p =>
    cases called
    exact begin_ (lands_faultLookup _ _ _)
  | evict =>
    simp only [BufferMgr.call] at called
    split at called <;> cases called
    next allowed =>
      refine inv.client idle ⟨rfl, rfl, rfl⟩ trivial agree handed_none (fun _ => allowed.2.2)
        (fun _ h => h) ?_
      simp only [Fiber.locks, idle]
      exact List.Perm.refl _

/-! ### Runs -/

theorem isIdle_iff {pc : Pc} : pc.isIdle = true ↔ pc = .idle := by
  cases pc <;> simp [Pc.isIdle]

theorem inv_exec {act : Act n} (inv : Inv cfg s) (sound : Sound cfg s act)
    (execs : exec cfg s act = some (s', out)) : Inv cfg s' := by
  cases act with
  | call f op =>
    simp only [exec] at execs
    split at execs
    next allowed =>
      obtain ⟨r, called, put⟩ := Option.map_eq_some_iff.mp execs
      cases put
      exact inv.call (isIdle_iff.mp allowed.1) called
    next => cases execs
  | step f choice =>
    obtain ⟨r, stepped, put⟩ := Option.map_eq_some_iff.mp execs
    cases put
    exact inv.step sound stepped
  | initWorker w =>
    simp only [exec] at execs
    split at execs <;> cases execs
    next allowed => exact inv.shrink rfl rfl rfl (freeCount_clear s.shared allowed.1 0 true)
  | shutdownWorker w =>
    simp only [exec] at execs
    split at execs <;> cases execs
    next allowed => exact inv.shrink rfl rfl rfl (freeCount_clear s.shared allowed.1 0 false)

theorem canInsert_root (cfg : Config n) :
    CanInsert cfg.table (fun _ => Slot.emptySlot) 0 0 (cfg.table.slotIdx 0) where
  fits := Nat.zero_le _
  dead := rfl
  place := by
    refine ⟨0, cfg.table.slotCount_pos, ?_, fun e early => absurd early (Nat.not_lt_zero e)⟩
    rw [cfg.table.probe_eq, Nat.add_zero, Nat.mod_eq_of_lt (cfg.table.slotIdx_lt 0)]
  absent := fun _ _ holds => (by cases holds.1)

theorem entry_initial {i p b : Nat} (entry : Entry (initial cfg).shared.table.slots i p b) :
    i = cfg.table.slotIdx 0 ∧ p = 0 ∧ b = 0 := by
  have slots : (initial cfg).shared.table.slots =
      setSlot (fun _ => Slot.emptySlot) (cfg.table.slotIdx 0) (Slot.word 0 0) := rfl
  obtain ⟨holds, bid⟩ := entry
  rw [slots] at holds bid
  by_cases here : i = cfg.table.slotIdx 0
  · subst here
    rw [setSlot_same, Slot.bid_word 0 0 (Nat.zero_le _)] at bid
    exact ⟨rfl, (canInsert_root cfg).holds_new.mp holds, bid.symm⟩
  · rw [holds_setSlot_ne _ here] at holds
    cases holds.1

theorem slotsOf_initial (cfg : Config n) (b : Nat) :
    slotsOf cfg (initial cfg).shared b = if b = 0 then 1 else 0 := by
  have only : ((Finset.range cfg.table.slotCount).filter fun i =>
      Slot.isLive ((initial cfg).shared.table.slots i) = true ∧
        Slot.bid ((initial cfg).shared.table.slots i) = b) =
      if b = 0 then {cfg.table.slotIdx 0} else ∅ := by
    ext i
    rw [Finset.mem_filter]
    constructor
    · rintro ⟨-, live, bid⟩
      obtain ⟨rfl, -, rfl⟩ := entry_initial ⟨⟨live, rfl⟩, bid⟩
      simp
    · split
      next root =>
        rw [Finset.mem_singleton]
        rintro rfl
        have word : (initial cfg).shared.table.slots (cfg.table.slotIdx 0) = Slot.word 0 0 :=
          setSlot_same (fun _ => Slot.emptySlot) (cfg.table.slotIdx 0) (Slot.word 0 0)
        rw [word, root, Slot.bid_word 0 0 (Nat.zero_le _)]
        exact ⟨Finset.mem_range.mpr (cfg.table.slotIdx_lt 0),
          Slot.isLive_word 0 0 (Nat.zero_le _), rfl⟩
      next => exact fun member => absurd member (Finset.notMem_empty i)
  unfold slotsOf
  rw [only]
  split <;> rfl

theorem weigh_initial (cfg : Config n) {F : List Nat → Nat}
    (additive : ∀ l m, F (l ++ m) = F l + F m) :
    weigh cfg F (initial cfg).shared =
      F ((List.range cfg.pageCount).filter fun bid => bid ≠ 0) := by
  have empty : F [] = 0 := by
    have twice := additive [] []
    rw [List.append_nil] at twice
    omega
  have parts : ∀ l : List Nat, ∑ k ∈ Finset.range cfg.poolCount,
      F (l.filter fun bid => bid ≠ 0 ∧ cfg.freePoolIndexForBid bid = k) =
      F (l.filter fun bid => bid ≠ 0) := by
    intro l
    induction l with
    | nil => simp [empty]
    | cons bid l ih =>
      by_cases root : bid = 0
      · simpa [root] using ih
      · -- the frame is in its own pool's part and in no other
        have here : ∀ k, F ((bid :: l).filter fun bid =>
            bid ≠ 0 ∧ cfg.freePoolIndexForBid bid = k) =
            (if k = cfg.freePoolIndexForBid bid then F [bid] else 0) +
              F (l.filter fun bid => bid ≠ 0 ∧ cfg.freePoolIndexForBid bid = k) := by
          intro k
          by_cases own : k = cfg.freePoolIndexForBid bid
          · rw [List.filter_cons_of_pos (by simp [root, own]), if_pos own]
            exact additive [bid] _
          · rw [List.filter_cons_of_neg (by simp [Ne.symm own]), if_neg own, Nat.zero_add]
        have inside : cfg.freePoolIndexForBid bid ∈ Finset.range cfg.poolCount :=
          Finset.mem_range.mpr (pool_lt cfg bid)
        rw [Finset.sum_congr rfl fun k _ => here k, Finset.sum_add_distrib, ih,
          Finset.sum_ite_eq', if_pos inside, List.filter_cons_of_pos (by simp [root])]
        exact (additive [bid] _).symm
  have locals : ∑ w ∈ Finset.range cfg.workers, F ((initial cfg).shared.locals w).free = 0 :=
    Finset.sum_eq_zero fun _ _ => empty
  unfold weigh
  rw [locals]
  exact parts (List.range cfg.pageCount)

theorem freeCount_initial (cfg : Config n) (b : Nat) :
    freeCount cfg (initial cfg).shared b = if b ≠ 0 ∧ b < cfg.pageCount then 1 else 0 := by
  have counted : freeCount cfg (initial cfg).shared b =
      ((List.range cfg.pageCount).filter fun bid => bid ≠ 0).count b :=
    weigh_initial cfg fun _ _ => List.count_append
  rw [counted, count_filter, List.count_range]
  split_ifs <;> simp_all

theorem inv_initial (cfg : Config n) : Inv cfg (initial cfg) where
  table :=
    { reach := (canInsert_root cfg).reach fun _ _ _ holds => (by cases holds.1)
      unique := (canInsert_root cfg).unique fun _ _ _ _ _ holds => (by cases holds.1)
      pcs := fun _ => trivial }
  mapped := by
    rintro p b ⟨i, -, entry⟩
    obtain ⟨-, rfl, rfl⟩ := entry_initial entry
    rfl
  once := fun b => by
    have slots := slotsOf_initial cfg b
    have free := freeCount_initial cfg b
    have hands : ownedCount cfg (initial cfg) b = 0 := Finset.sum_eq_zero fun _ _ => rfl
    unfold places
    split_ifs at slots free <;> omega
  locks := fun b => by
    have none : exclusives (initial cfg) b = 0 ∧ shareds (initial cfg) b = 0 :=
      ⟨Finset.sum_eq_zero fun _ _ => rfl, Finset.sum_eq_zero fun _ _ => rfl⟩
    by_cases root : b = 0
    · subst root
      exact Or.inr (Or.inl ⟨rfl, none⟩)
    · have mode : (word (initial cfg) b).mode = PageState.unlocked := by
        simp [word, initial, root, Word.ofMode]
      exact Or.inr (Or.inr ⟨by rw [mode]; decide, none.1, by rw [mode]; exact none.2⟩)
  fibers := fun _ => ⟨trivial, rfl, handed_none, not_inEvict, fun _ member => (by cases member),
    fun _ member => (by cases member)⟩

/-- Every sound run keeps the invariant. -/
theorem inv_reaches {acts : List (Act n × Out)}
    (reached : (system cfg).Reaches (fun s a => Sound cfg s a.1) acts s) : Inv cfg s :=
  reached.invariant (fun _ start => start ▸ inv_initial cfg) fun _ _ _ inv sound step =>
    inv_exec inv sound step

end UringDb.BufferMgr
