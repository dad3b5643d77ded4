import UringDb.BufferMgr.Current
import UringDb.BufferMgr.LedgerSteps

/-!
# Frames are conserved

The ledger balances along every run of a fixed set of workers: each frame is in exactly one
place, and `shared_free_count`, which is written only under the lock of the pool whose size
changes, is the total size of the pools.
-/
namespace UringDb.BufferMgr

open PageState PageTable

variable {n : Nat} {cfg : Config n} {s s' : State n} {f : Fin n} {r : Result n} {out : Out}

/-! ### Steps -/

section Steps

variable {choice : Nat} (ledger : Ledger cfg s)
  (stepped : stepFiber cfg s.shared f (s.fibers f) choice = some r)

include ledger stepped

theorem Ledger.booked_fixing (part : (s.fibers f).pc.part = .fixing) :
    Booked cfg s f r.shared r.fiber := by
  have still : Quiet cfg s f s.shared := ledger.quiet rfl rfl rfl rfl
  cases at_ : (s.fibers f).pc <;> rw [at_] at part <;> try cases part
  all_goals
    have free := ledger.agree_at at_
    simp only [stepFiber, at_, fixPidLocked] at stepped
  case fixStart fx =>
    split at stepped <;> cases stepped
    · exact ledger.land at_ still (Pc.Lands.idle none).rests rfl free
    · exact ledger.land at_ still (rests_start cfg fx) rfl free
  case fixLookup =>
    exact ledger.step_lookup at_ stepped ⟨rfl, rfl, trivial, fun _ free => Or.inl free⟩
      free (fun d => Or.inr ⟨d, rfl⟩)
      (fun _ => ⟨rfl, rfl, trivial, fun _ free => free⟩) (lands_missing cfg none).rests
  case fixPid | fixPidAgain =>
    cases stepped
    dsimp only
    split
    · exact ledger.move at_ still rfl rfl free trivial
    · exact ledger.land at_ still (lands_mismatch cfg).rests rfl free
  case fixLoad =>
    cases stepped
    dsimp only
    split <;> exact ledger.move at_ still rfl rfl free trivial
  case fixIo fx b w | fixEvicting fx b w =>
    cases stepped
    dsimp only
    split
    · exact ledger.land at_ still (rests_conflict cfg fx) rfl free
    · exact ledger.move at_ still rfl rfl free trivial
  case fixLock fx b w =>
    simp only [fixLock] at stepped
    split at stepped
    · cases stepped
      exact ledger.land at_ still (rests_conflict cfg fx) rfl free
    · split at stepped <;> cases stepped
      · exact ledger.move at_ (ledger.quiet rfl rfl rfl rfl) rfl rfl free trivial
      · exact ledger.land at_ still (rests_conflict cfg fx) rfl free
  case undoStore =>
    simp only [undoStore] at stepped
    split at stepped
    · split at stepped <;> cases stepped
      · exact ledger.land at_ (ledger.quiet rfl rfl rfl rfl) (lands_mismatch cfg).rests rfl free
      · exact ledger.move at_ still rfl rfl free trivial
    · cases stepped
      exact ledger.land at_ (ledger.quiet rfl rfl rfl rfl) (lands_mismatch cfg).rests rfl free
  case fixPidLocked | undoLoad =>
    -- a word or a page id is read or written, and the call goes on or returns
    try split at stepped
    all_goals
      cases stepped
      exact ledger.move at_ (ledger.quiet rfl rfl rfl rfl) rfl rfl free trivial

theorem Ledger.booked_guarding (part : (s.fibers f).pc.part = .guarding) :
    Booked cfg s f r.shared r.fiber := by
  have still : Quiet cfg s f s.shared := ledger.quiet rfl rfl rfl rfl
  cases at_ : (s.fibers f).pc <;> rw [at_] at part <;> try cases part
  all_goals
    have free := ledger.agree_at at_
    simp only [stepFiber, at_, optMark] at stepped
  case optStart p =>
    split at stepped <;> cases stepped
    · exact ledger.land at_ still (Pc.Lands.idle none).rests rfl free
    · exact ledger.land at_ still (lands_optLookup none p).rests rfl free
  case optLookup p =>
    exact ledger.step_lookup at_ stepped (lands_optLookup none p).rests free
      (fun d => Or.inr ⟨d, rfl⟩) (fun _ => ⟨rfl, rfl, trivial, fun _ free => free⟩)
      (lands_faultLookup none p _).rests
  case optPid p b | optIo p b | optEvicting p b =>
    cases stepped
    dsimp only
    split
    all_goals first
      | exact ledger.move at_ still rfl rfl free trivial
      | exact ledger.land at_ still (lands_optLookup none p).rests rfl free
  case optLoad p b =>
    simp only [optLoad] at stepped
    split at stepped
    · cases stepped
      exact ledger.land at_ still (lands_optLookup none p).rests rfl free
    · split at stepped <;> cases stepped <;>
        exact ledger.move at_ still rfl rfl free trivial
  case optPidAgain g =>
    simp only [optPidAgain] at stepped
    split at stepped <;> cases stepped
    · exact ledger.land at_ still (Pc.Lands.idle none).rests rfl free
    · exact ledger.land at_ still (lands_optLookup none g.pid).rests rfl free
  case valPid | valIo | valEvicting | optMark | valLoad =>
    -- a word or a page id is read or written, and the call goes on or returns
    try split at stepped
    all_goals
      cases stepped
      exact ledger.move at_ (ledger.quiet rfl rfl rfl rfl) rfl rfl free trivial

theorem Ledger.booked_unfixing (part : (s.fibers f).pc.part = .unfixing) :
    Booked cfg s f r.shared r.fiber := by
  cases at_ : (s.fibers f).pc <;> rw [at_] at part <;> try cases part
  all_goals
    have free := ledger.agree_at at_
    simp only [stepFiber, at_, unfixSCas] at stepped
  all_goals
    -- a word is read or written, and the call goes on or returns
    try split at stepped
    all_goals
      cases stepped
      all_goals exact ledger.move at_ (ledger.quiet rfl rfl rfl rfl) rfl rfl free trivial

theorem Ledger.booked_acquiring (part : (s.fibers f).pc.part = .acquiring) :
    Booked cfg s f r.shared r.fiber := by
  have still : Quiet cfg s f s.shared := ledger.quiet rfl rfl rfl rfl
  cases at_ : (s.fibers f).pc <;> rw [at_] at part <;> try cases part
  all_goals
    have free := ledger.agree_at at_
    simp only [stepFiber, at_] at stepped
  case refill => exact ledger.step_refill at_ stepped
  case pop => exact ledger.step_pop at_ stepped
  case allocAccum | faultAccum =>
    cases stepped
    exact ledger.accum at_ 1 rfl rfl free trivial
  case faultLookup p caller =>
    exact ledger.step_lookup at_ stepped (lands_faultLookup none p caller).rests
      free (fun d => Or.inr ⟨d, rfl⟩)
      (fun _ => ⟨rfl, rfl, trivial, fun _ free => free⟩)
      (lands_faultRefill cfg s.shared f p caller).rests
  all_goals
    try simp only [acquire, go] at stepped
    try split at stepped
    all_goals cases stepped
    all_goals first
      | exact ledger.move at_ (ledger.quiet rfl rfl rfl rfl) rfl rfl free trivial
      | exact ledger.land at_ still (lands_checkWatermark cfg _ _).rests rfl free
      | exact ledger.land at_ still (lands_resume cfg none _).rests rfl free

theorem Ledger.booked_loading (part : (s.fibers f).pc.part = .loading) :
    Booked cfg s f r.shared r.fiber := by
  cases at_ : (s.fibers f).pc <;> rw [at_] at part <;> try cases part
  all_goals
    have free := ledger.agree_at at_
    simp only [stepFiber, at_, memset, setFlag] at stepped
  case memset | read | readIo | readLoad | rebindLoad | rebindStore | loseLoad | loseStore | setFlag =>
    -- a word or a page id is read or written, and the call goes on or returns
    try split at stepped
    all_goals
      cases stepped
      exact ledger.move at_ (ledger.quiet rfl rfl rfl rfl) rfl rfl free trivial
  case loseAccum =>
    cases stepped
    exact ledger.accum at_ (-1) rfl rfl free trivial
  case setFrame =>
    cases stepped
    exact ledger.move at_ (ledger.quiet rfl rfl rfl rfl) rfl rfl (Or.inl free) trivial
  case readStore p b caller w =>
    cases stepped
    exact ledger.land at_ (ledger.quiet rfl rfl rfl rfl) (lands_resume cfg none caller).rests
      rfl free
  case insert => exact ledger.step_insert at_ stepped
  case loseRelease =>
    cases stepped
    exact ledger.step_release at_ _
  case loseLookup p caller =>
    exact ledger.step_lookup at_ stepped ⟨rfl, rfl, trivial, fun _ free => Or.inl free⟩
      free (fun d => Or.inr ⟨d, rfl⟩)
      (fun _ => ⟨rfl, rfl, trivial, fun _ free => free⟩) (lands_resume cfg none caller).rests

theorem Ledger.booked_sweeping (part : (s.fibers f).pc.part = .sweeping) :
    Booked cfg s f r.shared r.fiber := by
  have still : Quiet cfg s f s.shared := ledger.quiet rfl rfl rfl rfl
  cases at_ : (s.fibers f).pc <;> rw [at_] at part <;> try cases part
  all_goals
    have free := ledger.agree_at at_
    simp only [stepFiber, at_] at stepped
  case evLoadUsed | evLoadInflight | evReserve =>
    try simp only [evLoadInflight, evReserve] at stepped
    try split at stepped
    all_goals cases stepped
    all_goals first
      | exact ledger.move at_ still rfl rfl free trivial
      | exact ledger.move at_ (ledger.quiet rfl rfl rfl rfl) rfl rfl free
          ⟨(fun same => by cases same), (fun same => by cases same)⟩
  case evOwners | evPos | evPosStore | evMarkLoad | evSize | evSet =>
    have spares := ledger.spares_at at_
    try simp only [evSize] at stepped
    try split at stepped
    all_goals cases stepped
    all_goals exact ledger.move at_ (ledger.quiet rfl rfl rfl rfl) rfl rfl free spares
  case evScan => exact ledger.step_evScan at_ stepped
  case evPid ev sw p b | evMode ev sw p b | evIo ev sw p b mode =>
    have spares : ev.Spares ∧ (b = 0 → p = 0) := ledger.spares_at at_
    cases stepped
    dsimp only
    split
    all_goals first
      | exact ledger.move at_ still rfl rfl free spares
      | exact ledger.land at_ still (rests_sweepNext cfg sw spares.1) rfl free
  case evEvicting => exact ledger.step_evEvicting at_ stepped
  case evMarkCas ev sw p b w =>
    have spares : ev.Spares := ledger.spares_at at_
    split at stepped <;> cases stepped
    · exact ledger.land at_ still (rests_sweepNext cfg sw spares) rfl free
    · split
      all_goals
        exact ledger.land at_ (ledger.quiet rfl rfl rfl rfl) (rests_sweepNext cfg sw spares) rfl free
  case evDirty => exact ledger.step_evDirty at_ stepped
  case evClean => exact ledger.step_evClean at_ stepped
  case evUnreserve => exact ledger.step_evUnreserve at_ stepped

theorem Ledger.booked_erasing (part : (s.fibers f).pc.part = .erasing) :
    Booked cfg s f r.shared r.fiber := by
  have still : Quiet cfg s f s.shared := ledger.quiet rfl rfl rfl rfl
  cases at_ : (s.fibers f).pc <;> rw [at_] at part <;> try cases part
  all_goals
    have free := ledger.agree_at at_
    simp only [stepFiber, at_, evIssue] at stepped
  case evIssue ev todo pending =>
    have spares : ev.Spares := ledger.spares_at at_
    try split at stepped
    all_goals
      cases stepped
      exact ledger.move at_ (ledger.quiet rfl rfl rfl rfl) rfl rfl free spares
  case evAwait => exact ledger.step_evAwait at_ stepped
  case evNowPid ev ph b rest =>
    have spares : ev.Spares ∧ b ≠ 0 ∧ 0 ∉ rest := ledger.spares_at at_
    cases stepped
    exact ledger.move at_ still rfl rfl (Or.inl free) spares
  case preEvicting ev ph b p rest | preMode ev ph b p rest | preDirty ev ph b p rest
      | preIo ev ph b p rest =>
    -- the precheck asks one question after the other
    have spares : ev.Spares ∧ b ≠ 0 ∧ 0 ∉ rest := ledger.spares_at at_
    obtain ⟨i, raw, checking, same⟩ : ∃ i raw, s.shared.table.pcs f = .precheck p i raw ∧
      Slot.bid raw = b := ledger.agree_at at_
    simp only [go] at stepped
    split at stepped <;> cases stepped
    all_goals first
      | exact ledger.move at_ still rfl rfl ⟨i, raw, checking, same⟩ spares
      | exact ledger.move at_ still rfl rfl ⟨i, raw, checking, fun _ => same⟩ spares
  case evErase => exact ledger.step_evErase at_ stepped
  case preAnswer => exact ledger.step_preAnswer at_ stepped
  case evCollapse => exact ledger.step_evCollapse at_ stepped
  case evPost => exact ledger.step_evPost at_ stepped
  case evRelease => exact ledger.step_evRelease at_ stepped
  case evUsed => exact ledger.step_evUsed at_ stepped
  case evDone =>
    simp only [evDone] at stepped
    cases stepped
    exact ledger.land at_ (ledger.quiet rfl rfl rfl rfl) (Pc.Lands.idle none).rests rfl free

theorem Ledger.booked : Booked cfg s f r.shared r.fiber := by
  cases part : (s.fibers f).pc.part with
  | idle => exact absurd part (part_ne_idle stepped)
  | fixing => exact ledger.booked_fixing stepped part
  | guarding => exact ledger.booked_guarding stepped part
  | unfixing => exact ledger.booked_unfixing stepped part
  | acquiring => exact ledger.booked_acquiring stepped part
  | loading => exact ledger.booked_loading stepped part
  | sweeping => exact ledger.booked_sweeping stepped part
  | erasing => exact ledger.booked_erasing stepped part

end Steps

theorem Ledger.booked_call {op : Op} (ledger : Ledger cfg s) (idle : (s.fibers f).pc = .idle)
    (called : call cfg s.shared f (s.fibers f) op = some r) :
    Booked cfg s f r.shared r.fiber := by
  have free := ledger.agree_at idle
  have still : Quiet cfg s f s.shared := ledger.quiet rfl rfl rfl rfl
  cases op with
  | fixS p | fixX p policy | fixO p | allocPage | release g =>
    cases called
    exact ledger.move idle still rfl rfl free trivial
  | handleFault p =>
    cases called
    exact ledger.land idle still (lands_faultLookup none p _).rests rfl free
  | unfix lock =>
    simp only [BufferMgr.call] at called
    split at called <;> cases called
    cases lock.kind <;>
      exact ledger.move idle still rfl rfl free trivial
  | fixSFrom g | fixXFrom g policy | validateO g | modify lock | evict =>
    simp only [BufferMgr.call] at called
    split at called <;> cases called
    exact ledger.move idle (ledger.quiet rfl rfl rfl rfl) rfl rfl free trivial

/-! ### Runs of a fixed set of workers -/

def Stays : Act n → Prop
  | .shutdownWorker _ => False
  | _ => True

instance (act : Act n) : Decidable (Stays act) :=
  match act with
  | .shutdownWorker _ => isFalse id
  | .step _ _ => isTrue trivial
  | .call _ _ => isTrue trivial
  | .initWorker _ => isTrue trivial

theorem Ledger.init {w : Nat} (ledger : Ledger cfg s) (inRange : w < cfg.workers)
    (sleeps : (s.shared.locals w).active = false) :
    Ledger cfg { s with shared := initWorker s.shared w } := by
  obtain ⟨empty, flushed⟩ := ledger.asleep w sleeps
  have lists := fun F => weigh_setLocal F s.shared inRange ⟨[], 0, true⟩
  have counts := account_setLocal s.shared inRange ⟨[], 0, true⟩
  rw [empty, flushed] at counts
  refine
    { frames := fun b => ?_
      used := ?_
      zero := ledger.zero
      root := ledger.root
      carries := ledger.carries
      agree := ledger.agree
      spares := ledger.spares
      busy := fun f moves => ?_
      asleep := fun v idle => ?_ }
  · have before := ledger.frames b
    have list := lists (List.count b)
    rw [empty] at list
    have same : freeCount cfg (initWorker s.shared w) b = freeCount cfg s.shared b :=
      Nat.add_right_cancel list
    unfold places at before ⊢
    rw [same]
    exact before
  · have same : account cfg (initWorker s.shared w) = account cfg s.shared := by
      change account cfg (s.shared.setLocal w ⟨[], 0, true⟩) = _
      simp only [List.length_nil] at counts
      omega
    rw [same]
    exact ledger.used
  · have awake := ledger.busy f moves
    by_cases here : cfg.wid f = w
    · rw [here, sleeps] at awake
      cases awake
    · simpa [initWorker, Shared.setLocal, here] using awake
  · by_cases here : v = w
    · subst here
      simp [initWorker, Shared.setLocal] at idle
    · simp only [initWorker, Shared.setLocal, Function.update_of_ne here] at idle ⊢
      exact ledger.asleep v idle

theorem ledger_exec {act : Act n} (ledger : Ledger cfg s) (stays : Stays act)
    (execs : exec cfg s act = some (s', out)) : Ledger cfg s' := by
  cases act with
  | call f op =>
    simp only [exec] at execs
    split at execs
    next allowed =>
      obtain ⟨r, called, put⟩ := Option.map_eq_some_iff.mp execs
      cases put
      exact ledger.after (ledger.booked_call (isIdle_iff.mp allowed.1) called) allowed.2
    next => cases execs
  | step f choice =>
    obtain ⟨r, stepped, put⟩ := Option.map_eq_some_iff.mp execs
    cases put
    have moves : (s.fibers f).pc.isIdle = false := by
      refine Bool.eq_false_iff.mpr fun idle => ?_
      rw [isIdle_iff] at idle
      simp [stepFiber, idle] at stepped
    exact ledger.after (ledger.booked stepped) (ledger.busy f moves)
  | initWorker w =>
    simp only [exec] at execs
    split at execs <;> cases execs
    next allowed => exact ledger.init allowed.1 allowed.2
  | shutdownWorker w => exact stays.elim

theorem length_initial (m : Nat) :
    ((List.range m).filter fun bid => bid ≠ 0).length = m - 1 := by
  induction m with
  | zero => rfl
  | succ m ih =>
    rw [List.range_succ, List.filter_append, List.length_append, ih]
    cases m <;> simp

theorem ledger_initial (cfg : Config n) : Ledger cfg (initial cfg) where
  frames := fun b => by
    have hands : ownedCount cfg (initial cfg) b = 0 := Finset.sum_eq_zero fun _ _ => rfl
    unfold places
    rw [slotsOf_initial, freeCount_initial, hands]
    split_ifs <;> omega
  used := by
    have lists : listed cfg (initial cfg).shared = cfg.pageCount - 1 :=
      (weigh_initial cfg fun _ _ => List.length_append).trans (length_initial cfg.pageCount)
    have counts : deltas cfg (initial cfg).shared = 0 := Finset.sum_eq_zero fun _ _ => rfl
    have hands : ∑ f, ((initial cfg).fibers f).pc.due cfg = 0 := Finset.sum_eq_zero fun _ _ => rfl
    have used : (initial cfg).shared.used = 1 := rfl
    unfold account
    rw [lists, counts, hands, used]
    congr 1
    omega
  zero := by
    rw [slotsOf_initial]
    exact le_refl 1
  root := by
    rintro p ⟨i, -, entry⟩
    exact (entry_initial entry).2.1
  carries := fun _ => trivial
  agree := fun _ => rfl
  spares := fun _ => trivial
  busy := (fun _ member => by cases member)
  asleep := fun _ _ => ⟨rfl, rfl⟩

theorem ledger_reaches {labels : List (Act n × Out)}
    (reached : (system cfg).Reaches (fun _ label => Stays label.1) labels s) : Ledger cfg s := by
  refine reached.invariant (P := Ledger cfg) ?_ ?_
  · rintro s₀ rfl
    exact ledger_initial cfg
  · intro s₀ label s₁ ledger stays step
    exact ledger_exec ledger stays step

/-! ### `shared_free_count` -/

def pooled (cfg : Config n) (sh : Shared n) : Nat :=
  ∑ k ∈ Finset.range cfg.poolCount, (sh.pools k).length

/-- The buffer manager together with `shared_free_count`, which only decides whom to wake. -/
structure Counted (n : Nat) where
  state : State n
  sharedFreeCount : Nat

/-- What a step adds to `shared_free_count` under the lock of the pool it works on. -/
def sharedFreeChange (cfg : Config n) (s : State n) : Act n → Int
  | .step f choice =>
    match (s.fibers f).pc with
    | .refill _ _ step =>
      -(min (cfg.refillTarget - (ownLocal cfg s.shared f).free.length) (s.shared.pools
        ((cfg.freePoolIndexForWorker (cfg.wid f) + step) &&& cfg.poolMask)).length : Nat)
    | .loseRelease _ _ _ =>
      if (ownLocal cfg s.shared f).free.length < cfg.localFreeCap (choice != 0) then 0 else 1
    | .evRelease ev _ pool =>
      (ev.freed.filter fun bid => cfg.freePoolIndexForBid bid == pool).length
    | _ => 0
  | _ => 0

def Counted.exec (cfg : Config n) (c : Counted n) (act : Act n) : Option (Counted n × Out) :=
  (BufferMgr.exec cfg c.state act).map fun r =>
    (⟨r.1, u64 (c.sharedFreeCount + sharedFreeChange cfg c.state act)⟩, r.2)

/-- `init` counts the frames it puts into the pools. -/
def Counted.initial (cfg : Config n) : Counted n :=
  ⟨BufferMgr.initial cfg, u64 (cfg.pageCount - 1 : Nat)⟩

def Counted.system (cfg : Config n) : System (Counted n) (Act n × Out) :=
  System.ofStep (fun c => c = Counted.initial cfg) (Counted.exec cfg)

theorem pooled_setPool (sh : Shared n) {k : Nat} (inRange : k < cfg.poolCount) (l : List Nat) :
    pooled cfg (sh.setPool k l) + (sh.pools k).length = pooled cfg sh + l.length :=
  sum_update (Finset.range cfg.poolCount) sh.pools k l List.length (Finset.mem_range.mpr inRange)

theorem Ledger.pooled_step {choice : Nat} (ledger : Ledger cfg s)
    (stepped : stepFiber cfg s.shared f (s.fibers f) choice = some r) :
    (pooled cfg r.shared : Int) = pooled cfg s.shared + sharedFreeChange cfg s (.step f choice) := by
  cases at_ : (s.fibers f).pc with
  | refill need why step =>
    have inRange := pool_lt cfg (cfg.freePoolIndexForWorker (cfg.wid f) + step)
    have shared : r.shared = refillFromPool cfg s.shared f step := by
      simp only [stepFiber, at_, refill] at stepped
      split at stepped
      · cases stepped
        rfl
      · obtain ⟨pc', -, goes⟩ := Option.bind_eq_some_iff.mp stepped
        cases goes
        rfl
    rw [shared]
    unfold refillFromPool
    simp only [sharedFreeChange, at_]
    generalize take : min _ (List.length _) = m
    have moved := pooled_setPool s.shared inRange (List.drop m (s.shared.pools
      ((cfg.freePoolIndexForWorker (cfg.wid f) + step) &&& cfg.poolMask)))
    rw [List.length_drop] at moved
    change (pooled cfg (s.shared.setPool _ _) : Int) = _
    omega
  | loseRelease p b caller =>
    simp only [stepFiber, at_] at stepped
    cases stepped
    simp only [sharedFreeChange, at_, releaseFreeBid]
    split
    · exact (add_zero _).symm
    · have pushed := pooled_setPool s.shared (pool_lt cfg b)
        (b :: s.shared.pools (b &&& cfg.poolMask))
      rw [List.length_cons] at pushed
      unfold Config.freePoolIndexForBid
      omega
  | evRelease ev ph pool =>
    have inside : ev.Spares ∧ pool < cfg.poolCount := ledger.spares_at at_
    have pushed := pooled_setPool s.shared inside.2
      ((ev.freed.filter fun bid => cfg.freePoolIndexForBid bid == pool).reverse ++
        s.shared.pools pool)
    rw [List.length_append, List.length_reverse] at pushed
    simp only [stepFiber, at_, evRelease] at stepped
    cases stepped
    simp only [sharedFreeChange, at_]
    omega
  | _ =>
    have same := (ledger.booked stepped).pools (by rw [at_]; rfl)
    simp only [pooled, same, sharedFreeChange, at_]
    exact (add_zero _).symm

theorem Ledger.pooled_exec {act : Act n} (ledger : Ledger cfg s) (stays : Stays act)
    (execs : exec cfg s act = some (s', out)) :
    (pooled cfg s'.shared : Int) = pooled cfg s.shared + sharedFreeChange cfg s act := by
  cases act with
  | call f op =>
    simp only [exec] at execs
    split at execs
    next allowed =>
      obtain ⟨r, called, put⟩ := Option.map_eq_some_iff.mp execs
      cases put
      have idle := isIdle_iff.mp allowed.1
      have same := (ledger.booked_call idle called).pools (by rw [idle]; rfl)
      simp only [pooled, same, sharedFreeChange]
      exact (add_zero _).symm
    next => cases execs
  | step f choice =>
    obtain ⟨r, stepped, put⟩ := Option.map_eq_some_iff.mp execs
    cases put
    exact ledger.pooled_step stepped
  | initWorker w =>
    simp only [exec] at execs
    split at execs <;> cases execs
    exact (add_zero _).symm
  | shutdownWorker w => exact stays.elim

theorem Ledger.pooled_lt (ledger : Ledger cfg s) : pooled cfg s.shared < max 1 cfg.pageCount := by
  have inPools : ∀ b, ∑ k ∈ Finset.range cfg.poolCount, (s.shared.pools k).count b ≤
      if b = 0 ∨ max 1 cfg.pageCount ≤ b then 0 else 1 := by
    intro b
    have once := ledger.frames b
    have root := ledger.zero_elsewhere.1
    unfold places freeCount at once
    unfold freeCount at root
    split
    next outside =>
      rcases outside with rfl | far
      · omega
      · rw [if_neg (by omega)] at once
        omega
    next =>
      split at once <;> omega
  have bounded : ∀ k ∈ Finset.range cfg.poolCount, ∀ b ∈ s.shared.pools k,
      b < max 1 cfg.pageCount := by
    intro k inRange b member
    by_contra far
    have here : 1 ≤ (s.shared.pools k).count b := List.one_le_count_iff.mpr member
    have part := Finset.single_le_sum (f := fun k => (s.shared.pools k).count b)
      (fun _ _ => Nat.zero_le _) inRange
    have none := inPools b
    rw [if_pos (Or.inr (by omega))] at none
    omega
  calc pooled cfg s.shared
      = ∑ k ∈ Finset.range cfg.poolCount, ∑ b ∈ Finset.range (max 1 cfg.pageCount),
          (s.shared.pools k).count b :=
        Finset.sum_congr rfl fun k inRange => length_eq_sum_count (bounded k inRange)
    _ = ∑ b ∈ Finset.range (max 1 cfg.pageCount), ∑ k ∈ Finset.range cfg.poolCount,
          (s.shared.pools k).count b := Finset.sum_comm
    _ ≤ ∑ b ∈ Finset.range (max 1 cfg.pageCount), if b = 0 then 0 else 1 :=
        Finset.sum_le_sum fun b _ => (inPools b).trans (by split_ifs <;> simp_all)
    _ < ∑ b ∈ Finset.range (max 1 cfg.pageCount), 1 :=
        Finset.sum_lt_sum (fun b _ => by split <;> omega)
          ⟨0, Finset.mem_range.mpr (by omega), by simp⟩
    _ = max 1 cfg.pageCount := by simp

theorem counted_initial (cfg : Config n) :
    Ledger cfg (Counted.initial cfg).state ∧
      (Counted.initial cfg).sharedFreeCount = u64 (pooled cfg (Counted.initial cfg).state.shared) := by
  have lists := (weigh_initial cfg fun _ _ => List.length_append).trans
    (length_initial cfg.pageCount)
  have locals : ∑ w ∈ Finset.range cfg.workers,
      ((initial cfg).shared.locals w).free.length = 0 := Finset.sum_eq_zero fun _ _ => rfl
  unfold weigh at lists
  rw [locals] at lists
  exact ⟨ledger_initial cfg, congrArg (fun m : Nat => u64 m) lists.symm⟩

/-- **Conservation of frames.** While no worker shuts down, every frame is in exactly one
place: a live slot, a shared pool, a local free list or the hands of an operation. And
`shared_free_count` is the total size of the pools. -/
theorem frames_conserved (cfg : Config n) (fits : cfg.pageCount < 2 ^ 64) {c : Counted n}
    {labels : List (Act n × Out)}
    (reached : (Counted.system cfg).Reaches (fun _ label => Stays label.1) labels c) :
    (∀ b < cfg.pageCount, places cfg c.state b = 1) ∧
      c.sharedFreeCount = pooled cfg c.state.shared := by
  have counts : Ledger cfg c.state ∧ c.sharedFreeCount = u64 (pooled cfg c.state.shared) := by
    refine reached.invariant
      (P := fun c => Ledger cfg c.state ∧ c.sharedFreeCount = u64 (pooled cfg c.state.shared)) ?_ ?_
    · rintro c₀ rfl
      exact counted_initial cfg
    · rintro c₀ label c₁ ⟨ledger, counted⟩ stays step
      obtain ⟨⟨s', out⟩, execs, next⟩ := Option.map_eq_some_iff.mp step
      cases next
      have moved := ledger.pooled_exec stays execs
      refine ⟨ledger_exec ledger stays execs, ?_⟩
      rw [moved, counted, u64_add]
  obtain ⟨ledger, counted⟩ := counts
  have few := ledger.pooled_lt
  refine ⟨fun b inside => ?_, ?_⟩
  · have once := ledger.frames b
    rwa [if_pos (by omega)] at once
  · have cast := u64_cast (pooled cfg c.state.shared)
    omega

/-- Page 1 is allocated and evicted. Its frame then is in the shared pool, which the refill
of the allocating worker had emptied. -/
theorem frames_conserved_evicted :
    ∃ labels c, (Counted.system twoWorkers).Reaches (fun _ label => Stays label.1) labels c ∧
      c.sharedFreeCount = 1 ∧ c.state.shared.pools 0 = [1] ∧
      (∀ b < twoWorkers.pageCount, places twoWorkers c.state b = 1) ∧
      c.sharedFreeCount = pooled twoWorkers c.state.shared := by
  have passed : (drive (Counted.exec twoWorkers) (fun _ a => decide (Stays a))
      (Counted.initial twoWorkers) (List.flatten [allocated, unmarks, evicts])).any
      (fun r => decide (r.1.sharedFreeCount = 1 ∧ r.1.state.shared.pools 0 = [1])) = true := by
    decide +kernel
  obtain ⟨c, labels, reached, tested⟩ := drive_meets (Counted.system twoWorkers) rfl rfl passed
  obtain ⟨count, pool⟩ := of_decide_eq_true tested
  exact ⟨labels, c, reached, count, pool, frames_conserved twoWorkers (by decide) reached⟩

end UringDb.BufferMgr
