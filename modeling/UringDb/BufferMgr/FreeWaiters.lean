import UringDb.BufferMgr.FreeTarget

/-!
# Fibers that wait for a frame

`handleFault` calls `wait_for_free_bid` when the local free list could not be refilled. A fiber
that finds `shared_free_count` at zero joins the queue of its worker and parks. Frames in the
local free lists of other workers are out of its reach, but the entry test of `evict()` takes
them for free.
-/
namespace UringDb.BufferMgr

open PageState PageTable

variable {n : Nat} {cfg : Config n} {s : State n}

/-! ### Workers that leave -/

/-- A worker shuts down only with an empty local free list, so that no frame is lost. -/
def Leaves (s : State n) : Act n → Prop
  | .shutdownWorker w => (s.shared.locals w).free = []
  | _ => True

instance (s : State n) (act : Act n) : Decidable (Leaves s act) :=
  match act with
  | .shutdownWorker w => inferInstanceAs (Decidable ((s.shared.locals w).free = []))
  | .step _ _ => isTrue trivial
  | .call _ _ => isTrue trivial
  | .initWorker _ => isTrue trivial

/-- A worker leaves: its delta is flushed, which moves it from one account to the other. -/
theorem Ledger.leave {w : Nat} (ledger : Ledger cfg s) (inRange : w < cfg.workers)
    (empty : (s.shared.locals w).free = [])
    (idle : ∀ f, cfg.wid f = w → (s.fibers f).pc.isIdle = true) :
    Ledger cfg { s with shared := shutdownWorker s.shared w } := by
  have lists := fun F => weigh_setLocal F s.shared inRange ⟨[], 0, false⟩
  have counts := account_setLocal s.shared inRange ⟨[], 0, false⟩
  rw [empty] at counts
  refine
    { frames := fun b => ?_
      used := ?_
      zero := ledger.zero
      root := ledger.root
      carries := ledger.carries
      agree := ledger.agree
      spares := ledger.spares
      busy := fun f moves => ?_
      asleep := fun v sleeps => ?_ }
  · have before := ledger.frames b
    have list := lists (List.count b)
    rw [empty] at list
    have same : freeCount cfg (shutdownWorker s.shared w) b = freeCount cfg s.shared b :=
      Nat.add_right_cancel list
    unfold places at before ⊢
    rw [same]
    exact before
  · have before := ledger.used
    -- the flush adds the delta to `physUsedCount` modulo 2^64
    have flushed : account cfg (shutdownWorker s.shared w) + s.shared.used =
        account cfg (s.shared.setLocal w ⟨[], 0, false⟩) +
          u64 (s.shared.used + (s.shared.locals w).delta) :=
      account_used cfg (s.shared.setLocal w ⟨[], 0, false⟩) _
    have word := u64_cast (s.shared.used + (s.shared.locals w).delta)
    simp only [List.length_nil] at counts
    dsimp only
    omega
  · by_cases here : cfg.wid f = w
    · rw [idle f here] at moves
      cases moves
    · have awake := ledger.busy f moves
      simpa only [shutdownWorker, Shared.setLocal, Function.update_of_ne here] using awake
  · by_cases here : v = w
    · subst here
      simp only [shutdownWorker, Shared.setLocal, Function.update_self, and_self]
    · simp only [shutdownWorker, Shared.setLocal, Function.update_of_ne here] at sleeps ⊢
      exact ledger.asleep v sleeps

theorem ledger_leaves {s' : State n} {act : Act n} {out : Out} (ledger : Ledger cfg s)
    (leaves : Leaves s act) (execs : exec cfg s act = some (s', out)) : Ledger cfg s' := by
  by_cases stays : Stays act
  · exact ledger_exec ledger stays execs
  · cases act with
    | shutdownWorker w =>
      simp only [exec] at execs
      split at execs <;> cases execs
      next allowed => exact ledger.leave allowed.1 leaves fun f here => (allowed.2.2 f here).1
    | _ => exact absurd trivial stays

theorem pooled_leaves {s' : State n} {act : Act n} {out : Out} (ledger : Ledger cfg s)
    (execs : exec cfg s act = some (s', out)) :
    (pooled cfg s'.shared : Int) = pooled cfg s.shared + sharedFreeChange cfg s act := by
  by_cases stays : Stays act
  · exact ledger.pooled_exec stays execs
  · cases act with
    | shutdownWorker w =>
      simp only [exec] at execs
      split at execs <;> cases execs
      exact (add_zero _).symm
    | _ => exact absurd trivial stays

/-! ### The queues -/

/-- The buffer manager with `free_frame_waiters_by_worker`. -/
structure Waiting (n : Nat) where
  counted : Counted n
  /-- The fiber is about to call `wait_for_free_bid`. -/
  refused : Fin n → Bool
  queues : Nat → List (Fin n)

/-- A fiber that calls `wait_for_free_bid` or is parked in it. -/
def Waiting.waits (cfg : Config n) (c : Waiting n) (f : Fin n) : Bool :=
  c.refused f || decide (f ∈ c.queues (cfg.wid f))

inductive WaitAct (n : Nat) where
  | run (act : Act n)
  | wait (f : Fin n)
  | wake (f : Fin n)
  deriving DecidableEq

def Act.fiber? : Act n → Option (Fin n)
  | .call f _ => some f
  | .step f _ => some f
  | _ => none

/-- `while (!refill_local_free_list(1))` goes on to `wait_for_free_bid`. -/
def refusesRefill (s s' : State n) (f : Fin n) : Bool :=
  match (s.fibers f).pc, (s'.fibers f).pc with
  | .refill (.fault _ _) .retry _, .faultLookup _ _ => true
  | _, _ => false

/-- The code that releases frames takes fibers from the queues; which ones and when is left
open. -/
def Waiting.exec (cfg : Config n) (c : Waiting n) : WaitAct n → Option (Waiting n × Out)
  | .run act =>
    if act.fiber?.any (c.waits cfg) then none
    else (Counted.exec cfg c.counted act).map fun r =>
      ({ c with
        counted := r.1
        refused := fun f =>
          c.refused f || (act.fiber? = some f && refusesRefill c.counted.state r.1.state f) }, r.2)
  | .wait f =>
    if c.refused f then
      let queues :=
        if 0 < c.counted.sharedFreeCount then c.queues
        else Function.update c.queues (cfg.wid f) (c.queues (cfg.wid f) ++ [f])
      some ({ c with refused := Function.update c.refused f false, queues }, .silent)
    else none
  | .wake f =>
    if f ∈ c.queues (cfg.wid f) then
      let queues := Function.update c.queues (cfg.wid f) ((c.queues (cfg.wid f)).erase f)
      some ({ c with queues }, .silent)
    else none

def Waiting.initial (cfg : Config n) : Waiting n :=
  ⟨Counted.initial cfg, fun _ => false, fun _ => []⟩

def Waiting.system (cfg : Config n) : System (Waiting n) (WaitAct n × Out) :=
  System.ofStep (fun c => c = Waiting.initial cfg) (Waiting.exec cfg)

/-- No frame is lost in a shutdown. -/
def Orderly (c : Waiting n) : WaitAct n → Prop
  | .run act => Leaves c.counted.state act
  | _ => True

instance (c : Waiting n) (a : WaitAct n) : Decidable (Orderly c a) := by
  cases a
  case run act => exact inferInstanceAs (Decidable (Leaves c.counted.state act))
  all_goals exact isTrue trivial

theorem ledger_waiting {c : Waiting n} {labels : List (WaitAct n × Out)}
    (reached : (Waiting.system cfg).Reaches (fun c label => Orderly c label.1) labels c) :
    Ledger cfg c.counted.state ∧
      c.counted.sharedFreeCount = u64 (pooled cfg c.counted.state.shared) := by
  refine reached.invariant (P := fun c : Waiting n => Ledger cfg c.counted.state ∧
    c.counted.sharedFreeCount = u64 (pooled cfg c.counted.state.shared)) ?_ ?_
  · rintro c₀ rfl
    exact counted_initial cfg
  · rintro c₀ ⟨act, out⟩ c₁ ⟨ledger, counted⟩ orderly step
    cases act with
    | run act =>
      change Waiting.exec cfg c₀ (.run act) = some (c₁, out) at step
      simp only [Waiting.exec] at step
      split at step
      next => cases step
      next =>
        obtain ⟨⟨r, out'⟩, execs, next⟩ := Option.map_eq_some_iff.mp step
        cases next
        obtain ⟨⟨s', out''⟩, base, made⟩ := Option.map_eq_some_iff.mp execs
        cases made
        refine ⟨ledger_leaves ledger orderly base, ?_⟩
        dsimp only
        rw [pooled_leaves ledger base, counted, u64_add]
    | wait f =>
      change Waiting.exec cfg c₀ (.wait f) = some (c₁, out) at step
      simp only [Waiting.exec] at step
      split at step <;> cases step
      exact ⟨ledger, counted⟩
    | wake f =>
      change Waiting.exec cfg c₀ (.wake f) = some (c₁, out) at step
      simp only [Waiting.exec] at step
      split at step <;> cases step
      exact ⟨ledger, counted⟩

/-! ### The entry test -/

def cached (cfg : Config n) (sh : Shared n) : Nat :=
  ∑ w ∈ Finset.range cfg.workers, (sh.locals w).free.length

/-- What the test takes for free when all deltas are flushed and the pools are empty: the frames
in local free lists, and those on their way that are not counted yet. -/
def outOfReach (cfg : Config n) (s : State n) : Int :=
  cached cfg s.shared + ∑ f, (s.fibers f).pc.due cfg

theorem Ledger.free_eq_outOfReach (ledger : Ledger cfg s) (some_ : 1 ≤ cfg.pageCount)
    (flushed : ∀ w < cfg.workers, (s.shared.locals w).delta = 0)
    (empty : pooled cfg s.shared = 0) :
    u64 (cfg.pageCount - s.shared.used) = u64 (outOfReach cfg s) := by
  have used := ledger.used
  have none : deltas cfg s.shared = 0 :=
    Finset.sum_eq_zero fun w inRange => flushed w (Finset.mem_range.mp inRange)
  have lists : listed cfg s.shared = cached cfg s.shared := by
    change pooled cfg s.shared + cached cfg s.shared = _
    rw [empty, Nat.zero_add]
  unfold account at used
  rw [none, lists] at used
  unfold u64 outOfReach
  omega

/-- **The entry test while a fiber waits for a frame.** With all deltas flushed, no eviction in
flight and nothing in the pools, the waiter's evictor is let in exactly when the frames that are
out of the waiter's reach are fewer than the target. -/
theorem waiter_entryTest (cfg : Config n) (fits : cfg.pageCount < 2 ^ 64) {c : Waiting n}
    {labels : List (WaitAct n × Out)}
    (reached : (Waiting.system cfg).Reaches (fun c label => Orderly c label.1) labels c)
    (flushed : ∀ w < cfg.workers, (c.counted.state.shared.locals w).delta = 0)
    (settled : c.counted.state.shared.inflight = 0) (drained : c.counted.sharedFreeCount = 0) :
    ∀ w f, f ∈ c.queues w →
      (entryTest cfg c.counted.state.shared.used c.counted.state.shared.inflight = true ↔
        u64 (outOfReach cfg c.counted.state) < cfg.freeTarget) := by
  obtain ⟨ledger, counted⟩ := ledger_waiting reached
  intro w f _
  by_cases some_ : 1 ≤ cfg.pageCount
  · have empty : pooled cfg c.counted.state.shared = 0 := by
      have few := ledger.pooled_lt
      have word := u64_cast (pooled cfg c.counted.state.shared)
      rw [drained] at counted
      omega
    have free := ledger.free_eq_outOfReach some_ flushed empty
    have again : u64 (u64 (outOfReach cfg c.counted.state) + (0 : Nat)) =
        u64 (outOfReach cfg c.counted.state) := by
      rw [u64_add]
      simp
    unfold entryTest
    rw [settled, free, again, decide_eq_true_eq]
  · have none : cfg.freeTarget = 0 := if_pos (by omega)
    simp [entryTest, none]

/-! ### Three workers -/

/-- Fiber 0 loads pages on worker 0. Fiber 1 is a client and fiber 2 the evictor of worker 1,
fiber 3 a client of worker 2; `target` of the four frames are to be kept free. -/
def threeWorkers (target : Nat) : Config 4 where
  pageCount := 4
  target := target
  evictBatch := 2
  table := .ofBits 3
  poolBits := 0
  partitionBits := 1
  workers := 3
  wid := fun f => if f = 0 then 0 else if f = 3 then 2 else 1
  wid_lt := by decide
  evictor := fun f => f == 2

/-- Worker 0 fills the three frames and leaves, worker 1 evicts pages 1 and 3. A client of worker
1 that wants page 1 has moved both frames into its local free list, when one of worker 2 that
wants page 3 finds no frame in the pool. -/
def oneTakesAll : List (WaitAct 4) :=
  (List.flatten [[.initWorker 0, .call 0 .allocPage], steps 0 13, [.call 0 .allocPage], steps 0 12,
    [.call 0 .allocPage], steps 0 12, [.call 0 (.unfix ⟨.exclusive, 3, 3⟩)], steps 0 4,
    [.call 0 (.unfix ⟨.exclusive, 2, 2⟩)], steps 0 4, [.call 0 (.unfix ⟨.exclusive, 1, 1⟩)], steps 0 4,
    [.shutdownWorker 0, .initWorker 1, .call 2 .evict], steps 2 41, [.call 2 .evict], steps 2 32,
    [.step 2 0], steps 2 27, [.initWorker 2, .call 1 (.fixS 1)], steps 1 6,
    [.call 3 (.fixS 3)], steps 3 12]).map .run ++ [.wait 3]

/-- A fiber of worker 2 waits, and everything is flushed and settled. -/
def Stranded (cfg : Config 4) (c : Waiting 4) : Prop :=
  (∀ w < cfg.workers, (c.counted.state.shared.locals w).delta = 0) ∧
    c.counted.state.shared.inflight = 0 ∧ c.counted.sharedFreeCount = 0 ∧ 3 ∈ c.queues 2

instance (cfg : Config 4) (c : Waiting 4) : Decidable (Stranded cfg c) :=
  inferInstanceAs (Decidable (_ ∧ _))

/-- When three frames are to be kept free, the two in the local free list do not keep the
evictor out. -/
theorem waiter_entryTest_three :
    ∃ labels c, (Waiting.system (threeWorkers 3)).Reaches (fun c label => Orderly c label.1) labels c ∧
      Stranded (threeWorkers 3) c ∧ outOfReach (threeWorkers 3) c.counted.state = 2 ∧
      entryTest (threeWorkers 3) c.counted.state.shared.used c.counted.state.shared.inflight =
        true := by
  have passed : (drive (Waiting.exec (threeWorkers 3)) (fun c a => decide (Orderly c a))
      (Waiting.initial (threeWorkers 3)) oneTakesAll).any (fun r =>
        decide (Stranded (threeWorkers 3) r.1 ∧
          outOfReach (threeWorkers 3) r.1.counted.state = 2)) = true := by
    decide +kernel
  obtain ⟨c, labels, reached, tested⟩ :=
    drive_meets (Waiting.system (threeWorkers 3)) rfl rfl passed
  obtain ⟨stranded, apart⟩ := of_decide_eq_true tested
  refine ⟨labels, c, reached, stranded, apart, ?_⟩
  obtain ⟨flushed, settled, drained, queued⟩ := stranded
  rw [waiter_entryTest (threeWorkers 3) (by decide) reached flushed settled drained 2 3 queued,
    apart]
  decide

/-- When two are, they do: `evict()` returns Idle while the fiber waits. -/
theorem waiter_evict_idle :
    ∃ labels c, (Waiting.system (threeWorkers 2)).Reaches System.anyStep labels c ∧
      Stranded (threeWorkers 2) c ∧
      entryTest (threeWorkers 2) c.counted.state.shared.used c.counted.state.shared.inflight =
        false := by
  have passed : (drive (Waiting.exec (threeWorkers 2)) (fun _ _ => true)
      (Waiting.initial (threeWorkers 2)) oneTakesAll).any (fun r =>
        decide (Stranded (threeWorkers 2) r.1 ∧ entryTest (threeWorkers 2)
          r.1.counted.state.shared.used r.1.counted.state.shared.inflight = false)) = true := by
    decide +kernel
  obtain ⟨c, labels, reached, tested⟩ :=
    drive_anyStep (Waiting.system (threeWorkers 2)) rfl rfl passed
  obtain ⟨stranded, fails⟩ := of_decide_eq_true tested
  exact ⟨labels, c, reached, stranded, fails⟩

end UringDb.BufferMgr
