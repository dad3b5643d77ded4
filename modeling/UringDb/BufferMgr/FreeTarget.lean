import UringDb.BufferMgr.Conservation

/-!
# The entry test of `evict` when memory is exhausted

`evict()` compares the target with `page_count - physUsedCount`, but `physUsedCount` lags
behind by what the workers keep in their deltas. When no frame is in any list, the test sees
exactly that lag as free frames.
-/
namespace UringDb.BufferMgr

open PageState PageTable

variable {n : Nat} {cfg : Config n} {s : State n}

/-- No frame is in a shared pool or a local free list. -/
def Exhausted (cfg : Config n) (sh : Shared n) : Prop :=
  (∀ k < cfg.poolCount, sh.pools k = []) ∧ ∀ w < cfg.workers, (sh.locals w).free = []

instance (cfg : Config n) (sh : Shared n) : Decidable (Exhausted cfg sh) :=
  inferInstanceAs (Decidable (_ ∧ _))

/-- By how much `physUsedCount` is behind: the unflushed deltas and what is due. -/
def lag (cfg : Config n) (s : State n) : Int :=
  deltas cfg s.shared + ∑ f, (s.fibers f).pc.due cfg

theorem Exhausted.listed {sh : Shared n} (exhausted : Exhausted cfg sh) : listed cfg sh = 0 := by
  obtain ⟨pools, locals⟩ := exhausted
  have none : ∑ k ∈ Finset.range cfg.poolCount, (sh.pools k).length = 0 :=
    Finset.sum_eq_zero fun k inRange => by rw [pools k (Finset.mem_range.mp inRange)]; rfl
  have noneHere : ∑ w ∈ Finset.range cfg.workers, (sh.locals w).free.length = 0 :=
    Finset.sum_eq_zero fun w inRange => by rw [locals w (Finset.mem_range.mp inRange)]; rfl
  unfold BufferMgr.listed weigh
  rw [none, noneHere]

theorem Ledger.free_eq_lag (ledger : Ledger cfg s) (exhausted : Exhausted cfg s.shared)
    (some_ : 1 ≤ cfg.pageCount) : u64 (cfg.pageCount - s.shared.used) = u64 (lag cfg s) := by
  have used := ledger.used
  have lists := exhausted.listed
  unfold account at used
  rw [lists] at used
  unfold u64 lag
  omega

/-- **The entry test of an exhausted buffer manager.** It passes exactly when the lag of
`physUsedCount`, as a 64-bit word, is below the target; otherwise `evict` returns Idle. -/
theorem exhausted_entryTest (cfg : Config n) {labels : List (Act n × Out)}
    (reached : (system cfg).Reaches (fun _ label => Stays label.1) labels s)
    (exhausted : Exhausted cfg s.shared) (settled : s.shared.inflight = 0) :
    (entryTest cfg s.shared.used s.shared.inflight = true ↔
      u64 (lag cfg s) < cfg.freeTarget) ∧
    ∀ f choice fib, fib.pc = .evLoadInflight s.shared.used →
      ∃ r, stepFiber cfg s.shared f fib choice = some r ∧
        (r.out = .evictIdle ↔ ¬ u64 (lag cfg s) < cfg.freeTarget) := by
  have ledger := ledger_reaches reached
  have test : entryTest cfg s.shared.used s.shared.inflight = true ↔
      u64 (lag cfg s) < cfg.freeTarget := by
    by_cases some_ : 1 ≤ cfg.pageCount
    · have free := ledger.free_eq_lag exhausted some_
      have again : u64 (u64 (lag cfg s) + (0 : Nat)) = u64 (lag cfg s) := by
        rw [u64_add]
        simp
      unfold entryTest
      rw [settled, free, again, decide_eq_true_eq]
    · have none : cfg.freeTarget = 0 := if_pos (by omega)
      simp [entryTest, none]
  refine ⟨test, fun f choice fib at_ => ?_⟩
  simp only [stepFiber, at_, evLoadInflight]
  split
  next passes => exact ⟨_, rfl, (fun same => by cases same), fun above => absurd (test.mp passes) above⟩
  next fails => exact ⟨_, rfl, fun _ below => fails (test.mpr below), fun _ => rfl⟩

/-- Two fibers of one worker, the second of which evicts; `target` of the four frames are to
be kept free. -/
def fourFrames (target : Nat) : Config 2 where
  pageCount := 4
  target := target
  evictBatch := 1
  table := .ofBits 3
  poolBits := 0
  partitionBits := 0
  workers := 1
  wid := fun _ => 0
  wid_lt := fun _ => Nat.one_pos
  evictor := fun f => f == 1

def takeAll : List (Act 2) :=
  List.flatten [[.initWorker 0, .call 0 .allocPage], steps 0 13, [.call 0 .allocPage], steps 0 12,
    [.call 0 .allocPage], steps 0 12]

/-- When all four frames are to be kept free, the test passes in spite of the lag of three. -/
theorem exhausted_entryTest_four :
    ∃ labels s, (system (fourFrames 4)).Reaches (fun _ label => Stays label.1) labels s ∧
      Exhausted (fourFrames 4) s.shared ∧ s.shared.inflight = 0 ∧ lag (fourFrames 4) s = 3 ∧
      entryTest (fourFrames 4) s.shared.used s.shared.inflight = true := by
  have passed : (drive (exec (fourFrames 4)) (fun _ a => decide (Stays a)) (initial (fourFrames 4))
      takeAll).any (fun r => decide (Exhausted (fourFrames 4) r.1.shared ∧
        r.1.shared.inflight = 0 ∧ lag (fourFrames 4) r.1 = 3)) = true := by
    decide +kernel
  obtain ⟨s, labels, reached, tested⟩ := drive_meets (system (fourFrames 4)) rfl rfl passed
  obtain ⟨exhausted, settled, behind⟩ := of_decide_eq_true tested
  refine ⟨labels, s, reached, exhausted, settled, behind, ?_⟩
  rw [(exhausted_entryTest (fourFrames 4) reached exhausted settled).1, behind]
  decide

/-- One of four frames is to be kept free and none is. The three allocations are still in the
worker's delta, so `evict` takes three frames for free and returns Idle. -/
theorem exhausted_evict_idle :
    ∃ labels s t u, (system (fourFrames 1)).Reaches (fun _ label => Stays label.1) labels s ∧
      (fourFrames 1).freeTarget = 1 ∧ Exhausted (fourFrames 1) s.shared ∧
      s.shared.inflight = 0 ∧ entryTest (fourFrames 1) s.shared.used s.shared.inflight = false ∧
      (system (fourFrames 1)).Path System.anyStep s
        [(.call 1 .evict, .silent), (.step 1 1, .silent)] t ∧
      (system (fourFrames 1)).step t (.step 1 1, .evictIdle) u := by
  have passed : (drive (exec (fourFrames 1)) (fun _ a => decide (Stays a)) (initial (fourFrames 1))
      takeAll).any (fun r => decide (Exhausted (fourFrames 1) r.1.shared ∧
        r.1.shared.inflight = 0 ∧
        entryTest (fourFrames 1) r.1.shared.used r.1.shared.inflight = false) &&
        (drive (exec (fourFrames 1)) (fun _ _ => true) r.1 [.call 1 .evict, .step 1 1]).any
          fun t => decide (t.2 = [(.call 1 .evict, .silent), (.step 1 1, .silent)]) &&
            (exec (fourFrames 1) t.1 (.step 1 1)).any fun u => decide (u.2 = .evictIdle)) = true := by
    decide +kernel
  obtain ⟨s, labels, reached, tested⟩ := drive_meets (system (fourFrames 1)) rfl rfl passed
  rw [Bool.and_eq_true] at tested
  obtain ⟨exhausted, settled, fails⟩ := of_decide_eq_true tested.1
  obtain ⟨t, shown, called, last⟩ := drive_of_any tested.2
  rw [Bool.and_eq_true] at last
  obtain ⟨⟨u, out⟩, returns, idle⟩ := (Option.any_eq_true _ _).mp last.2
  obtain rfl : shown = _ := of_decide_eq_true last.1
  obtain rfl : out = _ := of_decide_eq_true idle
  exact ⟨labels, s, t, u, reached, rfl,
    exhausted, settled, fails, drive_path (fun _ _ _ _ => trivial) called, returns⟩

end UringDb.BufferMgr
