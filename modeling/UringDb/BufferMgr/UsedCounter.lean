import UringDb.BufferMgr.Shutdown

/-!
# What `physUsedCount` says

`evict()` and the evictor's `below_free_target` subtract `physUsedCount` from `page_count`. The
counter is behind by what the workers keep in their deltas and by what running operations have
not booked yet, in either direction, so the difference need not be a number of frames.
-/
namespace UringDb.BufferMgr

open PageState PageTable

variable {n : Nat} {cfg : Config n} {s : State n}

def effectiveUsed (sh : Shared n) (worker : Nat) : Nat := u64 (sh.used + (sh.locals worker).delta)

/-- The frames in the free lists, corrected by all that is not booked yet: the deltas of the
workers, the frames that were taken from a list and are not counted, and, with a minus, those that
were put into a list and still are. -/
def bookedFree (cfg : Config n) (s : State n) : Int := listed cfg s.shared + lag cfg s

/-! ### The counter is a 64-bit word -/

theorem word_exec {s' : State n} {act : Act n} {out : Out} (word : s.shared.used < 2 ^ 64)
    (execs : exec cfg s act = some (s', out)) : s'.shared.used < 2 ^ 64 := by
  cases act with
  | call f op =>
    simp only [exec] at execs
    split at execs
    next allowed =>
      obtain ⟨r, called, put⟩ := Option.map_eq_some_iff.mp execs
      cases put
      exact (call_balanced (isIdle_iff.mp allowed.1) called).word word
    next => cases execs
  | step f choice =>
    obtain ⟨r, stepped, put⟩ := Option.map_eq_some_iff.mp execs
    cases put
    exact (step_balanced stepped).word word
  | initWorker w =>
    simp only [exec] at execs
    split at execs <;> cases execs
    exact word
  | shutdownWorker w =>
    simp only [exec] at execs
    split at execs <;> cases execs
    exact u64_lt _

theorem word_reaches {ok : State n → Act n × Out → Prop} {labels : List (Act n × Out)}
    (reached : (system cfg).Reaches ok labels s) : s.shared.used < 2 ^ 64 := by
  refine reached.invariant (P := fun s => s.shared.used < 2 ^ 64) ?_
    fun _ _ _ word _ step => word_exec word step
  rintro _ rfl
  exact Nat.one_lt_two_pow (by decide)

/-! ### The two tests -/

/-- Of two words that add up to `whole`, both are at most `whole` or neither is. -/
theorem le_whole_iff {whole : Nat} (fits : whole < 2 ^ 64) {a b : Nat} (ha : a < 2 ^ 64)
    (hb : b < 2 ^ 64) (sum : ((a : Int) + b) % 2 ^ 64 = whole % 2 ^ 64) :
    a ≤ whole ↔ b ≤ whole := by
  omega

/-- **The range of the used-page counter.** What `evict()` reads is at most `page_count` exactly
if the corrected number of free frames, as a word, is; and what the evictor of a worker computes
with its own delta is exactly if that number without its own delta is. -/
theorem used_in_range_iff (cfg : Config n) (some_ : 1 ≤ cfg.pageCount)
    (fits : cfg.pageCount < 2 ^ 64) {labels : List (Act n × Out)}
    (reached : (system cfg).Reaches (fun s label => Leaves s label.1) labels s) :
    (s.shared.used ≤ cfg.pageCount ↔ u64 (bookedFree cfg s) ≤ cfg.pageCount) ∧
    ∀ w, effectiveUsed s.shared w ≤ cfg.pageCount ↔
      u64 (bookedFree cfg s - (s.shared.locals w).delta) ≤ cfg.pageCount := by
  have used := (ledger_of_leaves reached).used
  rw [Nat.max_eq_right some_] at used
  refine ⟨le_whole_iff fits (word_reaches reached) (u64_lt _) ?_,
    fun w => le_whole_iff fits (u64_lt _) (u64_lt _) ?_⟩
  · unfold account at used
    unfold bookedFree lag
    rw [u64_cast]
    omega
  · unfold account at used
    unfold bookedFree lag effectiveUsed
    rw [u64_cast, u64_cast]
    omega

/-- Two frames and three workers, of which the second and the third evict. -/
def threeFibers : Config 3 where
  pageCount := 2
  target := 2
  evictBatch := 1
  table := .ofBits 1
  poolBits := 0
  partitionBits := 2
  workers := 3
  wid := fun f => f.val
  wid_lt := fun f => f.isLt
  evictor := fun f => f != 0

/-- Page 1 is allocated in frame 1 and evicted. The frame is in the pool and not yet subtracted. -/
def releasedUncounted : List (Act 3) :=
  List.flatten [[.initWorker 0, .initWorker 1, .initWorker 2, .call 0 .allocPage], steps 0 14,
    [.call 0 (.unfix ⟨.exclusive, 1, 1⟩)], steps 0 4, [.call 1 .evict], steps 1 17,
    [.call 1 .evict], steps 1 18, [.step 1 0], steps 1 14]

/-- Worker 0 faults the page in again and flushes its delta of two: the third worker's `evict`
reads 3 for two frames. -/
def countedTwice : List (Act 3) :=
  List.flatten [releasedUncounted, [.call 0 (.handleFault 1)], steps 0 19, [.shutdownWorker 0],
    [.call 2 .evict]]

/-- While the frame is in the pool, the books are in order. -/
theorem used_in_range_released :
    ∃ labels s, (system threeFibers).Reaches (fun s label => Leaves s label.1) labels s ∧
      bookedFree threeFibers s = 1 ∧ s.shared.used ≤ threeFibers.pageCount := by
  have passed : (drive (exec threeFibers) (fun s a => decide (Leaves s a)) (initial threeFibers)
      releasedUncounted).any (fun (r : State 3 × List (Act 3 × Out)) =>
        decide (bookedFree threeFibers r.1 = 1)) = true := by
    decide +kernel
  obtain ⟨s, labels, reached, tested⟩ := drive_meets (system threeFibers) rfl rfl passed
  have books := of_decide_eq_true tested
  refine ⟨labels, s, reached, books, ?_⟩
  rw [(used_in_range_iff threeFibers (by decide) (by decide) reached).1, books]
  decide

theorem used_above_page_count :
    ∃ labels s s', (system threeFibers).Reaches (fun s label => Leaves s label.1) labels s ∧
      bookedFree threeFibers s = -1 ∧ s.shared.used = 3 ∧ threeFibers.pageCount = 2 ∧
      (system threeFibers).step s (.step 2 1, .silent) s' ∧
      (s'.fibers 2).pc = .evLoadInflight 3 := by
  have passed : (drive (exec threeFibers) (fun s a => decide (Leaves s a)) (initial threeFibers)
      countedTwice).any (fun (r : State 3 × List (Act 3 × Out)) =>
        decide (bookedFree threeFibers r.1 = -1 ∧ r.1.shared.used = 3) &&
        (exec threeFibers r.1 (.step 2 1)).any fun (t : State 3 × Out) => decide (t.2 = .silent) &&
          (match (t.1.fibers 2).pc with
          | .evLoadInflight 3 => true
          | _ => false)) = true := by
    decide +kernel
  obtain ⟨s, labels, reached, tested⟩ := drive_meets (system threeFibers) rfl rfl passed
  rw [Bool.and_eq_true] at tested
  obtain ⟨books, used⟩ := of_decide_eq_true tested.1
  obtain ⟨⟨s', out⟩, stepped, last⟩ := (Option.any_eq_true _ _).mp tested.2
  rw [Bool.and_eq_true] at last
  obtain rfl : out = .silent := of_decide_eq_true last.1
  refine ⟨labels, s, s', reached, books,
    used, rfl, stepped, ?_⟩
  have loaded := last.2
  dsimp only at loaded
  split at loaded
  next here => exact here
  next => cases loaded

end UringDb.BufferMgr
