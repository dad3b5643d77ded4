import UringDb.BufferMgr.Reservation
import UringDb.BufferMgr.WakeBudget

/-!
# How many fibers `releaseFreed` wakes

`releaseFreed` wakes fibers of the own worker if there are any, and only otherwise goes through
the queues of all workers with a budget. The thread runs alone here: nobody else touches the
queues, and there is no budget left over. A call of `evict` frees at most a batch of frames and
`refill_target` is no smaller, so there is room for one fiber.
-/
namespace UringDb.BufferMgr.WakeBudget

variable {workers threads : Nat} {φ : Type} {s s' s₀ : State threads φ} {t : Fin threads}
  {worker slots : Nat}

def State.waiting (workers : Nat) (s : State threads φ) : Nat :=
  ∑ w ∈ Finset.range workers, (s.queues w).length

/-- How many fibers a release by `worker` with room for `slots` of them wakes. -/
def wakes (workers : Nat) (s : State threads φ) (worker slots : Nat) : Nat :=
  if s.queues worker = [] then min slots (s.waiting workers)
  else min slots (s.queues worker).length

/-- The queued fibers of the first `step` workers from `worker` on. -/
def State.upTo (workers : Nat) (s : State threads φ) (worker step : Nat) : Nat :=
  ∑ i ∈ Finset.range step, (s.queues ((worker + i) % workers)).length

theorem upTo_succ (workers : Nat) (s : State threads φ) (worker step : Nat) :
    s.upTo workers worker (step + 1) =
      s.upTo workers worker step + (s.queues ((worker + step) % workers)).length :=
  Finset.sum_range_succ _ _

theorem upTo_all (s : State threads φ) (worker : Nat) :
    s.upTo workers worker workers = s.waiting workers :=
  Ring.sum_rotate worker fun w => (s.queues w).length

theorem upTo_mono (workers : Nat) (s : State threads φ) (worker : Nat) {step more : Nat} (le : step ≤ more) :
    s.upTo workers worker step ≤ s.upTo workers worker more :=
  Finset.sum_le_sum_of_subset (Finset.range_mono le)

/-! ### The call on its own -/

/-- Where the call is, `s₀` being the state it was made in. -/
def Stage (workers : Nat) (s₀ : State threads φ) (worker slots : Nat) (s : State threads φ) :
    Pc φ → Prop
  | .own w k => w = worker ∧ k = slots ∧ s.budget = 0 ∧ s.queues = s₀.queues
  | .addSlots w k => w = worker ∧ k = slots ∧ s.budget = 0 ∧ s.queues = s₀.queues ∧
      s₀.queues worker = []
  | .load w => w = worker ∧ s.budget = slots ∧ s.queues = s₀.queues ∧ s₀.queues worker = []
  | .cas w budget => w = worker ∧ s.budget = slots ∧ budget = slots ∧ s.queues = s₀.queues ∧
      s₀.queues worker = []
  | .drain w step remaining out => w = worker ∧ s₀.queues worker = [] ∧ step < workers ∧
      out.length = min slots (s₀.upTo workers worker step) ∧ remaining + out.length = slots ∧
      ∀ i, step ≤ i → i < workers →
        s.queues ((worker + i) % workers) = s₀.queues ((worker + i) % workers)
  | .refund _ out => out.length = wakes workers s₀ worker slots
  | .wake out => out.length = wakes workers s₀ worker slots
  | .idle => True
  | _ => False

/-- The call runs alone: no lock is held when the thread needs one. -/
structure Alone (workers : Nat) (s₀ : State threads φ) (t : Fin threads) (worker slots : Nat)
    (s : State threads φ) : Prop where
  unlocked : ∀ w < workers, s.locks w = none
  stage : Stage workers s₀ worker slots s (s.pcs t)

theorem front_eq_nil (positive : 0 < slots) : s.front worker slots = [] ↔ s.queues worker = [] := by
  rw [← List.length_eq_zero_iff, length_front, ← List.length_eq_zero_iff]
  omega

theorem stage_drain {step remaining : Nat} {out : List (Waiter φ)}
    (stage : Stage workers s₀ worker slots s (.drain worker step remaining out)) :
    Stage workers s₀ worker slots (s.popped ((worker + step) % workers) remaining)
      (afterDrain workers worker step
        (remaining - (s.front ((worker + step) % workers) remaining).length)
        (out ++ s.front ((worker + step) % workers) remaining)) := by
  obtain ⟨-, none_, inside, popped, left, rest⟩ := stage
  have here := rest step (Nat.le_refl _) inside
  have taken := length_front s ((worker + step) % workers) remaining
  rw [here] at taken
  have next := upTo_succ workers s₀ worker step
  have length : (out ++ s.front ((worker + step) % workers) remaining).length =
      min slots (s₀.upTo workers worker (step + 1)) := by
    rw [List.length_append, taken, next]
    omega
  unfold afterDrain
  split
  next more =>
    refine ⟨rfl, none_, more.1, length, ?_, fun i later inRange => ?_⟩
    · rw [List.length_append] at length ⊢
      omega
    · -- the queues that follow are others than the one just popped
      have apart : (worker + i) % workers ≠ (worker + step) % workers := by
        intro same
        have := Ring.add_inj inRange inside same
        omega
      simp only [State.popped, State.setQueue, Function.update_of_ne apart]
      exact rest i (by omega) inRange
  next stops =>
    have done : (out ++ s.front ((worker + step) % workers) remaining).length =
        wakes workers s₀ worker slots := by
      rw [length, wakes, if_pos none_, ← upTo_all s₀ worker]
      by_cases last : step + 1 < workers
      · have all := upTo_mono workers s₀ worker last.le
        have spent : remaining - (s.front ((worker + step) % workers) remaining).length = 0 := by
          by_contra more
          exact stops ⟨last, Nat.pos_of_ne_zero more⟩
        rw [List.length_append] at length
        omega
      · rw [show step + 1 = workers by omega]
    split <;> exact done

theorem Alone.goto {pc : Pc φ} (unlocked : ∀ w < workers, s.locks w = none)
    (stage : Stage workers s₀ worker slots s pc) :
    Alone workers s₀ t worker slots (s.goto t pc) := by
  refine ⟨unlocked, ?_⟩
  simp only [State.goto, Function.update_self]
  cases pc <;> exact stage

theorem Alone.step (alone : Alone workers s₀ t worker slots s) (inRange : worker < workers)
    (positive : 0 < slots) (fits : slots < 2 ^ 64) {spurious : Bool}
    (stepped : stepThread workers s t spurious = some s') :
    Alone workers s₀ t worker slots s' := by
  have stage := alone.stage
  have free := alone.unlocked
  unfold stepThread at stepped
  split at stepped
  next => cases stepped
  next w at_ =>
    rw [at_] at stage
    obtain ⟨rfl, budget, queues, none_⟩ := stage
    cases stepped
    rw [if_neg (Nat.ne_zero_of_lt inRange)]
    exact Alone.goto free ⟨rfl, budget, budget, queues, none_⟩
  next w read at_ =>
    rw [at_] at stage
    obtain ⟨rfl, budget, rfl, queues, none_⟩ := stage
    rw [if_neg (Nat.ne_of_gt positive)] at stepped
    split at stepped <;> cases stepped
    · refine Alone.goto free ⟨rfl, none_, Nat.zero_lt_of_lt inRange, ?_, rfl, fun i _ _ => ?_⟩
      · simp [State.upTo]
      · exact congrFun queues _
    · exact Alone.goto free ⟨rfl, budget, budget, queues, none_⟩
  next w step remaining out at_ =>
    rw [at_] at stage
    obtain rfl : w = worker := stage.1
    have open_ := free _ (Nat.mod_lt (w + step) (Nat.zero_lt_of_lt inRange))
    simp only [drainQueue, open_, if_true] at stepped
    cases stepped
    exact Alone.goto free (stage_drain stage)
  next remaining out at_ =>
    rw [at_] at stage
    cases stepped
    exact Alone.goto free stage
  iterate 4 next at_ => rw [at_] at stage; exact stage.elim
  next w k at_ =>
    rw [at_] at stage
    obtain ⟨rfl, rfl, budget, queues⟩ := stage
    have same : s.queues w = s₀.queues w := congrFun queues w
    simp only [popOwnQueue, free w inRange, if_true] at stepped
    cases stepped
    by_cases some_ : s₀.queues w = []
    · have nothing := (front_eq_nil positive).mpr (same.trans some_)
      rw [nothing, if_pos rfl]
      refine Alone.goto free ⟨rfl, rfl, budget, ?_, some_⟩
      simp only [State.popped, State.setQueue, same, some_, List.drop_nil]
      rw [← queues, Function.update_eq_self_iff, same, some_]
    · have something : s.front w k ≠ [] := fun nothing =>
        some_ (same.symm.trans ((front_eq_nil positive).mp nothing))
      rw [if_neg something]
      refine Alone.goto free ?_
      show (s.front w k).length = _
      rw [length_front, same, wakes, if_neg some_]
  next w k at_ =>
    rw [at_] at stage
    obtain ⟨rfl, rfl, budget, queues, none_⟩ := stage
    cases stepped
    refine Alone.goto free ⟨rfl, ?_, queues, none_⟩
    simp only [budget, Nat.zero_add]
    exact Nat.mod_eq_of_lt fits
  next at_ =>
    cases stepped
    exact Alone.goto free trivial

/-- The steps a call has before it at most, when no compare-and-swap fails. -/
def Pc.stepsLeft (workers : Nat) : Pc φ → Nat
  | .own _ _ => workers + 6
  | .addSlots _ _ => workers + 5
  | .load _ => workers + 4
  | .cas _ _ => workers + 3
  | .drain _ step _ _ => workers - step + 2
  | .refund _ _ => 2
  | .wake _ => 1
  | _ => 0

theorem Alone.progress (alone : Alone workers s₀ t worker slots s) (inRange : worker < workers)
    (left : 1 < (s.pcs t).stepsLeft workers) :
    ∃ s', stepThread workers s t false = some s' ∧ 1 ≤ (s'.pcs t).stepsLeft workers ∧
      (s'.pcs t).stepsLeft workers < (s.pcs t).stepsLeft workers := by
  have stage := alone.stage
  have free := alone.unlocked
  have there : ∀ (u : State threads φ) pc, (u.goto t pc).pcs t = pc := fun u pc => by
    simp [State.goto]
  cases at_ : s.pcs t <;> rw [at_] at left stage
  case load w =>
    refine ⟨_, by simp only [stepThread, at_]; rfl, ?_⟩
    rw [there, if_neg (Nat.ne_zero_of_lt inRange)]
    simp only [Pc.stepsLeft]
    omega
  case cas w read =>
    obtain ⟨-, budget, same, -⟩ := stage
    simp only [stepThread, at_]
    split
    · refine ⟨_, rfl, ?_⟩
      rw [there]
      simp only [Pc.stepsLeft]
      omega
    · rw [if_pos ⟨budget.trans same.symm, trivial⟩]
      refine ⟨_, rfl, ?_⟩
      rw [there]
      simp only [Pc.stepsLeft]
      omega
  case drain w step remaining out =>
    obtain ⟨-, -, inside, -⟩ := stage
    have open_ := free _ (Nat.mod_lt (w + step) (Nat.zero_lt_of_lt inRange))
    simp only [stepThread, at_, drainQueue, open_, if_true]
    refine ⟨_, rfl, ?_⟩
    rw [there]
    unfold afterDrain
    split
    · simp only [Pc.stepsLeft]
      omega
    · split <;> simp only [Pc.stepsLeft] <;> omega
  case refund remaining out =>
    refine ⟨_, by simp only [stepThread, at_]; rfl, ?_⟩
    rw [there]
    simp only [Pc.stepsLeft]
    omega
  case own w k =>
    obtain ⟨rfl, -⟩ := stage
    simp only [stepThread, at_, popOwnQueue, free w inRange, if_true]
    refine ⟨_, rfl, ?_⟩
    rw [there]
    split <;> simp only [Pc.stepsLeft] <;> omega
  case addSlots w k =>
    refine ⟨_, by simp only [stepThread, at_]; rfl, ?_⟩
    rw [there]
    simp only [Pc.stepsLeft]
    omega
  all_goals
    simp only [Pc.stepsLeft] at left
    omega

theorem Alone.finishes (alone : Alone workers s₀ t worker slots s) (inRange : worker < workers)
    (positive : 0 < slots) (fits : slots < 2 ^ 64) (running : 1 ≤ (s.pcs t).stepsLeft workers) :
    ∃ (spurs : List Bool) (s' : State threads φ) (out : List (Waiter φ)),
      (system workers threads φ).Path System.anyStep s (spurs.map (Act.step t)) s' ∧
      s'.pcs t = .wake out := by
  induction left : (s.pcs t).stepsLeft workers using Nat.strong_induction_on generalizing s with
  | _ left_ ih =>
    subst left
    by_cases more : 1 < (s.pcs t).stepsLeft workers
    · obtain ⟨u, stepped, goes, less⟩ := alone.progress inRange more
      have there := alone.step inRange positive fits stepped
      obtain ⟨spurs, s', out, path, wakes⟩ := ih _ less there goes rfl
      exact ⟨false :: spurs, s', out, .cons stepped trivial path, wakes⟩
    · have last : (s.pcs t).stepsLeft workers = 1 := by omega
      cases at_ : s.pcs t <;> rw [at_] at last <;> simp only [Pc.stepsLeft] at last
      case wake out => exact ⟨[], s, out, .nil _, at_⟩
      all_goals omega

theorem Alone.path (alone : Alone workers s₀ t worker slots s) (inRange : worker < workers)
    (positive : 0 < slots) (fits : slots < 2 ^ 64) {spurs : List Bool}
    (path : (system workers threads φ).Path System.anyStep s (spurs.map (Act.step t)) s') :
    Alone workers s₀ t worker slots s' := by
  induction spurs generalizing s with
  | nil =>
    cases path
    exact alone
  | cons spurious spurs ih =>
    cases path with
    | cons stepped _ rest => exact ih (alone.step inRange positive fits stepped) rest

/-- A batch makes room for one fiber. -/
theorem wakeSlots_eq_one {n frames : Nat} {cfg : Config n} (batch : frames ≤ max 1 cfg.evictBatch) :
    wakeSlots frames cfg.refillTarget = 1 := by
  have least : frames / cfg.refillTarget ≤ 1 := by
    refine Nat.div_le_of_le_mul ?_
    unfold Config.refillTarget
    omega
  unfold wakeSlots
  omega

/-- With room for one fiber it makes no difference whose queue it comes from. -/
theorem wakes_one (inRange : worker < workers) :
    wakes workers s worker 1 = min 1 (s.waiting workers) := by
  unfold wakes
  split
  · rfl
  next some_ =>
    have own : (s.queues worker).length ≤ s.waiting workers :=
      Finset.single_le_sum (f := fun w => (s.queues w).length) (fun _ _ => Nat.zero_le _)
        (Finset.mem_range.mpr inRange)
    have positive := List.length_pos_iff.mpr some_
    omega

theorem call_alone {frames refillTarget : Nat} (inRange : worker < workers)
    (released : 1 ≤ frames) (empty : s.budget = 0) (unlocked : ∀ w < workers, s.locks w = none)
    (called : exec workers s (.call t (.releaseFreed worker frames refillTarget)) = some s') :
    Alone workers s t worker (wakeSlots frames refillTarget) s' ∧
      s'.pcs t = .own worker (wakeSlots frames refillTarget) := by
  simp only [exec, Call.start, if_pos (And.intro inRange released)] at called
  split at called <;> cases called
  exact ⟨Alone.goto unlocked ⟨rfl, rfl, empty, rfl⟩, by simp [State.goto]⟩

/-- **How many fibers a release wakes.** With no budget left over and no one else at the queues,
the `releaseFreed` of a running `evict` wakes as many of all queued fibers as the released frames
allow. -/
theorem releaseFreed_wakes {n : Nat} (cfg : Config n) {labels : List (BufferMgr.Act n × Out)}
    {a : Audited n} {f : Fin n} {ev : Eviction} {phase : Phase}
    (reached : (Audited.system cfg).Reaches System.anyStep labels a)
    (releases : (a.state.fibers f).pc = .evRelease ev phase 0) (released : 1 ≤ ev.freed.length)
    (idle : s.pcs t = .idle) (empty : s.budget = 0)
    (unlocked : ∀ w < cfg.workers, s.locks w = none) :
    (∀ (spurs : List Bool) s' out, (system cfg.workers threads φ).Path System.anyStep s
        (.call t (.releaseFreed (cfg.wid f) ev.freed.length cfg.refillTarget) ::
          spurs.map (Act.step t)) s' →
      s'.pcs t = .wake out →
      out.length = min (max 1 (ev.freed.length / cfg.refillTarget)) (s.waiting cfg.workers)) ∧
    ∃ (spurs : List Bool) (s' : State threads φ) (out : List (Waiter φ)),
      (system cfg.workers threads φ).Path System.anyStep s
        (.call t (.releaseFreed (cfg.wid f) ev.freed.length cfg.refillTarget) ::
          spurs.map (Act.step t)) s' ∧
      s'.pcs t = .wake out := by
  have inRange := cfg.wid_lt f
  have one := wakeSlots_eq_one (Audited.freed_le reached releases)
  have fits : 1 < 2 ^ 64 := by decide
  constructor
  · intro spurs s' out path wakes
    cases path with
    | cons called _ rest =>
      have alone := (call_alone inRange released empty unlocked called).1
      rw [one] at alone
      have stage := (alone.path inRange Nat.one_pos fits rest).stage
      rw [wakes] at stage
      change out.length = min (wakeSlots _ _) _
      rw [one, ← wakes_one inRange]
      exact stage
  · have called : exec cfg.workers s
        (.call t (.releaseFreed (cfg.wid f) ev.freed.length cfg.refillTarget)) =
        some (s.goto t (.own (cfg.wid f) (wakeSlots ev.freed.length cfg.refillTarget))) := by
      simp [exec, idle, Pc.isIdle, Call.start, inRange, released]
    obtain ⟨alone, at_⟩ := call_alone inRange released empty unlocked called
    rw [one] at alone at_ called
    obtain ⟨spurs, s', out, path, wakes⟩ := alone.finishes inRange Nat.one_pos fits (by
      rw [at_]
      simp [Pc.stepsLeft])
    exact ⟨spurs, s', out, .cons called trivial path, wakes⟩

/-- A fiber of each of two workers waits. -/
def parkedApart : List (Act 1 Nat) :=
  [.call 0 (.waitForFreeBid 0 7), .step 0 false, .step 0 false, .step 0 false,
    .call 0 (.waitForFreeBid 1 8), .step 0 false, .step 0 false, .step 0 false]

def releasesOne : BufferMgr.Pc → Bool
  | .evRelease ev _ 0 => ev.freed.length == 1
  | _ => false

/-- The second worker has evicted one page, and one of the fibers is woken. -/
theorem releaseFreed_wakes_apart :
    ∃ labels a ev phase, (Audited.system twoWorkers).Reaches System.anyStep labels a ∧
      (a.state.fibers 1).pc = .evRelease ev phase 0 ∧ ev.freed.length = 1 ∧
    ∃ (s : State 1 Nat) (spurs : List Bool) (s' : State 1 Nat) (out : List (Waiter Nat)),
      (system 2 1 Nat).Reaches System.anyStep parkedApart s ∧ s.waiting 2 = 2 ∧
      (system 2 1 Nat).Path System.anyStep s
        (.call 0 (.releaseFreed 1 1 8) :: spurs.map (Act.step 0)) s' ∧
      s'.pcs 0 = .wake out ∧ out.length = 1 := by
  have evicted : (drive (Audited.exec twoWorkers) (fun _ _ => true) (Audited.initial twoWorkers)
      (List.flatten [allocated, unmarks, [.call 1 .evict], steps 1 18, [.step 1 0], steps 1 13])).any
      (fun r => releasesOne (r.1.state.fibers 1).pc) = true := by
    decide +kernel
  obtain ⟨a, labels, reached, releasing⟩ :=
    drive_anyStep (Audited.system twoWorkers) rfl rfl evicted
  obtain ⟨ev, phase, at_, single⟩ : ∃ ev phase, (a.state.fibers 1).pc = .evRelease ev phase 0 ∧
      ev.freed.length = 1 := by
    unfold releasesOne at releasing
    split at releasing
    next ev phase at_ => exact ⟨ev, phase, at_, beq_iff_eq.mp releasing⟩
    next => cases releasing
  have passed : (perform (exec 2) (initial 1 Nat) parkedApart).any (fun (s : State 1 Nat) =>
      decide (s.waiting 2 = 2 ∧ s.budget = 0 ∧ s.pcs 0 = .idle ∧
        ∀ w : Nat, w < 2 → s.locks w = none)) = true := by
    decide +kernel
  obtain ⟨s, performed, tested⟩ := (Option.any_eq_true _ _).mp passed
  obtain ⟨two, empty, idle, unlocked⟩ := of_decide_eq_true tested
  have release := releaseFreed_wakes twoWorkers reached at_ (Nat.le_of_eq single.symm) idle empty
    unlocked
  rw [single] at release
  obtain ⟨spurs, s', out, path, wakes⟩ := release.2
  refine ⟨labels, a, ev, phase, reached, at_, single, s, spurs, s', out, ⟨_, ⟨0, rfl⟩,
    perform_path (fun _ _ _ stepped => ⟨stepped, trivial⟩) performed⟩, two, path, wakes, ?_⟩
  rw [release.1 spurs s' out path wakes, show s.waiting twoWorkers.workers = 2 from two]
  decide

end UringDb.BufferMgr.WakeBudget
