import UringDb.BufferMgr.Change

/-!
# Locks and validations are on the current mapping

What `fixS` and `fixX` return is mapped to the page, and a validation that succeeds means
that no exclusive section on the page ended since the version was captured. Both rest on
the evictor: `evictNow` erases the entry and clears the EvictingBit again without touching
the frame's version or page id, so a lookup made before the erase, or a guard captured
before it, still fits the frame while it is already free.
-/
namespace UringDb.BufferMgr

open PageState PageTable

variable {n : Nat}

section

variable (cfg : Config n) (s : State n)

def InFreeList (b : Nat) : Prop :=
  (∃ k < cfg.poolCount, b ∈ s.shared.pools k) ∨
    ∃ w < cfg.workers, b ∈ (s.shared.locals w).free

/-- No evictor is between the erase of an entry of frame `b` and its `postcommit`. -/
def NotRetiring (b : Nat) : Prop := ∀ u, (s.fibers u).pc.committed.all (fun e => e.2 != b) = true

/-- The last load of `validateO` is not made while the frame is being retired. -/
def LoadsSettled : Pc → Prop
  | .valLoad g => NotRetiring s g.bid
  | _ => True

/-- What is asked of a step: `Sound`, and validations load settled frames. -/
def Settled : Act n → Prop
  | .step f choice => Sound cfg s (.step f choice) ∧ LoadsSettled s (s.fibers f).pc
  | _ => True

instance (pc : Pc) : Decidable (LoadsSettled s pc) := by
  apply @Pc.casesOn (fun pc => Decidable (LoadsSettled s pc)) pc
  case valLoad => exact fun _ => inferInstanceAs (Decidable (∀ u, _ = true))
  all_goals
    intros
    exact inferInstanceAs (Decidable True)

instance (act : Act n) : Decidable (Settled cfg s act) :=
  match act with
  | .step f choice => inferInstanceAs (Decidable (Sound cfg s (.step f choice) ∧ _))
  | .call _ _ => isTrue trivial
  | .initWorker _ => isTrue trivial
  | .shutdownWorker _ => isTrue trivial

/-- What must hold after a step that shows `out`. -/
structure Current (out : Out) : Prop where
  mapped : ∀ lock, out = .fixed lock →
    Mapped cfg s lock.pid lock.bid ∧ ¬ InFreeList cfg s lock.bid
  unchanged : ∀ g, out = .validated g true → s.shared.sections g.pid = g.stamp

end

variable {cfg : Config n} {s s' : State n}

theorem Settled.sound {act : Act n} (settled : Settled cfg s act) : Sound cfg s act := by
  cases act with
  | step f choice => exact settled.1
  | _ => trivial

theorem Inv.mapped_not_free (inv : Inv cfg s) {p b : Nat} (mapped : Mapped cfg s p b) :
    ¬ InFreeList cfg s b := by
  intro listed
  have once := inv.once b
  have slot := slotsOf_pos mapped
  have none : freeCount cfg s.shared b = 0 := by
    unfold places at once
    omega
  rw [freeCount, Nat.add_eq_zero_iff, Finset.sum_eq_zero_iff, Finset.sum_eq_zero_iff] at none
  rcases listed with ⟨k, inRange, member⟩ | ⟨w, inRange, member⟩
  · exact List.count_eq_zero.mp (none.1 k (Finset.mem_range.mpr inRange)) member
  · exact List.count_eq_zero.mp (none.2 w (Finset.mem_range.mpr inRange)) member

/-- What a current version says when its frame is not being retired. -/
theorem Inv.guard_current (inv : Inv cfg s) {f : Fin n} {g : Guard}
    (at_ : (s.fibers f).pc = .valLoad g) (current : g.word.version = version s g.bid)
    (settled : NotRetiring s g.bid) : s.shared.sections g.pid = g.stamp := by
  have member := inv.handed_at at_ g rfl
  rcases (((inv.fibers f).guards g member).2 current).2 with mapped | ⟨u, at_u⟩
  · exact mapped.2
  · have clear := settled u
    simp [at_u] at clear

theorem current_exec {act : Act n} {out : Out} (inv : Inv cfg s) (settled : Settled cfg s act)
    (execs : exec cfg s act = some (s', out)) : Current cfg s' out := by
  have sound := settled.sound
  have inv' := inv_exec inv sound execs
  have undisturbed : ∀ f choice, act = .step f choice →
      Undisturbed cfg.table s.shared.table (.step f false) := by
    rintro f choice rfl
    exact sound.1 false
  rcases exec_change inv undisturbed execs with
    ⟨f, r, acts, rfl, rfl, ⟨-, change⟩ | ⟨ev, ph, b, p, rest, i, commits⟩⟩ | ⟨-, -, -, rfl⟩
  · -- only two kinds of change show a lock or a validation
    have silent : r.out = .silent ∨ (∃ g, r.out = .captured g) ∨ r.out = .evictIdle ∨
        (∃ ev, r.out = .evictDone ev) → Current cfg (s.after f r.shared r.fiber) r.out := by
      rintro (out | ⟨g, out⟩ | out | ⟨ev, out⟩) <;> rw [out] <;> exact ⟨(fun _ member => by cases member), (fun _ member => by cases member)⟩
    cases change with
    | fixed fx b at_ shared next out =>
      have locked : Mapped cfg s fx.pid b := inv.locks_at at_ (fx.lock b) (by simp [Pc.locks])
      have mapped : Mapped cfg (s.after f r.shared r.fiber) fx.pid b := by
        rw [shared]
        exact locked
      rw [out]
      refine ⟨fun lock same => ?_, (fun _ member => by cases member)⟩
      cases same
      exact ⟨mapped, inv'.mapped_not_free mapped⟩
    | validated g ok shared next client out check =>
      rw [out]
      refine ⟨(fun _ member => by cases member), fun g' same => ?_⟩
      cases same
      obtain ⟨at_, current⟩ := check rfl
      rw [after_shared, shared]
      refine inv.guard_current at_ current ?_
      cases act with
      | step u choice =>
        cases acts
        have settled := settled.2
        rw [at_] at settled
        exact settled
      | call u op =>
        cases acts
        -- a call is made by an idle fiber
        simp only [exec] at execs
        split at execs
        next allowed =>
          rw [at_] at allowed
          cases allowed.1
        next => cases execs
      | initWorker w => cases acts
      | shutdownWorker w => cases acts
    | quiet frames job ready out =>
      rcases out with out | out | out
      · exact silent (Or.inl out)
      · exact silent (Or.inr (Or.inl out))
      · exact silent (Or.inr (Or.inr (Or.inl out)))
    | done ev at_ frames next out => exact silent (Or.inr (Or.inr (Or.inr ⟨ev, out⟩)))
    | _ => exact silent (Or.inl ‹r.out = .silent›)
  · rw [commits.out]
    exact ⟨(fun _ member => by cases member), (fun _ member => by cases member)⟩
  · exact ⟨(fun _ member => by cases member), (fun _ member => by cases member)⟩

/-- In every run of steps that meet `ok`, what each step shows is current. -/
def AlwaysCurrent (cfg : Config n) (ok : State n → Act n × Out → Prop) : Prop :=
  ∀ (before : List (Act n × Out)) (s s' : State n) (label : Act n × Out),
    (system cfg).Reaches ok before s → (system cfg).step s label s' → ok s label →
    Current cfg s' label.2

/-- **Locks and validations succeed on the current mapping only.** -/
theorem fix_validate_current (cfg : Config n) :
    AlwaysCurrent cfg (fun s label => Settled cfg s label.1) := by
  intro before s s' label reached step settled
  have sound : (system cfg).Reaches (fun s label => Sound cfg s label.1) before s := by
    obtain ⟨s₀, start, path⟩ := reached
    exact ⟨s₀, start, path.weaken fun _ _ => Settled.sound⟩
  exact current_exec (inv_reaches sound) settled step

/-- Three frames and two workers: fiber 0 is a client, fiber 1 the eviction fiber of the
other worker. -/
def twoWorkers : Config 2 where
  pageCount := 3
  target := 3
  evictBatch := 1
  table := .ofBits 1
  poolBits := 0
  partitionBits := 1
  workers := 2
  wid := fun f => f.val
  wid_lt := fun f => f.isLt
  evictor := fun f => f == 1

def steps (f : Fin n) (count : Nat) : List (Act n) := List.replicate count (.step f 1)

/-- Page 1 is allocated in frame 1, left by its client and evicted: the first `evict` takes
the mark away, the second one writes the page and frees the frame. -/
def allocated : List (Act 2) :=
  List.flatten [[.initWorker 0, .initWorker 1, .call 0 .allocPage], steps 0 14,
    [.call 0 (.unfix ⟨.exclusive, 1, 1⟩)], steps 0 4]

def unmarks : List (Act 2) := .call 1 .evict :: steps 1 17

def evicts : List (Act 2) := List.flatten [[.call 1 .evict], steps 1 18, [.step 1 0], steps 1 16]

/-- A client that faults the evicted page in again gets it in frame 2, and validates a
version captured there. -/
theorem fix_validate_current_refault :
    (∃ before s s', (system twoWorkers).Reaches (fun s label => Settled twoWorkers s label.1) before s ∧
      (system twoWorkers).step s (.step 0 1, .fixed ⟨.shared, 1, 2⟩) s' ∧
      Mapped twoWorkers s' 1 2 ∧ ¬ InFreeList twoWorkers s' 2) ∧
    ∃ before s s' g, (system twoWorkers).Reaches (fun s label => Settled twoWorkers s label.1) before s ∧
      (system twoWorkers).step s (.step 0 1, .validated g true) s' ∧
      s'.shared.sections 1 = g.stamp := by
  have run : ∀ (acts : List (Act 2)) (out : Out),
      (drive (exec twoWorkers) (fun s a => decide (Settled twoWorkers s a)) (initial twoWorkers)
        acts).any (fun r => decide (Settled twoWorkers r.1 (.step 0 1)) &&
          (exec twoWorkers r.1 (.step 0 1)).any fun t => t.2 = out) = true →
      ∃ before s s', (system twoWorkers).Reaches (fun s label => Settled twoWorkers s label.1) before s ∧
        Settled twoWorkers s (.step 0 1) ∧ (system twoWorkers).step s (.step 0 1, out) s' := by
    intro acts out passed
    obtain ⟨s, before, reached, last⟩ := drive_meets (system twoWorkers) rfl rfl passed
    simp only [Bool.and_eq_true, decide_eq_true_eq, Option.any_eq_true] at last
    obtain ⟨settled, ⟨s', out'⟩, stepped, rfl⟩ := last
    exact ⟨before, s, s', reached, settled,
      stepped⟩
  constructor
  · obtain ⟨before, s, s', reached, settled, step⟩ :=
      run (List.flatten [allocated, unmarks, evicts, [.call 0 (.fixS 1)], steps 0 31])
        (.fixed ⟨.shared, 1, 2⟩) (by decide +kernel)
    exact ⟨before, s, s', reached, step,
      (fix_validate_current twoWorkers before s s' _ reached step settled).mapped _ rfl⟩
  · let g : Guard := ⟨1, 2, ⟨marked, 2, false, false, false⟩, 1⟩
    obtain ⟨before, s, s', reached, settled, step⟩ :=
      run (List.flatten [allocated, unmarks, evicts, [.call 0 (.fixS 1)], steps 0 32,
        [.call 0 (.unfix ⟨.shared, 1, 2⟩)], steps 0 3, [.call 0 (.fixO 1)], steps 0 9,
        [.call 0 (.validateO g)], steps 0 3]) (.validated g true) (by decide +kernel)
    exact ⟨before, s, s', g, reached, step,
      (fix_validate_current twoWorkers before s s' _ reached step settled).unchanged g rfl⟩

/-- Unrestricted runs. `fixS` that looked the page up before the eviction locks and returns the
frame when it is free already. And a version captured before the eviction still validates after
the page was faulted into another frame and an exclusive section ended there. -/
theorem fix_validate_stale :
    (∃ before s s', (system twoWorkers).Reaches System.anyStep before s ∧
      (system twoWorkers).step s (.step 0 1, .fixed ⟨.shared, 1, 1⟩) s' ∧
      ¬ Current twoWorkers s' (.fixed ⟨.shared, 1, 1⟩)) ∧
    ∃ before s s' g, (system twoWorkers).Reaches System.anyStep before s ∧
      (system twoWorkers).step s (.step 0 1, .validated g true) s' ∧
      ¬ Current twoWorkers s' (.validated g true) := by
  have run : ∀ (acts : List (Act 2)) (test : State 2 × Out → Bool),
      (drive (exec twoWorkers) (fun _ _ => true) (initial twoWorkers) acts).any (fun r =>
        (exec twoWorkers r.1 (.step 0 1)).any test) = true →
      ∃ before s t, (system twoWorkers).Reaches System.anyStep before s ∧
        (system twoWorkers).step s (.step 0 1, t.2) t.1 ∧ test t = true := by
    intro acts test passed
    obtain ⟨s, before, reached, last⟩ := drive_anyStep (system twoWorkers) rfl rfl passed
    obtain ⟨t, stepped, passes⟩ := (Option.any_eq_true _ _).mp last
    exact ⟨before, s, t, reached, stepped, passes⟩
  constructor
  · obtain ⟨before, s, ⟨s', out⟩, reached, step, listed⟩ :=
      run (List.flatten [allocated, unmarks, [.call 0 (.fixS 1)], steps 0 4, evicts, steps 0 6])
        (fun t => decide (t.2 = .fixed ⟨.shared, 1, 1⟩ ∧ 1 ∈ t.1.shared.pools 0)) (by decide +kernel)
    obtain ⟨rfl, member⟩ := of_decide_eq_true listed
    exact ⟨before, s, s', reached, step, fun current =>
      (current.mapped _ rfl).2 (Or.inl ⟨0, by decide, member⟩)⟩
  · let g : Guard := ⟨1, 1, ⟨marked, 2, false, false, true⟩, 1⟩
    obtain ⟨before, s, ⟨s', out⟩, reached, step, ended⟩ :=
      run (List.flatten [allocated, [.call 0 (.fixO 1)], steps 0 9, unmarks, evicts,
          [.call 0 (.fixX 1 .wait)], steps 0 32, [.call 0 (.unfix ⟨.exclusive, 1, 2⟩)], steps 0 4,
          [.call 0 (.validateO g)], steps 0 3])
        (fun t => decide (t.2 = .validated g true ∧ t.1.shared.sections 1 = 2)) (by decide +kernel)
    obtain ⟨rfl, sections⟩ := of_decide_eq_true ended
    refine ⟨before, s, s', g, reached, step, fun current => ?_⟩
    have stamp := current.unchanged g rfl
    rw [show s'.shared.sections g.pid = 2 from sections] at stamp
    exact absurd stamp (by decide)

end UringDb.BufferMgr
