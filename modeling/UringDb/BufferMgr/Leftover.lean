import UringDb.BufferMgr.Claims
import UringDb.BufferMgr.Current

/-!
# The EvictingBit does not outlive its eviction

A candidate that stays mapped, protected, unlocked and clean is found by the `erase_if` of
its evictor, passes the precheck and is erased: none of the early exits of `evictNow` is
taken, so every frame selected by an `evict()` is in a free pool when it returns.

The sweep callback sets the bit in a later step than it checks the lock mode. A client that
locks the frame in between makes the precheck fail, and the early exit leaves the bit set.
-/
namespace UringDb.BufferMgr

open PageState PageTable

variable {n : Nat}

/-! ### The running `erase_if` -/

/-- What a running `erase_if(p)` for frame `b` has found, or will find. -/
def Finds (tb : Table) (slots : Nat → Nat) (p b : Nat) : PageTable.Pc → Prop
  | .eraseIf _ d => ∃ e < tb.slotCount, d ≤ e ∧ Entry slots (tb.probe p e) p b
  | .precheck _ i raw => Entry slots i p b ∧ slots i = raw
  | .eraseIfCas _ i raw => Entry slots i p b ∧ slots i = raw
  | _ => True

def Pc.refuses : Pc → Bool
  | .preAnswer _ _ _ _ _ answer => !answer
  | _ => false

structure OnTrack (cfg : Config n) (s : State n) (u : Fin n) (p b : Nat) : Prop where
  mapped : Mapped cfg s p b
  finds : Finds cfg.table s.shared.table.slots p b (s.shared.table.pcs u)
  accepts : (s.fibers u).pc.refuses = false

/-- Every frame selected is still to be erased or on its way to a free pool. -/
def Job.Accounts (job : Job) : Prop :=
  ∀ b ∈ job.selected, b ∈ job.chosen ∨ b ∈ job.retiring ∨ b ∈ job.freed ∨ b ∈ job.released

structure Finishing (cfg : Config n) (s : State n) : Prop where
  track : ∀ u p b, (jobOf cfg s u).target = some (p, b) → OnTrack cfg s u p b
  accounts : ∀ u, (jobOf cfg s u).Accounts

variable {cfg : Config n} {s : State n} {f : Fin n} {r : Result n}

theorem Finds.stable {tb : Table} {slots slots' : Nat → Nat} {p b : Nat} {pc : PageTable.Pc}
    (finds : Finds tb slots p b pc)
    (same : ∀ i, Entry slots i p b → slots' i = slots i) : Finds tb slots' p b pc := by
  have entry : ∀ {i}, Entry slots i p b → Entry slots' i p b := fun {i} old => by
    unfold Entry Holds at *
    rwa [same i old]
  cases pc with
  | eraseIf q d =>
    obtain ⟨e, inRange, le, found⟩ := finds
    exact ⟨e, inRange, le, entry found⟩
  | precheck q i raw | eraseIfCas q i raw =>
    obtain ⟨found, here⟩ := finds
    exact ⟨entry found, (same i found).trans here⟩
  | _ => trivial

theorem finds_canCall {tb : Table} {slots : Nat → Nat} {p b : Nat} {pc : PageTable.Pc}
    (idle : pc.canCall = true) : Finds tb slots p b pc := by
  cases pc <;> trivial

theorem OnTrack.after {u : Fin n} {p b : Nat} (track : OnTrack cfg s u p b) (ne : u ≠ f)
    (same : ∀ i, Entry s.shared.table.slots i p b → r.shared.table.slots i = s.shared.table.slots i)
    (others : r.shared.table.pcs u = s.shared.table.pcs u) :
    OnTrack cfg (s.after f r.shared r.fiber) u p b where
  mapped := by
    obtain ⟨i, inRange, entry⟩ := track.mapped
    refine ⟨i, inRange, ?_⟩
    have slot := same i entry
    unfold Entry Holds at *
    rwa [after_shared, slot]
  finds := by
    rw [after_shared, others]
    exact track.finds.stable same
  accepts := by
    rw [after_ne _ _ _ _ ne]
    exact track.accepts

theorem target_chosen {pc : Pc} {p b : Nat} (target : (pc.job cfg).target = some (p, b)) :
    b ∈ (pc.job cfg).chosen := by
  cases pc <;> cases target <;> exact List.mem_cons_self

/-- The probe loop cannot miss an entry that stays where it is. -/
theorem Finds.probe {tb : Table} {slots : Nat → Nat} {p b d : Nat} {answer : Bool}
    {next : PageTable.Result} (reach : Reach tb slots) (unique : Unique tb slots)
    (finds : Finds tb slots p b (.eraseIf p d))
    (stepped : tb.step slots answer (.eraseIf p d) = some next) :
    next.slots = slots ∧ next.out = .silent ∧ Finds tb slots p b next.pc ∧
      ((∃ d', next.pc = .eraseIf p d') ∨ ∃ i raw, next.pc = .precheck p i raw ∧ Slot.bid raw = b) := by
  obtain ⟨e, inRange, le, entry⟩ := finds
  obtain ⟨same, ⟨out, ⟨-, pc, notHere⟩ | ⟨pc, holds⟩⟩ | ⟨-, -, ends, notHere⟩⟩ := eraseIf_step stepped
  · refine ⟨same, out, ?_, Or.inl ⟨_, pc⟩⟩
    rw [pc]
    refine ⟨e, inRange, ?_, entry⟩
    rcases Nat.lt_or_eq_of_le le with lt | rfl
    · exact lt
    · exact absurd entry.1 notHere
  · -- the page has one entry only
    obtain rfl := unique p d e (le.trans_lt inRange) inRange holds entry.1
    refine ⟨same, out, ?_, Or.inr ⟨_, _, pc, entry.2⟩⟩
    rw [pc]
    exact ⟨entry, rfl⟩
  · exfalso
    rcases Nat.lt_or_eq_of_le le with lt | rfl
    · rcases ends with empty | last
      · exact reach p e inRange entry.1 d lt empty
      · omega
    · exact notHere entry.1

/-- A step of the fiber that runs `erase_if` keeps on, or commits. -/
def Proceeds (cfg : Config n) (s : State n) (f : Fin n) (r : Result n) (p b : Nat) : Prop :=
  (r.fiber.pc.job cfg = jobOf cfg s f ∧ OnTrack cfg (s.after f r.shared r.fiber) f p b) ∨
    r.out = .erased p b

theorem OnTrack.goesOn {p b : Nat} {sh : Shared n} {pc' : Pc} (track : OnTrack cfg s f p b)
    (slots : sh.table.slots = s.shared.table.slots)
    (finds : Finds cfg.table s.shared.table.slots p b (sh.table.pcs f))
    (job : pc'.job cfg = jobOf cfg s f) (accepts : pc'.refuses = false) :
    Proceeds cfg s f ⟨sh, { s.fibers f with pc := pc' }, .silent⟩ p b := by
  refine Or.inl ⟨job, ?_, ?_, by rw [after_self]; exact accepts⟩
  · simp only [Mapped, after_shared, slots]
    exact track.mapped
  · rw [after_shared, slots]
    exact finds

theorem OnTrack.step_preAnswer {ev : Eviction} {ph : Phase} {p b : Nat} {rest : List Nat}
    {answer : Bool} (inv : Inv cfg s) (track : OnTrack cfg s f p b)
    (at_ : (s.fibers f).pc = .preAnswer ev ph b p rest answer)
    (stepped : preAnswer cfg s.shared f (s.fibers f) ev ph b p rest answer = some r) :
    Proceeds cfg s f r p b := by
  obtain ⟨i, raw, waiting, -⟩ := inv.agree_at at_
  have finds := track.finds
  have accepts := track.accepts
  rw [at_] at accepts
  obtain ⟨sh, out, tried, slots, goes⟩ := preAnswer_moves waiting stepped
  rcases goes with ⟨rfl, cas, rfl⟩ | ⟨rfl, -⟩
  · refine track.goesOn slots ?_ (by rw [jobOf, at_]; rfl) rfl
    rw [waiting] at finds
    rw [cas]
    exact finds
  · cases accepts

theorem OnTrack.step_evErase {ev : Eviction} {ph : Phase} {p b : Nat} {rest : List Nat}
    (inv : Inv cfg s) (track : OnTrack cfg s f p b)
    (at_ : (s.fibers f).pc = .evErase ev ph b p rest)
    (stepped : evErase cfg s.shared f (s.fibers f) ev ph b p rest = some r) :
    Proceeds cfg s f r p b := by
  have finds := track.finds
  have running : (s.shared.table.pcs f).canCall = true ∨
      (∃ d, s.shared.table.pcs f = .eraseIf p d) ∨
      ∃ i raw, s.shared.table.pcs f = .eraseIfCas p i raw ∧ Slot.bid raw = b := inv.agree_at at_
  have stays : (s.fibers f).pc.refuses = false := track.accepts
  unfold evErase at stepped
  cases tried : tableStep cfg s.shared f (.eraseIf p) false with
  | none => simp [tried] at stepped
  | some next =>
    obtain ⟨sh, out⟩ := next
    simp only [tried] at stepped
    rcases tableStep_cases tried with ⟨-, rfl, start, begins, rfl⟩ | ⟨busy, step, steps, rfl, moved⟩
    · have here : (s.shared.table.setPc f start).pcs f = .eraseIf p 0 := by
        cases begins
        simp [PageTable.State.setPc]
      simp only [here] at stepped
      cases stepped
      refine track.goesOn rfl ?_ rfl stays
      obtain ⟨i, inRange, entry⟩ := track.mapped
      obtain ⟨e, inRange', rfl⟩ := cfg.table.probe_surj p i inRange
      simp only [here]
      exact ⟨e, inRange', Nat.zero_le e, entry⟩
    · have slotsEq : sh.table.slots = step.slots := by rw [moved]
      have pcEq : sh.table.pcs f = step.pc := by simp [moved]
      rcases running.resolve_left (by simp [busy]) with ⟨d, probing⟩ | ⟨i, raw, cas, bid⟩
      · rw [probing] at steps finds
        obtain ⟨slots, silent, finds', ⟨d', pc⟩ | ⟨i, raw, pc, bid⟩⟩ :=
          finds.probe inv.table.reach inv.table.unique steps
        · rw [← pcEq] at finds'
          simp only [silent, pcEq, pc] at stepped
          cases stepped
          exact track.goesOn (slotsEq.trans slots) finds' rfl stays
        · rw [← pcEq] at finds'
          simp only [silent, pcEq, pc, bid, if_true] at stepped
          cases stepped
          exact track.goesOn (slotsEq.trans slots) finds' (by rw [jobOf, at_]; rfl) rfl
      · have known := inv.table.pcs f
        rw [cas] at steps known finds
        obtain ⟨inRange, live, pid⟩ := known
        rcases eraseIfCas_step steps with ⟨-, -, out, -⟩ | ⟨miss, -⟩
        · simp only [out] at stepped
          cases stepped
          rw [pid, bid]
          exact Or.inr rfl
        · exact absurd finds.2 miss

/-- Each stage of the precheck passes, since the frame is protected and clean. -/
theorem OnTrack.step {choice p b : Nat} (inv : Inv cfg s) (claims : Claims cfg s)
    (track : OnTrack cfg s f p b) (target : (jobOf cfg s f).target = some (p, b))
    (stepped : stepFiber cfg s.shared f (s.fibers f) choice = some r) : Proceeds cfg s f r p b := by
  have chosen := target_chosen target
  have safe := claims.protected_ f b (List.mem_append_right _ chosen)
  have evicting : (s.shared.frames b).state.evicting = true := safe.evicting
  have free : (s.shared.frames b).state.free = true := safe.free
  have clean : (s.shared.frames b).state.dirty = false := claims.clean f b chosen
  have finds := track.finds
  rw [jobOf] at target
  cases at_ : (s.fibers f).pc with rw [at_] at target
  | evErase ev ph c q rest =>
    cases target
    simp only [stepFiber, at_] at stepped
    exact track.step_evErase inv at_ stepped
  | preEvicting ev ph c q rest =>
    cases target
    simp only [stepFiber, at_, evicting, if_true] at stepped
    cases stepped
    exact track.goesOn rfl finds (by rw [jobOf, at_]; rfl) rfl
  | preMode ev ph c q rest =>
    cases target
    simp only [stepFiber, at_, free, if_true] at stepped
    cases stepped
    exact track.goesOn rfl finds (by rw [jobOf, at_]; rfl) rfl
  | preDirty ev ph c q rest =>
    cases target
    simp only [stepFiber, at_, clean, Bool.false_eq_true, if_false] at stepped
    cases stepped
    exact track.goesOn rfl finds (by rw [jobOf, at_]; rfl) rfl
  | preIo ev ph c q rest =>
    cases target
    simp only [stepFiber, at_] at stepped
    split at stepped <;> cases stepped
    exact track.goesOn rfl finds (by rw [jobOf, at_]; rfl) rfl
  | preAnswer ev ph c q rest answer =>
    cases target
    simp only [stepFiber, at_] at stepped
    exact track.step_preAnswer inv at_ stepped
  | _ =>
    cases target

/-! ### Steps -/

theorem Finishing.next (finishing : Finishing cfg s)
    (same : ∀ u, u ≠ f → ∀ p b, (jobOf cfg s u).target = some (p, b) →
      ∀ i, Entry s.shared.table.slots i p b → r.shared.table.slots i = s.shared.table.slots i)
    (others : ∀ u, u ≠ f → r.shared.table.pcs u = s.shared.table.pcs u)
    (track : ∀ p b, (r.fiber.pc.job cfg).target = some (p, b) →
      OnTrack cfg (s.after f r.shared r.fiber) f p b)
    (accounts : (r.fiber.pc.job cfg).Accounts) : Finishing cfg (s.after f r.shared r.fiber) where
  track := fun u p b target => by
    by_cases self : u = f
    · subst self
      rw [jobOf_self] at target
      exact track p b target
    · rw [jobOf_ne _ _ self] at target
      exact (finishing.track u p b target).after self (same u self p b target) (others u self)
  accounts := fun u => by
    by_cases self : u = f
    · subst self
      rw [jobOf_self]
      exact accounts
    · rw [jobOf_ne _ _ self]
      exact finishing.accounts u

theorem sweeping_accounts (ev : Eviction) (fresh : List Nat) : (ev.sweeping fresh).Accounts :=
  fun _ member => Or.inl member

theorem writing_accounts (ev : Eviction) (unissued : List Nat) (pending : List Write) :
    (ev.writing unissued pending).Accounts := fun _ member => Or.inl member

theorem Finishing.change (inv : Inv cfg s) (claims : Claims cfg s) (finishing : Finishing cfg s)
    (grows : Grows s f r.shared) (change : Change cfg s f r)
    (none : (jobOf cfg s f).target = none) : Finishing cfg (s.after f r.shared r.fiber) := by
  have old := finishing.accounts f
  have step : ∀ job, r.fiber.pc.job cfg = job → job.target = .none → job.Accounts →
      Finishing cfg (s.after f r.shared r.fiber) := by
    rintro job rfl idle accounts
    refine finishing.next (fun u _ p b _ i entry => grows.keeps i entry.1.1) grows.others ?_ accounts
    intro p b target
    rw [idle] at target
    cases target
  have same : r.fiber.pc.job cfg = (s.fibers f).pc.job cfg →
      Finishing cfg (s.after f r.shared r.fiber) := fun job => step _ job none old
  have client : r.fiber.pc.inEvict = false → Finishing cfg (s.after f r.shared r.fiber) :=
    fun client => step _ (job_client client) rfl (fun _ member => by cases member)
  cases change with
  | quiet _ job | mark _ _ _ _ _ job => exact same job
  | fixed _ _ _ _ next | validated _ _ _ next | lock _ _ _ _ _ _ _ _ next | unlockS _ _ _ _ _ next
  | done _ _ _ next =>
    exact client (by rw [next]; rfl)
  | holder _ _ _ _ _ _ client' | owner _ _ _ _ _ _ _ client' => exact client client'.2
  | claim ev _ _ b _ _ next =>
    exact step (ev.sweeping [b]) (by rw [next]; rfl) rfl (sweeping_accounts _ _)
  | settle _ _ _ _ _ job' | clean _ _ _ _ job' => exact step _ job' rfl (sweeping_accounts _ _)
  | issue _ _ _ _ _ _ job' | complete _ _ _ _ _ _ _ job' =>
    exact step _ job' rfl (writing_accounts _ _ _)
  | aim ev ph b rest at_ shared next =>
    have idle : (s.shared.table.pcs f).canCall = true := inv.agree_at at_
    have before : jobOf cfg s f = ev.erase ph b rest := by rw [jobOf, at_]; rfl
    have safe := claims.protected_ f b (by rw [before]; exact List.mem_cons_self)
    obtain ⟨q, mapped⟩ := safe.mapped
    refine finishing.next (fun u _ p b _ i entry => grows.keeps i entry.1.1) grows.others ?_ ?_
    · intro p c target
      rw [next] at target
      cases target
      rw [inv.mapped q b mapped]
      refine ⟨mapped_of_grows grows mapped, ?_, by rw [after_self, next]; rfl⟩
      rw [after_shared, shared]
      exact finds_canCall idle
    · rw [before] at old
      rw [next]
      exact old
  | giveUp _ _ _ _ job =>
    rw [jobOf, job] at none
    cases none
  | retire _ _ _ _ _ at_ _ job' =>
    refine step _ job' rfl fun c member => ?_
    rw [jobOf, at_] at old
    rcases old c member with h | h | h | h
    · exact Or.inl h
    · exact Or.inr (Or.inr (Or.inl (List.mem_append_right _ h)))
    · exact Or.inr (Or.inr (Or.inl (List.mem_append_left _ h)))
    · exact Or.inr (Or.inr (Or.inr h))
  | release _ _ _ _ _ job _ parts job' =>
    refine step _ job' rfl fun c member => ?_
    rw [jobOf, job] at old
    rcases old c member with h | h | h | h
    · exact Or.inl h
    · cases h
    · rcases parts c h with left_ | right_
      · exact Or.inr (Or.inr (Or.inl left_))
      · exact Or.inr (Or.inr (Or.inr (List.mem_append_right _ right_)))
    · exact Or.inr (Or.inr (Or.inr (List.mem_append_left _ h)))

theorem Finishing.commit {ev : Eviction} {ph : Phase} {b p i : Nat} {rest : List Nat}
    (claims : Claims cfg s) (finishing : Finishing cfg s)
    (commits : Commits cfg s f r ev ph b p rest i) : Finishing cfg (s.after f r.shared r.fiber) := by
  have before : jobOf cfg s f = (ev.erase ph b rest).aimed p b := by
    rw [jobOf, commits.at_]
    rfl
  have mine : b ∈ (jobOf cfg s f).claims := by
    rw [before]
    exact mem_claims.mpr (Or.inr (Or.inl List.mem_cons_self))
  have old := finishing.accounts f
  rw [before] at old
  refine finishing.next (fun u ne q c target j entry => ?_) commits.others ?_ ?_
  · -- the erased slot maps to `b`, the other evictor's to its own candidate
    have apart : j ≠ i := by
      rintro rfl
      obtain rfl : c = b := entry.2.symm.trans commits.entry.2
      exact ne (claims.unique (mem_claims.mpr (Or.inr (Or.inl (target_chosen target)))) mine)
    rw [commits.slots, setSlot_ne _ _ apart]
  · intro q c target
    rw [commits.next] at target
    cases target
  · rw [commits.next]
    intro c member
    rcases old c member with h | h | h | h
    · rcases List.mem_cons.mp h with rfl | later
      · exact Or.inr (Or.inl List.mem_cons_self)
      · exact Or.inl later
    · cases h
    · exact Or.inr (Or.inr (Or.inl h))
    · exact Or.inr (Or.inr (Or.inr h))

/-! ### Runs -/

theorem finishing_initial (cfg : Config n) : Finishing cfg (initial cfg) where
  track := (fun _ _ _ member => by cases member)
  accounts := fun _ => (fun _ member => by cases member)

theorem finishing_step {choice : Nat} (inv : Inv cfg s) (claims : Claims cfg s)
    (finishing : Finishing cfg s)
    (undisturbed : Undisturbed cfg.table s.shared.table (.step f false))
    (stepped : stepFiber cfg s.shared f (s.fibers f) choice = some r) :
    Finishing cfg (s.after f r.shared r.fiber) := by
  rcases step_change inv undisturbed stepped with
    ⟨grows, change⟩ | ⟨ev, ph, b, p, rest, i, commits⟩
  · cases target : (jobOf cfg s f).target with
    | none => exact finishing.change inv claims grows change target
    | some entry =>
      obtain ⟨p, b⟩ := entry
      rcases (finishing.track f p b target).step inv claims target stepped with ⟨job, track⟩ | erased
      · refine finishing.next (fun u _ q c _ i entry => grows.keeps i entry.1.1) grows.others ?_ ?_
        · intro q c target'
          rw [job, target] at target'
          cases target'
          exact track
        · rw [job]
          exact finishing.accounts f
      · exact absurd erased (change.out_ne_erased p b)
  · exact finishing.commit claims commits

theorem finishing_exec {act : Act n} {s' : State n} {out : Out} (inv : Inv cfg s)
    (claims : Claims cfg s) (finishing : Finishing cfg s) (careful : Careful cfg s act)
    (execs : exec cfg s act = some (s', out)) : Finishing cfg s' := by
  cases act with
  | step f choice =>
    obtain ⟨r, stepped, put⟩ := Option.map_eq_some_iff.mp execs
    cases put
    exact finishing_step inv claims finishing (careful.1 false) stepped
  | call f op =>
    simp only [exec] at execs
    split at execs
    next allowed =>
      obtain ⟨r, called, put⟩ := Option.map_eq_some_iff.mp execs
      cases put
      have idle := isIdle_iff.mp allowed.1
      rcases call_change idle called with ⟨grows, change⟩ | ⟨ev, ph, b, p, rest, i, commits⟩
      · exact finishing.change inv claims grows change (by rw [jobOf, idle]; rfl)
      · exact finishing.commit claims commits
    next => cases execs
  | initWorker w | shutdownWorker w =>
    simp only [exec] at execs
    split at execs <;> cases execs
    refine ⟨fun u p b target => ?_, finishing.accounts⟩
    obtain ⟨mapped, finds, accepts⟩ := finishing.track u p b target
    exact ⟨mapped, finds, accepts⟩

theorem finishing_reaches {acts : List (Act n × Out)}
    (reached : (system cfg).Reaches (fun s a => Careful cfg s a.1) acts s) :
    (Inv cfg s ∧ Claims cfg s) ∧ Finishing cfg s :=
  reached.invariant (P := fun s => (Inv cfg s ∧ Claims cfg s) ∧ Finishing cfg s)
    (fun s (start : s = initial cfg) =>
      start ▸ ⟨⟨inv_initial cfg, claims_initial cfg⟩, finishing_initial cfg⟩)
    fun _ _ _ ⟨⟨inv, claims⟩, finishing⟩ careful step =>
      ⟨⟨inv_exec inv (claims.sound careful) step, claims_exec inv claims careful step⟩,
        finishing_exec inv claims finishing careful step⟩

/-- In every run of steps that meet `ok`, when an `evict()` returns, every frame on which it
has set the EvictingBit was erased and put into a free pool by it, or has the bit cleared. -/
def NoLeftover (cfg : Config n) (ok : State n → Act n × Out → Prop) : Prop :=
  ∀ (before : List (Act n × Out)) (s s' : State n) (act : Act n) (ev : Eviction),
    (system cfg).Reaches ok before s → (system cfg).step s (act, .evictDone ev) s' →
    ok s (act, .evictDone ev) →
    ∀ b ∈ ev.selected, b ∈ ev.released ∨ (word s' b).evicting = false

/-- **The EvictingBit does not outlive its eviction.** -/
theorem evicting_not_leftover (cfg : Config n) :
    NoLeftover cfg (fun s label => Careful cfg s label.1) := by
  intro before s s' act ev reached step careful b selected
  obtain ⟨⟨inv, claims⟩, finishing⟩ := finishing_reaches reached
  rcases exec_change inv careful.undisturbed step with
    ⟨f, r, -, -, out, ⟨-, change⟩ | ⟨ev, ph, c, q, rest, i, commits⟩⟩ | ⟨-, -, -, out⟩
  · cases change with
    | done ev' at_ frames next shows =>
      have same := out.trans shows
      cases same
      have accounts := finishing.accounts f
      rw [jobOf, at_] at accounts
      rcases accounts b selected with h | h | h | h
      · cases h
      · cases h
      · cases h
      · exact Or.inl h
    | quiet frames job ready shows =>
      rw [← out] at shows
      rcases shows with shows | ⟨g, shows⟩ | shows <;> cases shows
    | _ =>
      have shows := out.trans ‹r.out = _›
      cases shows
  · have shows := out.trans commits.out
    cases shows
  · cases out

/-- The evictor of the other worker selects page 1 and returns with its frame released. -/
theorem evicting_not_leftover_alone :
    ∃ before s s' ev, (system twoWorkers).Reaches (fun s label => Careful twoWorkers s label.1) before s ∧
      (system twoWorkers).step s (.step 1 1, .evictDone ev) s' ∧ 1 ∈ ev.selected ∧
      (1 ∈ ev.released ∨ (word s' 1).evicting = false) := by
  let ev : Eviction := ⟨1, [], [1], [], [1]⟩
  have passed : (drive (exec twoWorkers) (fun s a => decide (Careful twoWorkers s a))
      (initial twoWorkers)
      (List.flatten [allocated, unmarks, [.call 1 .evict], steps 1 18, [.step 1 0], steps 1 15])).any
      (fun r => decide (Careful twoWorkers r.1 (.step 1 1)) &&
        (exec twoWorkers r.1 (.step 1 1)).any fun t => t.2 = .evictDone ev) = true := by
    decide +kernel
  obtain ⟨s, before, reached, last⟩ := drive_meets (system twoWorkers) rfl rfl passed
  simp only [Bool.and_eq_true, decide_eq_true_eq, Option.any_eq_true] at last
  obtain ⟨careful, ⟨s', out⟩, stepped, rfl⟩ := last
  exact ⟨before, s, s', ev, reached, stepped, by decide,
    evicting_not_leftover twoWorkers before s s' (.step 1 1) ev reached stepped careful 1 (by decide)⟩

/-- A client locks page 1 when the sweep callback has checked its mode and not yet set the
EvictingBit. The evictor's precheck finds the page in use. -/
def lockedInBetween : List (Act 2) :=
  List.flatten [allocated, unmarks, [.call 1 .evict], steps 1 11, [.call 0 (.fixS 1)], steps 0 11,
    steps 1 7, [.step 1 0], steps 1 8]

/-- `evict()` returns, and the page stays mapped with the EvictingBit set. -/
theorem evicting_leftover :
    ∃ before s s' ev, (system twoWorkers).Reaches System.anyStep before s ∧
      (system twoWorkers).step s (.step 1 1, .evictDone ev) s' ∧ 1 ∈ ev.selected ∧
      1 ∉ ev.released ∧ Mapped twoWorkers s' 1 1 ∧ (word s' 1).evicting = true := by
  let ev : Eviction := ⟨1, [], [1], [], []⟩
  let test : State 2 × Out → Bool := fun t => decide (t.2 = .evictDone ev ∧
    (word t.1 1).evicting = true ∧ t.1.shared.table.slots 0 = Slot.word 1 1)
  have passed : (drive (exec twoWorkers) (fun _ _ => true) (initial twoWorkers) lockedInBetween).any
      (fun r => (exec twoWorkers r.1 (.step 1 1)).any test) = true := by
    decide +kernel
  obtain ⟨s, before, reached, last⟩ := drive_anyStep (system twoWorkers) rfl rfl passed
  obtain ⟨⟨s', out⟩, stepped, passes⟩ := (Option.any_eq_true _ _).mp last
  obtain ⟨rfl, evicting, slot⟩ := of_decide_eq_true passes
  refine ⟨before, s, s', ev, reached, stepped,
    by decide, by decide, ⟨0, by decide, ?_⟩, evicting⟩
  unfold Entry Holds
  rw [show s'.shared.table.slots 0 = _ from slot]
  decide

end UringDb.BufferMgr
