import UringDb.Bm.Accounting

/-!
# The metadata page and the clock

Page 0 is never to be evicted, but the sweep treats it like any other page: it is safe only while
a fiber has marked it again since the hand has passed it. The evictor calls `evict` until enough
frames are free, and when a sweep finds nothing to write it does not suspend in between. Whether
the `ensure` of the callback fails is decided by the marks and the position of the hand when
`evict` is called.
-/
namespace UringDb.Bm

open RobinHood RHBSU64Map

variable {cfg : Config} {n : Nat} {s u : State n}

/-! ### What a sweep will find -/

/-- The sweep takes the page: it is not in use, not under I/O, not chosen already, not marked. -/
def BufTagged.victim (b : BufTagged) : Bool := !b.inUse && !b.ioLock && !b.evicting && !b.marked

namespace State

/-- The slot that a sweep reaches after `k` others. -/
def slotAt (s : State n) (k : Nat) : Nat := (s.sweep + k) % s.table.n

/-- After `k` slots the sweep is at a page it will take. -/
def victimAt (s : State n) (k : Nat) : Bool :=
  s.table.ctrl (s.slotAt k) != 0 && (s.buf (s.slotAt k)).victim

/-- The number of pages it can take from the first `k` slots. -/
def victims (s : State n) (k : Nat) : Nat := (List.range k).countP s.victimAt

/-- After `k` slots the sweep is at page 0 and will take it. -/
def metadataAt (s : State n) (k : Nat) : Bool :=
  s.victimAt k && (s.table.entries (s.slotAt k)).key == 0

end State

/-- Page 0 can be taken, and the pages before it do not fill the batch. -/
def Exposed (cfg : Config) (s : State n) : Prop :=
  ∃ k < s.table.n, s.metadataAt k = true ∧ (s.victims k < cfg.evictBatch ∨ cfg.evictBatch = 0)

/-! ### One slot of a sweep -/

/-- The sweep has gone over one slot, and changed no other. -/
structure Scanned (s u : State n) : Prop where
  bits : u.table.bits = s.table.bits
  ctrl : u.table.ctrl = s.table.ctrl
  keys : ∀ i, (u.table.entries i).key = (s.table.entries i).key
  sweep : u.sweep = s.table.next s.sweep
  bufs : ∀ i, i ≠ s.sweep → u.buf i = s.buf i

theorem scanned_advance (s : State n) : Scanned s s.advance :=
  ⟨rfl, rfl, fun _ => rfl, rfl, fun _ _ => rfl⟩

theorem scanned_setBuf (s : State n) (b : BufTagged) :
    Scanned s (s.advance.setBuf s.sweep b) :=
  ⟨rfl, write_ctrl, fun _ => write_key, rfl,
    fun _ apart => congrArg Entry.val (write_entries_of_ne apart)⟩

theorem scanned_choose (s : State n) :
    Scanned s (s.advance.choose s.sweep) := by
  unfold State.choose
  dsimp only
  split
  · exact ⟨rfl, write_ctrl, fun _ => write_key, rfl,
      fun _ apart => congrArg Entry.val (write_entries_of_ne apart)⟩
  · exact ⟨rfl, write_ctrl, fun _ => write_key, rfl,
      fun _ apart => congrArg Entry.val (write_entries_of_ne apart)⟩

theorem Scanned.n_eq (scanned : Scanned s u) : u.table.n = s.table.n := by
  rw [RHBSU64Map.n, scanned.bits, RHBSU64Map.n]

theorem Scanned.slotAt (scanned : Scanned s u) (k : Nat) : u.slotAt k = s.slotAt (k + 1) := by
  rw [State.slotAt, scanned.n_eq, scanned.sweep, next_eq, Nat.mod_add_mod, State.slotAt]
  congr 1
  omega

theorem slotAt_ne {k : Nat} (hand : s.sweep < s.table.n) (inside : k + 1 < s.table.n) :
    s.slotAt (k + 1) ≠ s.sweep := by
  unfold State.slotAt
  intro same
  rcases Nat.lt_or_ge (s.sweep + (k + 1)) s.table.n with below | above
  · rw [Nat.mod_eq_of_lt below] at same
    omega
  · rw [Nat.mod_eq_sub_mod above, Nat.mod_eq_of_lt (by omega)] at same
    omega

theorem Scanned.victimAt (scanned : Scanned s u) (hand : s.sweep < s.table.n) {k : Nat}
    (inside : k + 1 < s.table.n) : u.victimAt k = s.victimAt (k + 1) := by
  rw [State.victimAt, scanned.slotAt, scanned.ctrl, scanned.bufs _ (slotAt_ne hand inside),
    State.victimAt]

theorem Scanned.metadataAt (scanned : Scanned s u) (hand : s.sweep < s.table.n) {k : Nat}
    (inside : k + 1 < s.table.n) : u.metadataAt k = s.metadataAt (k + 1) := by
  rw [State.metadataAt, scanned.victimAt hand inside, scanned.slotAt, scanned.keys,
    State.metadataAt]

theorem Scanned.victims (scanned : Scanned s u) (hand : s.sweep < s.table.n) {k : Nat}
    (inside : k < s.table.n) : s.victims (k + 1) = (s.victimAt 0).toNat + u.victims k := by
  have same : (List.range k).countP (s.victimAt ∘ Nat.succ) = (List.range k).countP u.victimAt := by
    apply List.countP_congr
    intro j member
    have below := List.mem_range.mp member
    rw [Function.comp_apply, scanned.victimAt hand (by omega)]
  rw [State.victims, List.range_succ_eq_map, List.countP_cons, List.countP_map, same,
    State.victims]
  cases s.victimAt 0 <;> simp [Nat.add_comm]

/-- The sweep gets to page 0 and takes it: no page before it completes the batch. -/
def Hits (cfg : Config) (s : State n) (left taken : Nat) : Prop :=
  ∃ k < left, s.metadataAt k = true ∧
    ∀ j < k, s.victimAt j = true → taken + s.victims (j + 1) ≠ cfg.evictBatch

theorem Scanned.hits_iff (scanned : Scanned s u) (hand : s.sweep < s.table.n) {left taken : Nat}
    (short : left + 1 ≤ s.table.n) (other : s.metadataAt 0 = false)
    (goes : s.victimAt 0 = true → taken + 1 ≠ cfg.evictBatch) :
    Hits cfg s (left + 1) taken ↔ Hits cfg u left (taken + (s.victimAt 0).toNat) := by
  constructor
  · rintro ⟨k, below, here, before⟩
    obtain _ | k := k
    · rw [other] at here
      cases here
    · refine ⟨k, by omega, ?_, fun j early taken' => ?_⟩
      · rwa [scanned.metadataAt hand (by omega)]
      · rw [scanned.victimAt hand (by omega)] at taken'
        have next := before (j + 1) (by omega) taken'
        rwa [scanned.victims hand (by omega), ← Nat.add_assoc] at next
  · rintro ⟨k, below, here, before⟩
    refine ⟨k + 1, by omega, ?_, fun j early taken' => ?_⟩
    · rwa [← scanned.metadataAt hand (by omega)]
    · obtain _ | j := j
      · rw [scanned.victims hand (by omega), taken']
        exact goes taken'
      · rw [← scanned.victimAt hand (by omega)] at taken'
        rw [scanned.victims hand (by omega), ← Nat.add_assoc]
        exact before j (by omega) taken'

/-! ### The sweep -/

theorem ensure_true (check : Check) : ensure true check = .ok () := rfl

theorem visit_eq (cfg : Config) {i : Nat}
    (framed : (s.frames (s.buf i).id).pid = (s.table.entries i).key) :
    s.visit cfg i =
      if (s.buf i).victim then
        if (s.table.entries i).key = 0 then .error (.failed .notMetadata)
        else .ok (s.choose i,
          (s.choose i).toEvict.length + (s.choose i).toWrite.length == cfg.evictBatch)
      else if (s.buf i).inUse || (s.buf i).ioLock || (s.buf i).evicting then .ok (s, false)
      else .ok (s.setBuf i ((s.buf i).setMarked false), false) := by
  unfold State.visit BufTagged.victim
  rw [framed, beq_self_eq_true, ensure_true]
  cases (s.buf i).inUse
  case true => rfl
  cases (s.buf i).ioLock
  case true => rfl
  cases (s.buf i).evicting
  case true => rfl
  cases (s.buf i).marked
  case true => rfl
  by_cases metadata : (s.table.entries i).key = 0
  · simp [metadata, ensure, bind, Except.bind]
  · simp [metadata, ensure, bind, Except.bind, pure, Except.pure]

theorem length_choose (s : State n) (i : Nat) :
    (s.choose i).toEvict.length + (s.choose i).toWrite.length =
      s.toEvict.length + s.toWrite.length + 1 := by
  unfold State.choose
  dsimp only
  split
  · change s.toEvict.length + (s.toWrite ++ [_]).length = _
    rw [List.length_append]
    rfl
  · change (s.toEvict ++ [_]).length + s.toWrite.length = _
    rw [List.length_append, List.length_singleton]
    omega

theorem slotAt_zero (hand : s.sweep < s.table.n) : s.slotAt 0 = s.sweep := Nat.mod_eq_of_lt hand

theorem victimAt_zero (hand : s.sweep < s.table.n) (occupied : s.table.ctrl s.sweep ≠ 0) :
    s.victimAt 0 = (s.buf s.sweep).victim := by
  rw [State.victimAt, slotAt_zero hand, bne_iff_ne.mpr occupied, Bool.true_and]

theorem Sweeps.fails_iff {left : Nat} (sweeps : Sweeps cfg s) (short : left ≤ s.table.n) :
    State.clockSweep cfg left s = .error (.failed .notMetadata) ↔
      Hits cfg s left (s.toEvict.length + s.toWrite.length) := by
  induction left generalizing s with
  | zero =>
    constructor
    · intro fails
      cases fails
    · rintro ⟨k, below, -⟩
      omega
  | succ left ih =>
    have hand := sweeps.books.hand
    have goal : ∀ {v : State n}, Scanned s v → Sweeps cfg v → s.metadataAt 0 = false →
        (s.victimAt 0 = true →
          s.toEvict.length + s.toWrite.length + 1 ≠ cfg.evictBatch) →
        v.toEvict.length + v.toWrite.length =
          s.toEvict.length + s.toWrite.length + (s.victimAt 0).toNat →
        (State.clockSweep cfg left v = .error (.failed .notMetadata) ↔
          Hits cfg s (left + 1) (s.toEvict.length + s.toWrite.length)) := by
      intro v scanned sweeps' other goes lengths
      rw [scanned.hits_iff hand short other goes, ← lengths]
      exact ih sweeps' (by rw [scanned.n_eq]; omega)
    simp only [State.clockSweep]
    split
    next empty =>
      have idle : s.victimAt 0 = false := by
        rw [State.victimAt, slotAt_zero hand, empty]
        rfl
      exact goal (scanned_advance s) sweeps.advance (by rw [State.metadataAt, idle]; rfl)
        (by rw [idle]; exact fun taken => by cases taken) (by rw [idle]; rfl)
    next occupied =>
      have slot : s.sweep ∈ s.advance.table.slots := mem_slots.mpr ⟨hand, occupied⟩
      have first := victimAt_zero hand occupied
      have advanced := sweeps.advance
      have visited := visit_eq cfg
        (advanced.books.frame _ _ (advanced.books.key_page slot))
      by_cases victim : (s.advance.buf s.sweep).victim = true
      · have taken : s.victimAt 0 = true := first.trans victim
        rw [if_pos victim] at visited
        by_cases metadata : (s.advance.table.entries s.sweep).key = 0
        · -- page 0 is the next page the sweep takes
          rw [visited, if_pos metadata]
          refine iff_of_true rfl ⟨0, Nat.succ_pos left, ?_, fun j early => absurd early (by omega)⟩
          rw [State.metadataAt, taken, slotAt_zero hand]
          exact beq_iff_eq.mpr metadata
        · have apart : s.metadataAt 0 = false := by
            rw [State.metadataAt, taken, slotAt_zero hand, Bool.true_and]
            exact beq_eq_false_iff_ne.mpr metadata
          have lengths := length_choose s.advance s.sweep
          rw [visited, if_neg metadata]
          dsimp only
          split
          next full =>
            -- the batch is complete, so the sweep ends before any later slot
            refine iff_of_false (fun fails => by cases fails) ?_
            rintro ⟨k, -, here, before⟩
            obtain _ | k := k
            · rw [apart] at here
              cases here
            · apply before 0 (Nat.succ_pos k) taken
              rw [State.victims, List.range_one, List.countP_cons, taken]
              rw [beq_iff_eq, lengths] at full
              exact full
          next more =>
            refine goal (scanned_choose s) (advanced.choose slot ?_) apart
              (fun _ full => more ?_) ?_
            · intro evicting
              simp only [BufTagged.victim, evicting] at victim
              simp at victim
            · rw [lengths]
              exact beq_iff_eq.mpr full
            · rw [lengths, taken]
              rfl
      · have idle : s.victimAt 0 = false := first.trans (Bool.eq_false_of_not_eq_true victim)
        have apart : s.metadataAt 0 = false := by
          rw [State.metadataAt, idle]
          rfl
        have goes : s.victimAt 0 = true →
            s.toEvict.length + s.toWrite.length + 1 ≠ cfg.evictBatch := by
          intro taken
          rw [idle] at taken
          cases taken
        rw [if_neg victim] at visited
        split at visited
        next =>
          rw [visited]
          exact goal (scanned_advance s) advanced apart goes (by rw [idle]; rfl)
        next =>
          have kept := advanced.visit slot visited
          rw [visited]
          exact goal (scanned_setBuf s _) kept apart goes (by rw [idle]; rfl)

/-! ### The batch -/

theorem victims_succ (s : State n) (k : Nat) :
    s.victims (k + 1) = s.victims k + (s.victimAt k).toNat := by
  rw [State.victims, List.range_succ, List.countP_append, State.victims]
  cases taken : s.victimAt k <;> simp [taken]

theorem victims_mono (s : State n) {j k : Nat} (le : j ≤ k) : s.victims j ≤ s.victims k := by
  induction le with
  | refl => exact Nat.le_refl _
  | step _ ih =>
    rw [Nat.succ_eq_add_one, victims_succ]
    omega

/-- Every number of pages up to the last is the number at some page. -/
theorem exists_victims_eq (s : State n) {m k : Nat} (pos : 0 < m) (le : m ≤ s.victims k) :
    ∃ j < k, s.victimAt j = true ∧ s.victims (j + 1) = m := by
  induction k with
  | zero =>
    have none : s.victims 0 = 0 := rfl
    omega
  | succ k ih =>
    rcases Nat.lt_or_ge (s.victims k) m with below | above
    · rw [victims_succ] at le
      cases taken : s.victimAt k with
      | false =>
        rw [taken, Bool.toNat_false] at le
        omega
      | true =>
        rw [taken, Bool.toNat_true] at le
        refine ⟨k, Nat.lt_succ_self k, taken, ?_⟩
        rw [victims_succ, taken, Bool.toNat_true]
        omega
    · obtain ⟨j, early, found⟩ := ih above
      exact ⟨j, Nat.lt_succ_of_lt early, found⟩

/-- A sweep with empty lists takes page 0 exactly if it is exposed. -/
theorem hits_iff_exposed : Hits cfg s s.table.n 0 ↔ Exposed cfg s := by
  unfold Hits Exposed
  simp only [Nat.zero_add]
  constructor
  · rintro ⟨k, inside, here, before⟩
    refine ⟨k, inside, here, ?_⟩
    by_contra full
    obtain ⟨enough, pos⟩ := not_or.mp full
    obtain ⟨j, early, taken, last⟩ :=
      exists_victims_eq s (Nat.pos_of_ne_zero pos) (Nat.le_of_not_lt enough)
    exact before j early taken last
  · rintro ⟨k, inside, here, open_⟩
    refine ⟨k, inside, here, fun j early taken last => ?_⟩
    have le := victims_mono s (show j + 1 ≤ k from early)
    rw [victims_succ, taken, Bool.toNat_true] at le last
    omega

/-! ### Steps -/

/-- The step does not fail at the `ensure` for page 0. -/
def Spares {α : Type} (x : Except Stop α) : Prop := x ≠ .error (.failed .notMetadata)

theorem spares_ok {α : Type} (a : α) : Spares (.ok a) := fun fails => by cases fails

theorem spares_bind {α β : Type} {x : Except Stop α} {f : α → Except Stop β} (first : Spares x)
    (rest : ∀ a, Spares (f a)) : Spares (x >>= f) := by
  cases x with
  | error stop =>
    intro fails
    cases fails
    exact first rfl
  | ok a => exact rest a

theorem bind_fails_iff {α β : Type} {x : Except Stop α} {f : α → Except Stop β}
    (rest : ∀ a, Spares (f a)) :
    (x >>= f) = .error (.failed .notMetadata) ↔ x = .error (.failed .notMetadata) := by
  cases x with
  | error stop =>
    constructor <;>
    · intro fails
      cases fails
      rfl
  | ok a => exact iff_of_false (rest a) (spares_ok a)

theorem spares_ensure {holds : Bool} {check : Check} (other : check ≠ .notMetadata) :
    Spares (ensure holds check) := by
  cases holds with
  | true => exact spares_ok ()
  | false =>
    intro fails
    cases fails
    exact other rfl

theorem spares_findPage (s : State n) (pid : UInt64) : Spares (s.findPage pid) := by
  unfold State.findPage
  split
  · exact spares_ok _
  · exact fun fails => by cases fails

theorem spares_insertPage (s : State n) (pid : UInt64) (b : BufTagged) :
    Spares (s.insertPage pid b) := by
  unfold State.insertPage
  split
  · exact spares_ok _
  · exact fun fails => by cases fails
  · exact fun fails => by cases fails

theorem spares_finishRead (s : State n) (pid : UInt64) : Spares (s.finishRead pid) :=
  spares_bind (spares_findPage s pid) fun _ => spares_ok _

theorem spares_handleFault (s : State n) (c : Fin n) (pid : UInt64) :
    Spares (s.handleFault cfg c pid) := by
  unfold State.handleFault
  dsimp only
  split
  · exact spares_ok _
  · refine spares_bind (spares_insertPage _ _ _) fun u => ?_
    split
    · exact spares_finishRead _ _
    · exact spares_ok _

theorem spares_handleWait (s : State n) (c : Fin n) (bid : Nat) : Spares (s.handleWait c bid) := by
  unfold State.handleWait
  split
  · exact fun fails => by cases fails
  · exact spares_bind (spares_findPage _ _) fun _ =>
      spares_bind (spares_ensure (by decide)) fun _ => spares_ok _

theorem spares_fix (s : State n) (pid : UInt64) (touch : BufTagged → BufTagged) :
    Spares (s.fix pid touch) := by
  unfold State.fix
  split
  · exact spares_ok _
  · split
    · exact spares_ok _
    · exact spares_bind (spares_ensure (by decide)) fun _ => spares_ok _

theorem spares_execCall (s : State n) (c : Fin n) (call : Call) :
    Spares (execCall cfg s c call) := by
  cases call with
  | fixS pid =>
    unfold execCall State.fixS
    exact spares_fix s pid _
  | fixX pid =>
    unfold execCall State.fixX
    exact spares_fix s pid _
  | unfixS pid =>
    exact spares_bind (spares_findPage _ _) fun _ =>
      spares_bind (spares_ensure (by decide)) fun _ => spares_ok _
  | unfixX pid =>
    exact spares_bind (spares_findPage _ _) fun _ =>
      spares_bind (spares_ensure (by decide)) fun _ =>
        spares_bind (spares_ensure (by decide)) fun _ => spares_ok _
  | allocPage =>
    simp only [execCall, State.allocPage]
    split
    · exact spares_ok _
    · exact spares_bind (spares_insertPage _ _ _) fun _ => spares_ok _
  | handleRestart =>
    simp only [execCall, State.handleRestart]
    split
    · exact spares_handleFault _ _ _
    · exact spares_handleWait _ _ _
    · exact spares_ok _
  | yield => exact spares_ok _

theorem spares_proceedClient (s : State n) (c : Fin n) : Spares (proceedClient s c) := by
  unfold proceedClient
  split
  · exact fun fails => by cases fails
  · exact spares_bind (spares_ensure (by decide)) fun _ =>
      spares_bind (spares_finishRead _ _) fun _ => spares_ok _
  · exact spares_ok _

theorem spares_evictNow (s : State n) (bid count : Nat) : Spares (s.evictNow bid count) := by
  refine spares_bind (spares_findPage _ _) fun i =>
    spares_bind (spares_ensure (by decide)) fun _ => ?_
  split
  · exact spares_ok _
  · split
    · exact spares_ok _
    · refine spares_bind (spares_ensure (by decide)) fun _ => ?_
      split
      · exact spares_ok _
      · exact fun fails => by cases fails
      · exact fun fails => by cases fails

theorem spares_evictAll (bids : List Nat) (s : State n) (count : Nat) :
    Spares (State.evictAll bids s count) := by
  induction bids generalizing s count with
  | nil => exact spares_ok _
  | cons bid rest ih =>
    have first := spares_evictNow s bid count
    simp only [State.evictAll]
    split
    next stop evicted =>
      rw [evicted] at first
      exact fun fails => by cases fails; exact first rfl
    next => exact ih _ _

theorem spares_finishEvict (s : State n) : Spares s.finishEvict :=
  spares_bind (spares_evictAll _ _ _) fun _ => spares_ok _

theorem Inv.evict_fails_iff (inv : Inv cfg s) :
    s.evict cfg = .error (.failed .notMetadata) ↔ Exposed cfg s := by
  have start := inv.sweeps_start
  have after : ∀ u : State n, Spares (if u.toWrite = [] ∨ cfg.syncVariant = true then u.finishEvict
      else pure ({ u with evictor := .writing }.park .evictor)) := by
    intro u
    split
    · exact spares_finishEvict u
    · exact spares_ok _
  unfold State.evict
  rw [bind_fails_iff after, State.clockSweepNext]
  split
  next empty =>
    refine iff_of_false (spares_ok _) ?_
    rintro ⟨k, inside, here, -⟩
    have none : s.table.slots = [] := by
      rw [← List.length_eq_zero_iff, inv.books.ordered.length_slots]
      exact empty
    have slot : s.slotAt k ∈ s.table.slots := by
      simp only [State.metadataAt, State.victimAt, Bool.and_eq_true, bne_iff_ne] at here
      exact mem_slots.mpr ⟨Nat.mod_lt _ s.table.n_pos, here.1.1⟩
    rw [none] at slot
    cases slot
  next => exact (start.fails_iff (Nat.le_refl _)).trans hits_iff_exposed

/-- **Page 0 and the clock.** In every reachable state, the `ensure(pid != 0)` of the sweep fails
in the next step exactly if the evictor calls `evict` in a state in which page 0 is exposed: not
in use, not marked, and with fewer pages to take before it than a batch has. -/
theorem metadata_reached_iff {acts : List (Act n)} (act : Act n)
    (reached : (system cfg n).Reaches System.anyStep acts s) :
    exec cfg s act = .error (.failed .notMetadata) ↔
      act = .proceed .evictor ∧ s.current = some .evictor ∧ s.evictor = .loop ∧
        cfg.atTarget s.freeList.length = true ∧ Exposed cfg s := by
  have inv := inv_of_reaches reached
  constructor
  · intro fails
    cases act with simp only [exec] at fails
    | resume f =>
      split at fails <;> cases fails
    | complete f =>
      split at fails <;> cases fails
    | call c call =>
      split at fails
      next => exact absurd fails (spares_execCall s c call)
      next => cases fails
    | proceed f =>
      split at fails
      next running =>
        cases f with
        | client c => exact absurd fails (spares_proceedClient s c)
        | evictor =>
          simp only [proceedEvictor] at fails
          split at fails
          next => cases fails
          next loops =>
            split at fails
            next low => exact ⟨rfl, running, loops, low, inv.evict_fails_iff.mp fails⟩
            next => cases fails
          next => exact absurd fails (spares_finishEvict s)
          next => cases fails
      next => cases fails
  · rintro ⟨rfl, running, loops, low, exposed⟩
    simp only [exec, if_pos running, proceedEvictor, loops, if_pos low]
    exact inv.evict_fails_iff.mpr exposed

/-! ### Two sweeps in a row -/

/-- Why a step has no next state. -/
def stopOf {α : Type} : Except Stop α → Option Stop
  | .error stop => some stop
  | .ok _ => none

theorem eq_error_iff {α : Type} {x : Except Stop α} {stop : Stop} :
    x = .error stop ↔ stopOf x = some stop := by
  cases x <;> simp [stopOf]

/-- A client fills the buffer; the evictor wakes up and its first sweep takes all marks. -/
def filled : List (Act 1) :=
  [.resume .evictor, .proceed .evictor, .proceed .evictor,
    .resume (.client 0), .call 0 .allocPage, .call 0 (.unfixX 1), .call 0 .allocPage,
    .call 0 (.unfixX 2), .call 0 .allocPage, .call 0 .handleRestart,
    .resume .evictor, .proceed .evictor, .proceed .evictor]

/-- With batches of one page the second sweep ends before page 0. -/
theorem metadata_reached_iff_batch : ∃ s : State 1,
    (system smallConfig 1).Reaches System.anyStep filled s ∧ s.current = some .evictor ∧
    s.evictor = .loop ∧ smallConfig.atTarget s.freeList.length = true ∧
    ¬Exposed smallConfig s := by
  have passed : (run smallConfig filled).any (fun s : State 1 =>
      decide (s.current = some .evictor ∧ s.evictor = .loop ∧
        smallConfig.atTarget s.freeList.length = true ∧
        stopOf (exec smallConfig s (.proceed .evictor)) = none)) = true := by decide +kernel
  obtain ⟨s, ran, test⟩ := (Option.any_eq_true _ _).mp passed
  obtain ⟨running, loops, low, fine⟩ := of_decide_eq_true test
  have reached := run_reaches ran
  refine ⟨s, reached, running, loops, low, fun exposed => ?_⟩
  have fails := (metadata_reached_iff (.proceed .evictor) reached).mpr
    ⟨rfl, running, loops, low, exposed⟩
  rw [fails] at fine
  cases fine

def wideConfig : Config := { smallConfig with evictBatch := 64 }

/-- With the default batch the second sweep, which no other fiber precedes, is to evict page 0. -/
theorem metadata_reached : ∃ s : State 1,
    (system wideConfig 1).Reaches System.anyStep filled s ∧
    exec wideConfig s (.proceed .evictor) = .error (.failed .notMetadata) := by
  have passed : (run wideConfig filled).any (fun s : State 1 =>
      decide (stopOf (exec wideConfig s (.proceed .evictor)) =
        some (.failed .notMetadata))) = true := by decide +kernel
  obtain ⟨s, ran, test⟩ := (Option.any_eq_true _ _).mp passed
  exact ⟨s, run_reaches ran, eq_error_iff.mpr (of_decide_eq_true test)⟩

end UringDb.Bm
