import UringDb.BufferMgr.Reservation

/-!
# Who sweeps which page

A sweep takes the pages whose partition is congruent to the worker's id modulo the number of
active workers. The ids stay as they were assigned while workers come and go, so how the pages
are divided depends on which workers are active and not only on how many.
-/
namespace UringDb.BufferMgr

open PageState PageTable

variable {n : Nat} {cfg : Config n} {s s' : State n}

def activeIds (cfg : Config n) (sh : Shared n) : Finset Nat :=
  (Finset.range cfg.workers).filter fun w => (sh.locals w).active

theorem mem_activeIds {sh : Shared n} {w : Nat} :
    w ∈ activeIds cfg sh ↔ w < cfg.workers ∧ (sh.locals w).active = true := by
  simp [activeIds]

/-- The sweep of `worker` takes `pid` for its own. -/
def Owns (cfg : Config n) (sh : Shared n) (worker pid : Nat) : Prop :=
  cfg.ownerPartition pid % max 1 sh.activeWorkers = worker % max 1 sh.activeWorkers

instance decidableOwns (cfg : Config n) (sh : Shared n) (worker pid : Nat) :
    Decidable (Owns cfg sh worker pid) := inferInstanceAs (Decidable (_ = _))

/-! ### Registration -/

theorem activeIds_congr {sh sh' : Shared n}
    (active : ∀ w, (sh'.locals w).active = (sh.locals w).active) :
    activeIds cfg sh' = activeIds cfg sh := by
  unfold activeIds
  simp only [active]

theorem activeIds_init {sh : Shared n} {w : Nat} (inRange : w < cfg.workers) :
    activeIds cfg (initWorker sh w) = Insert.insert w (activeIds cfg sh) := by
  ext v
  rw [Finset.mem_insert, mem_activeIds, mem_activeIds]
  by_cases here : v = w
  · subst here
    simp [initWorker, Shared.setLocal, inRange]
  · simp [initWorker, Shared.setLocal, here]

theorem activeIds_shutdown (sh : Shared n) (w : Nat) :
    activeIds cfg (shutdownWorker sh w) = (activeIds cfg sh).erase w := by
  ext v
  rw [Finset.mem_erase, mem_activeIds, mem_activeIds]
  by_cases here : v = w
  · subst here
    simp [shutdownWorker, Shared.setLocal]
  · simp [shutdownWorker, Shared.setLocal, here]

/-- `active_worker_count` is the number of registered workers. -/
def Registered (cfg : Config n) (s : State n) : Prop :=
  s.shared.activeWorkers = (activeIds cfg s.shared).card

theorem registered_exec {act : Act n} {out : Out} (registered : Registered cfg s)
    (execs : exec cfg s act = some (s', out)) : Registered cfg s' := by
  unfold Registered at registered ⊢
  cases act with
  | call f op =>
    simp only [exec] at execs
    split at execs
    next allowed =>
      obtain ⟨r, called, put⟩ := Option.map_eq_some_iff.mp execs
      cases put
      have balanced := call_balanced (isIdle_iff.mp allowed.1) called
      rw [activeIds_congr balanced.active, balanced.workers, registered]
    next => cases execs
  | step f choice =>
    obtain ⟨r, stepped, put⟩ := Option.map_eq_some_iff.mp execs
    cases put
    have balanced := step_balanced stepped
    rw [activeIds_congr balanced.active, balanced.workers, registered]
  | initWorker w =>
    simp only [exec] at execs
    split at execs <;> cases execs
    next allowed =>
      have absent : w ∉ activeIds cfg s.shared := by
        simp [mem_activeIds, allowed.2]
      rw [activeIds_init allowed.1, Finset.card_insert_of_notMem absent, ← registered]
      rfl
  | shutdownWorker w =>
    simp only [exec] at execs
    split at execs <;> cases execs
    next allowed =>
      have present : w ∈ activeIds cfg s.shared := 
        mem_activeIds.mpr ⟨allowed.1, allowed.2.1⟩
      rw [activeIds_shutdown, Finset.card_erase_of_mem present, ← registered]
      rfl

theorem registered_reaches {labels : List (Act n × Out)}
    (reached : (system cfg).Reaches System.anyStep labels s) : Registered cfg s := by
  refine reached.invariant (P := Registered cfg) ?_
    fun _ _ _ registered _ stepped => registered_exec registered stepped
  rintro _ rfl
  simp [Registered, activeIds, initial]

/-! ### The division of the pages -/

/-- No two active workers have ids congruent modulo the number of active workers. -/
def SpreadIds (cfg : Config n) (sh : Shared n) : Prop :=
  ∀ v ∈ activeIds cfg sh, ∀ w ∈ activeIds cfg sh,
    v % sh.activeWorkers = w % sh.activeWorkers → v = w

instance decidableSpreadIds (cfg : Config n) (sh : Shared n) : Decidable (SpreadIds cfg sh) :=
  inferInstanceAs (Decidable (∀ v ∈ activeIds cfg sh, ∀ w ∈ activeIds cfg sh,
    v % sh.activeWorkers = w % sh.activeWorkers → v = w))

/-- As many ids as residues, and no residue twice: every residue is taken. -/
theorem SpreadIds.covers (spread : SpreadIds cfg s.shared) (registered : Registered cfg s)
    {residue : Nat} (inRange : residue < s.shared.activeWorkers) :
    ∃ w ∈ activeIds cfg s.shared, w % s.shared.activeWorkers = residue := by
  have inside : (activeIds cfg s.shared).image (· % s.shared.activeWorkers) ⊆
      Finset.range s.shared.activeWorkers := by
    intro x member
    obtain ⟨w, -, rfl⟩ := Finset.mem_image.mp member
    exact Finset.mem_range.mpr (Nat.mod_lt _ (Nat.zero_lt_of_lt inRange))
  have many : (Finset.range s.shared.activeWorkers).card ≤
      ((activeIds cfg s.shared).image (· % s.shared.activeWorkers)).card := by
    rw [Finset.card_image_of_injOn fun v hv w hw same => spread v hv w hw same,
      Finset.card_range, registered]
  have all := Finset.eq_of_subset_of_card_le inside many
  have member : residue ∈ (activeIds cfg s.shared).image (· % s.shared.activeWorkers) := by
    rw [all]
    exact Finset.mem_range.mpr inRange
  exact Finset.mem_image.mp member

/-- A residue of the worker count is the partition of the page with that number. -/
theorem ownerPartition_small (room : cfg.workers ≤ 2 ^ cfg.partitionBits) {pid : Nat}
    (small : pid < cfg.workers) : cfg.ownerPartition pid = pid := by
  rw [Config.ownerPartition, Ring.and_mask]
  exact Nat.mod_eq_of_lt (lt_of_lt_of_le small room)

/-- **Ownership covers all pages.** With a power of two of partitions, at least as many as worker
slots, and some worker active, every page has exactly one active worker that takes it for its own
if and only if the ids of the active workers are different modulo their number. -/
theorem pages_owned_once_iff (cfg : Config n) (room : cfg.workers ≤ 2 ^ cfg.partitionBits)
    {labels : List (Act n × Out)} (reached : (system cfg).Reaches System.anyStep labels s)
    (some_ : (activeIds cfg s.shared).Nonempty) :
    (∀ pid, (∃ w ∈ activeIds cfg s.shared, Owns cfg s.shared w pid) ∧
      ∀ v ∈ activeIds cfg s.shared, ∀ w ∈ activeIds cfg s.shared,
        Owns cfg s.shared v pid → Owns cfg s.shared w pid → v = w) ↔
    SpreadIds cfg s.shared := by
  have registered := registered_reaches reached
  have positive : 0 < s.shared.activeWorkers := by
    rw [registered]
    exact Finset.card_pos.mpr some_
  have count : max 1 s.shared.activeWorkers = s.shared.activeWorkers := Nat.max_eq_right positive
  unfold Owns
  rw [count]
  constructor
  · intro once v hv w hw same
    -- the page whose number is the common residue belongs to both
    have few : s.shared.activeWorkers ≤ cfg.workers := by
      rw [registered]
      exact (Finset.card_filter_le _ _).trans (by rw [Finset.card_range])
    have small := Nat.mod_lt v positive
    have here := ownerPartition_small room (lt_of_lt_of_le small few)
    refine (once (v % s.shared.activeWorkers)).2 v hv w hw ?_ ?_
    · rw [here, Nat.mod_mod]
    · rw [here, Nat.mod_mod, same]
  · intro spread pid
    refine ⟨?_, fun v hv w hw ownedV ownedW => spread v hv w hw (ownedV.symm.trans ownedW)⟩
    obtain ⟨w, member, same⟩ := spread.covers registered (Nat.mod_lt (cfg.ownerPartition pid) positive)
    exact ⟨w, member, same.symm⟩

def threeSlots : Config 0 where
  pageCount := 4
  target := 2
  evictBatch := 1
  table := .ofBits 3
  poolBits := 0
  partitionBits := 2
  workers := 3
  wid := fun f => f
  wid_lt := fun f => f.elim0
  evictor := fun _ => false

/-- With all three workers active every page has its owner. -/
theorem pages_owned_once_three :
    ∃ labels s, (system threeSlots).Reaches System.anyStep labels s ∧
      activeIds threeSlots s.shared = {0, 1, 2} ∧
      ∀ pid, ∃ w ∈ activeIds threeSlots s.shared, Owns threeSlots s.shared w pid := by
  have passed : (drive (exec threeSlots) (fun _ _ => true) (initial threeSlots)
      [.initWorker 0, .initWorker 1, .initWorker 2]).any (fun r =>
        decide (activeIds threeSlots r.1.shared = {0, 1, 2} ∧ SpreadIds threeSlots r.1.shared)) =
      true := by
    decide +kernel
  obtain ⟨s, labels, reached, tested⟩ := drive_anyStep (system threeSlots) rfl rfl passed
  obtain ⟨all, spread⟩ := of_decide_eq_true tested
  have owned := (pages_owned_once_iff threeSlots (by decide) reached (by rw [all]; decide)).mpr spread
  exact ⟨labels, s, reached, all, fun pid => (owned pid).1⟩

/-- Worker 1 has left. The ids 0 and 2 that remain are both 0 modulo the two active workers: both
sweep page 0, and nobody sweeps page 1. -/
theorem pages_owned_twice :
    ∃ labels s, (system threeSlots).Reaches System.anyStep labels s ∧
      activeIds threeSlots s.shared = {0, 2} ∧
      (Owns threeSlots s.shared 0 0 ∧ Owns threeSlots s.shared 2 0) ∧
      ∀ w ∈ activeIds threeSlots s.shared, ¬ Owns threeSlots s.shared w 1 := by
  have passed : (drive (exec threeSlots) (fun _ _ => true) (initial threeSlots)
      [.initWorker 0, .initWorker 1, .initWorker 2, .shutdownWorker 1]).any
      (fun (r : State 0 × List (Act 0 × Out)) => decide (activeIds threeSlots r.1.shared = {0, 2} ∧
          (Owns threeSlots r.1.shared 0 0 ∧ Owns threeSlots r.1.shared 2 0) ∧
          ∀ w ∈ activeIds threeSlots r.1.shared, ¬ Owns threeSlots r.1.shared w 1)) = true := by
    decide +kernel
  obtain ⟨s, labels, reached, tested⟩ := drive_anyStep (system threeSlots) rfl rfl passed
  exact ⟨labels, s, reached, of_decide_eq_true tested⟩

end UringDb.BufferMgr
