import UringDb.BufferMgr.FreeWaiters
import UringDb.BufferMgr.Ownership

/-!
# Workers that leave

`shutdown_worker` flushes the worker's delta and deletes the rest of what the worker has kept for
itself, the local free list included. Frames that are in that list are in no list any more.
-/
namespace UringDb.BufferMgr

open PageState PageTable

variable {n : Nat} {cfg : Config n} {s : State n}

def mappedCount (cfg : Config n) (sh : Shared n) : Nat :=
  ((Finset.range cfg.table.slotCount).filter fun i => Slot.isLive (sh.table.slots i) = true).card

/-- The frames the active workers can get: those of the pools and of their own lists. -/
def obtainable (cfg : Config n) (sh : Shared n) : Nat :=
  pooled cfg sh + ∑ w ∈ activeIds cfg sh, (sh.locals w).free.length

def inHands (cfg : Config n) (s : State n) : Nat := ∑ f, ((s.fibers f).pc.owned cfg).length

/-- What the active workers have not yet added to `physUsedCount`. -/
def activeDeltas (cfg : Config n) (sh : Shared n) : Int :=
  ∑ w ∈ activeIds cfg sh, (sh.locals w).delta

/-! ### Counting the frames -/

/-- A sum over all workers of something that is zero for those that have left. -/
theorem sum_active {M : Type} [AddCommMonoid M] (sh : Shared n) (F : Local → M)
    (left : ∀ w, (sh.locals w).active = false → F (sh.locals w) = 0) :
    ∑ w ∈ Finset.range cfg.workers, F (sh.locals w) = ∑ w ∈ activeIds cfg sh, F (sh.locals w) := by
  refine (Finset.sum_subset (Finset.filter_subset _ _) fun w inRange gone => left w ?_).symm
  by_contra stays
  exact gone (mem_activeIds.mpr ⟨Finset.mem_range.mp inRange, by simpa using stays⟩)

theorem Ledger.listed_eq (ledger : Ledger cfg s) : listed cfg s.shared = obtainable cfg s.shared := by
  unfold listed weigh obtainable pooled
  rw [sum_active s.shared (fun loc => loc.free.length) fun w gone => by
    rw [(ledger.asleep w gone).1]; rfl]

theorem Ledger.deltas_eq (ledger : Ledger cfg s) :
    deltas cfg s.shared = activeDeltas cfg s.shared :=
  sum_active s.shared Local.delta fun w gone => (ledger.asleep w gone).2

theorem Ledger.nowhere (ledger : Ledger cfg s) {b : Nat} (far : max 1 cfg.pageCount ≤ b) :
    slotsOf cfg s.shared b = 0 ∧ freeCount cfg s.shared b = 0 ∧ ownedCount cfg s b = 0 := by
  have none_ := ledger.frames b
  rw [if_neg (by omega)] at none_
  unfold places at none_
  omega

theorem Ledger.sum_slotsOf (ledger : Ledger cfg s) :
    ∑ b ∈ Finset.range (max 1 cfg.pageCount), slotsOf cfg s.shared b = mappedCount cfg s.shared := by
  unfold mappedCount slotsOf
  rw [Finset.card_eq_sum_card_fiberwise (f := fun i => Slot.bid (s.shared.table.slots i))
    (t := Finset.range (max 1 cfg.pageCount))]
  · simp only [Finset.filter_filter]
  · intro i live
    have live := Finset.mem_filter.mp live
    refine Finset.mem_coe.mpr (Finset.mem_range.mpr ?_)
    by_contra far
    have none_ := (ledger.nowhere (Nat.le_of_not_lt far)).1
    have here : i ∈ (Finset.range cfg.table.slotCount).filter fun j =>
        Slot.isLive (s.shared.table.slots j) = true ∧
          Slot.bid (s.shared.table.slots j) = Slot.bid (s.shared.table.slots i) :=
      Finset.mem_filter.mpr ⟨live.1, live.2, rfl⟩
    exact absurd none_ (Nat.ne_of_gt (Finset.card_pos.mpr ⟨i, here⟩))

theorem sum_length {ι : Type} (lists : Finset ι) (F : ι → List Nat) {m : Nat}
    (none_ : ∀ b, m ≤ b → ∑ i ∈ lists, (F i).count b = 0) :
    ∑ i ∈ lists, (F i).length = ∑ b ∈ Finset.range m, ∑ i ∈ lists, (F i).count b := by
  rw [Finset.sum_comm]
  refine Finset.sum_congr rfl fun i member => length_eq_sum_count fun b inside => ?_
  by_contra far
  have zero := Finset.sum_eq_zero_iff.mp (none_ b (Nat.le_of_not_lt far)) i member
  exact List.count_eq_zero.mp zero inside

theorem Ledger.sum_freeCount (ledger : Ledger cfg s) :
    ∑ b ∈ Finset.range (max 1 cfg.pageCount), freeCount cfg s.shared b = listed cfg s.shared := by
  unfold freeCount listed weigh
  rw [Finset.sum_add_distrib]
  have none_ := fun b far => (ledger.nowhere (b := b) far).2.1
  unfold freeCount at none_
  rw [sum_length (Finset.range cfg.poolCount) s.shared.pools
      fun b far => Nat.eq_zero_of_add_eq_zero_right (none_ b far),
    sum_length (Finset.range cfg.workers) (fun w => (s.shared.locals w).free)
      fun b far => Nat.eq_zero_of_add_eq_zero_left (none_ b far)]

theorem Ledger.sum_ownedCount (ledger : Ledger cfg s) :
    ∑ b ∈ Finset.range (max 1 cfg.pageCount), ownedCount cfg s b = inHands cfg s :=
  (sum_length Finset.univ (fun f => (s.fibers f).pc.owned cfg)
    fun _ far => (ledger.nowhere far).2.2).symm

/-- Every frame is in an entry, obtainable or in the hands of an operation. -/
theorem Ledger.count (ledger : Ledger cfg s) :
    max 1 cfg.pageCount = mappedCount cfg s.shared + obtainable cfg s.shared + inHands cfg s := by
  rw [← ledger.sum_slotsOf, ← ledger.listed_eq, ← ledger.sum_freeCount, ← ledger.sum_ownedCount,
    ← Finset.sum_add_distrib, ← Finset.sum_add_distrib]
  have once : ∀ b ∈ Finset.range (max 1 cfg.pageCount), slotsOf cfg s.shared b +
      freeCount cfg s.shared b + ownedCount cfg s b = 1 := by
    intro b inRange
    have here := ledger.frames b
    rwa [if_pos (Finset.mem_range.mp inRange)] at here
  rw [Finset.sum_congr rfl once]
  simp

/-! ### The workers that remain -/

/-- The frame is in an entry, in a pool or in the list of an active worker. -/
def InPlace (cfg : Config n) (s : State n) (b : Nat) : Prop :=
  (∃ p, Mapped cfg s p b) ∨ (∃ k < cfg.poolCount, b ∈ s.shared.pools k) ∨
    ∃ w ∈ activeIds cfg s.shared, b ∈ (s.shared.locals w).free

theorem InPlace.places_pos {b : Nat} (inPlace : InPlace cfg s b) : 0 < places cfg s b := by
  unfold places
  rcases inPlace with ⟨p, mapped⟩ | ⟨k, inRange, member⟩ | ⟨w, active, member⟩
  · have here := slotsOf_pos mapped
    omega
  · have here : 0 < (s.shared.pools k).count b := List.count_pos_iff.mpr member
    have part := Finset.single_le_sum (f := fun k => (s.shared.pools k).count b)
      (fun _ _ => Nat.zero_le _) (Finset.mem_range.mpr inRange)
    unfold freeCount
    omega
  · have here : 0 < (s.shared.locals w).free.count b := List.count_pos_iff.mpr member
    have part := Finset.single_le_sum (f := fun w => (s.shared.locals w).free.count b)
      (fun _ _ => Nat.zero_le _) (Finset.mem_range.mpr (mem_activeIds.mp active).1)
    unfold freeCount
    omega

/-- Every frame is in place or in the hands of a running operation. -/
theorem Ledger.inPlace (ledger : Ledger cfg s) {b : Nat} (exists_ : b < cfg.pageCount) :
    InPlace cfg s b ∨ ∃ f, b ∈ (s.fibers f).pc.owned cfg := by
  have once := ledger.frames b
  rw [if_pos (by omega)] at once
  unfold places at once
  by_cases slot : slotsOf cfg s.shared b = 0
  · by_cases free : freeCount cfg s.shared b = 0
    · have owned : ownedCount cfg s b ≠ 0 := by omega
      obtain ⟨f, -, member⟩ := Finset.exists_ne_zero_of_sum_ne_zero owned
      exact .inr ⟨f, List.count_pos_iff.mp (Nat.pos_of_ne_zero member)⟩
    · unfold freeCount at free
      by_cases pool : ∑ k ∈ Finset.range cfg.poolCount, (s.shared.pools k).count b = 0
      · rw [pool, Nat.zero_add] at free
        obtain ⟨w, inRange, member⟩ := Finset.exists_ne_zero_of_sum_ne_zero free
        have member := List.count_pos_iff.mp (Nat.pos_of_ne_zero member)
        -- a worker that has left keeps no list
        have active : (s.shared.locals w).active = true := by
          by_contra gone
          rw [(ledger.asleep w (by simpa using gone)).1] at member
          cases member
        exact .inl (.inr (.inr ⟨w, mem_activeIds.mpr ⟨Finset.mem_range.mp inRange, active⟩, member⟩))
      · obtain ⟨k, inRange, member⟩ := Finset.exists_ne_zero_of_sum_ne_zero pool
        exact .inl (.inr (.inl ⟨k, Finset.mem_range.mp inRange,
          List.count_pos_iff.mp (Nat.pos_of_ne_zero member)⟩))
  · obtain ⟨i, here⟩ := Finset.card_pos.mp (Nat.pos_of_ne_zero slot)
    obtain ⟨inRange, live, bid⟩ := Finset.mem_filter.mp here
    exact .inl (.inl ⟨_, i, Finset.mem_range.mp inRange, ⟨live, rfl⟩, bid⟩)

theorem ledger_of_leaves {labels : List (Act n × Out)}
    (reached : (system cfg).Reaches (fun s label => Leaves s label.1) labels s) : Ledger cfg s := by
  refine reached.invariant (P := Ledger cfg) ?_ ?_
  · rintro s₀ rfl
    exact ledger_initial cfg
  · intro s₀ label s₁ ledger leaves step
    exact ledger_leaves ledger leaves step

/-- **Shutdown strands no frame**, if every worker that shuts down has an empty local free list:
every frame is in an entry, a pool, the list of an active worker or the hands of a running
operation, and once no operation runs the frames and `physUsedCount` add up. -/
theorem shutdown_strands_none (cfg : Config n) (some_ : 1 ≤ cfg.pageCount)
    (fits : cfg.pageCount < 2 ^ 64) {labels : List (Act n × Out)}
    (reached : (system cfg).Reaches (fun s label => Leaves s label.1) labels s) :
    (∀ b < cfg.pageCount, InPlace cfg s b ∨ ∃ f, b ∈ (s.fibers f).pc.owned cfg) ∧
    ((∀ f, (s.fibers f).pc = .idle) →
      (∀ b < cfg.pageCount, InPlace cfg s b) ∧
      cfg.pageCount = mappedCount cfg s.shared + obtainable cfg s.shared ∧
      u64 (s.shared.used + activeDeltas cfg s.shared) = mappedCount cfg s.shared) := by
  have ledger := ledger_of_leaves reached
  refine ⟨fun b exists_ => ledger.inPlace exists_, fun idle => ?_⟩
  have empty : ∀ f, (s.fibers f).pc.owned cfg = [] := fun f => by rw [idle f]; rfl
  have hands : inHands cfg s = 0 := Finset.sum_eq_zero fun f _ => by rw [empty f]; rfl
  have dues : ∑ f, (s.fibers f).pc.due cfg = 0 := Finset.sum_eq_zero fun f _ => by rw [idle f]; rfl
  have count := ledger.count
  have used := ledger.used
  refine ⟨fun b exists_ => ?_, by omega, ?_⟩
  · rcases ledger.inPlace exists_ with inPlace | ⟨f, held⟩
    · exact inPlace
    · rw [empty f] at held
      cases held
  · unfold account at used
    rw [dues, ledger.deltas_eq, ledger.listed_eq] at used
    unfold u64
    omega

def leavesEmpty : List (Act 2) :=
  List.flatten [takeAll, [.call 0 (.unfix ⟨.exclusive, 1, 1⟩)], steps 0 4,
    [.call 0 (.unfix ⟨.exclusive, 2, 2⟩)], steps 0 4, [.call 0 (.unfix ⟨.exclusive, 3, 3⟩)],
    steps 0 4, [.shutdownWorker 0]]

theorem shutdown_strands_none_empty :
    ∃ labels s, (system (fourFrames 1)).Reaches (fun s label => Leaves s label.1) labels s ∧
      activeIds (fourFrames 1) s.shared = ∅ ∧ mappedCount (fourFrames 1) s.shared = 4 ∧
      s.shared.used = 4 ∧ ∀ b < 4, InPlace (fourFrames 1) s b := by
  have passed : (drive (exec (fourFrames 1)) (fun s a => decide (Leaves s a))
      (initial (fourFrames 1)) leavesEmpty).any (fun (r : State 2 × List (Act 2 × Out)) =>
        decide (activeIds (fourFrames 1) r.1.shared = ∅ ∧
          mappedCount (fourFrames 1) r.1.shared = 4 ∧ r.1.shared.used = 4) &&
        (r.1.fibers 0).pc.isIdle && (r.1.fibers 1).pc.isIdle) = true := by
    decide +kernel
  obtain ⟨s, labels, reached, tested⟩ := drive_meets (system (fourFrames 1)) rfl rfl passed
  simp only [Bool.and_eq_true] at tested
  obtain ⟨⟨shown, first⟩, second⟩ := tested
  obtain ⟨gone, mapped, used⟩ := of_decide_eq_true shown
  have idle : ∀ f, (s.fibers f).pc = .idle := by
    intro f
    fin_cases f
    · exact isIdle_iff.mp first
    · exact isIdle_iff.mp second
  exact ⟨labels, s, reached, gone, mapped, used,
    ((shutdown_strands_none (fourFrames 1) (by decide) (by decide) reached).2 idle).1⟩

/-- A worker takes one frame. Its list was refilled with all three, and the other two are lost
when it shuts down: two frames are mapped, and none can be had. -/
def leavesTwo : List (Act 2) :=
  List.flatten [[.initWorker 0, .call 0 .allocPage], steps 0 13,
    [.call 0 (.unfix ⟨.exclusive, 1, 1⟩)], steps 0 4, [.shutdownWorker 0]]

theorem shutdown_strands_two :
    ∃ labels s, (system (fourFrames 1)).Reaches System.anyStep labels s ∧
      (∀ f, (s.fibers f).pc = .idle) ∧ mappedCount (fourFrames 1) s.shared = 2 ∧
      obtainable (fourFrames 1) s.shared = 0 ∧
      ¬ InPlace (fourFrames 1) s 2 ∧ ¬ InPlace (fourFrames 1) s 3 := by
  have passed : (drive (exec (fourFrames 1)) (fun _ _ => true) (initial (fourFrames 1))
      leavesTwo).any (fun (r : State 2 × List (Act 2 × Out)) =>
        decide (mappedCount (fourFrames 1) r.1.shared = 2 ∧ obtainable (fourFrames 1) r.1.shared = 0 ∧
          places (fourFrames 1) r.1 2 = 0 ∧ places (fourFrames 1) r.1 3 = 0) &&
        (r.1.fibers 0).pc.isIdle && (r.1.fibers 1).pc.isIdle) = true := by
    decide +kernel
  obtain ⟨s, labels, reached, tested⟩ := drive_anyStep (system (fourFrames 1)) rfl rfl passed
  simp only [Bool.and_eq_true] at tested
  obtain ⟨⟨shown, first⟩, second⟩ := tested
  obtain ⟨mapped, none_, second_, third⟩ := of_decide_eq_true shown
  refine ⟨labels, s, reached, fun f => ?_, mapped,
    none_, fun kept => ?_, fun kept => ?_⟩
  · fin_cases f
    · exact isIdle_iff.mp first
    · exact isIdle_iff.mp second
  · exact absurd kept.places_pos (by rw [second_]; decide)
  · exact absurd kept.places_pos (by rw [third]; decide)

end UringDb.BufferMgr
