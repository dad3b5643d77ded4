import UringDb.BufferMgr.Moves

/-!
# Frames move between lists

Refills, pops and releases move frames between the shared pools, the workers' local lists
and the hands of a fiber. No frame is ever in two of them.
-/
namespace UringDb.BufferMgr

open PageState PageTable

variable {n : Nat} {cfg : Config n} {s : State n} {f : Fin n} {sh : Shared n}

theorem pool_lt (cfg : Config n) (x : Nat) : x &&& cfg.poolMask < cfg.poolCount := by
  rw [Config.poolMask, Config.poolCount, Ring.and_mask]
  exact Nat.mod_lt _ (Nat.two_pow_pos _)

/-! ### Something counted over all lists -/

/-- `F` summed over the shared pools and the workers' local lists. -/
def weigh (cfg : Config n) (F : List Nat → Nat) (sh : Shared n) : Nat :=
  (∑ k ∈ Finset.range cfg.poolCount, F (sh.pools k)) +
    ∑ w ∈ Finset.range cfg.workers, F (sh.locals w).free

section Weigh

variable (F : List Nat → Nat)

theorem weigh_setPool (sh : Shared n) {k : Nat} (inRange : k < cfg.poolCount) (l : List Nat) :
    weigh cfg F (sh.setPool k l) + F (sh.pools k) = weigh cfg F sh + F l := by
  have moved := sum_update (Finset.range cfg.poolCount) sh.pools k l F
    (Finset.mem_range.mpr inRange)
  unfold weigh
  simp only [Shared.setPool]
  omega

theorem weigh_setLocal (sh : Shared n) {w : Nat} (inRange : w < cfg.workers) (loc : Local) :
    weigh cfg F (sh.setLocal w loc) + F (sh.locals w).free = weigh cfg F sh + F loc.free := by
  have moved := sum_update (Finset.range cfg.workers) sh.locals w loc (fun l => F l.free)
    (Finset.mem_range.mpr inRange)
  unfold weigh
  simp only [Shared.setLocal]
  omega

theorem weigh_accum (d : Int) : weigh cfg F (accumPhysUsed cfg sh f d) = weigh cfg F sh := by
  have moved : ∀ delta, weigh cfg F (sh.setLocal (cfg.wid f)
      { ownLocal cfg sh f with delta := delta }) = weigh cfg F sh := fun delta => by
    have := weigh_setLocal F sh (cfg.wid_lt f) { ownLocal cfg sh f with delta := delta }
    simp only [ownLocal] at this ⊢
    omega
  unfold accumPhysUsed
  dsimp only
  split
  · exact moved 0
  · exact moved _

variable (additive : ∀ l m, F (l ++ m) = F l + F m)

include additive

theorem weigh_refill (step : Nat) :
    weigh cfg F (refillFromPool cfg sh f step) = weigh cfg F sh := by
  unfold refillFromPool ownLocal
  dsimp only
  generalize take : min _ (List.length _) = m
  generalize at_ : (cfg.freePoolIndexForWorker (cfg.wid f) + step) &&& cfg.poolMask = k
  have inRange : k < cfg.poolCount := at_ ▸ pool_lt cfg _
  have out := weigh_setPool F sh inRange ((sh.pools k).drop m)
  have into := weigh_setLocal F (sh.setPool k ((sh.pools k).drop m)) (cfg.wid_lt f)
    { sh.locals (cfg.wid f) with free := (sh.pools k).take m ++ (sh.locals (cfg.wid f)).free }
  have whole : F ((sh.pools k).take m) + F ((sh.pools k).drop m) = F (sh.pools k) := by
    rw [← additive, List.take_append_drop]
  have same : ((sh.setPool k ((sh.pools k).drop m)).locals (cfg.wid f)).free =
      (sh.locals (cfg.wid f)).free := rfl
  simp only [additive, same] at into
  omega

theorem weigh_release (bid : Nat) (prefer : Bool) :
    weigh cfg F (releaseFreeBid cfg sh f bid prefer) = weigh cfg F sh + F [bid] := by
  have cons : ∀ l, F (bid :: l) = F [bid] + F l := fun l => additive [bid] l
  unfold releaseFreeBid ownLocal
  dsimp only
  split
  · have moved := weigh_setLocal F sh (cfg.wid_lt f)
      { sh.locals (cfg.wid f) with free := bid :: (sh.locals (cfg.wid f)).free }
    dsimp only at moved
    rw [cons] at moved
    omega
  · have moved := weigh_setPool F sh (pool_lt cfg bid) (bid :: sh.pools (bid &&& cfg.poolMask))
    rw [cons] at moved
    unfold Config.freePoolIndexForBid
    omega

end Weigh

theorem freeCount_setPool (sh : Shared n) {k : Nat} (inRange : k < cfg.poolCount) (l : List Nat) (b : Nat) :
    freeCount cfg (sh.setPool k l) b + (sh.pools k).count b = freeCount cfg sh b + l.count b :=
  weigh_setPool (List.count b) sh inRange l

theorem freeCount_setLocal (sh : Shared n) {w : Nat} (inRange : w < cfg.workers) (loc : Local) (b : Nat) :
    freeCount cfg (sh.setLocal w loc) b + (sh.locals w).free.count b =
      freeCount cfg sh b + loc.free.count b :=
  weigh_setLocal (List.count b) sh inRange loc

theorem freeCount_push (cfg : Config n) (sh : Shared n) (k : Nat) (l : List Nat) (b : Nat) :
    freeCount cfg (sh.setPool k (l ++ sh.pools k)) b ≤ freeCount cfg sh b + l.count b := by
  by_cases inRange : k < cfg.poolCount
  · have moved := freeCount_setPool sh inRange (l ++ sh.pools k) b
    rw [List.count_append] at moved
    omega
  · have same : ∀ j ∈ Finset.range cfg.poolCount,
        (Function.update sh.pools k (l ++ sh.pools k) j).count b = (sh.pools j).count b := by
      intro j member
      have ne : j ≠ k := by
        rintro rfl
        exact inRange (Finset.mem_range.mp member)
      simp [ne]
    have : freeCount cfg (sh.setPool k (l ++ sh.pools k)) b = freeCount cfg sh b := by
      simp only [freeCount, Shared.setPool, Finset.sum_congr rfl same]
    omega

theorem freeCount_accum (d : Int) (b : Nat) :
    freeCount cfg (accumPhysUsed cfg sh f d) b = freeCount cfg sh b := weigh_accum (List.count b) d

theorem freeCount_refill (step b : Nat) :
    freeCount cfg (refillFromPool cfg sh f step) b = freeCount cfg sh b :=
  weigh_refill (List.count b) (fun _ _ => List.count_append) step

theorem freeCount_release (bid : Nat) (prefer : Bool) (b : Nat) :
    freeCount cfg (releaseFreeBid cfg sh f bid prefer) b =
      freeCount cfg sh b + [bid].count b :=
  weigh_release (List.count b) (fun _ _ => List.count_append) bid prefer

/-! ### Steps that move frames -/

theorem Inv.transfer {pc pc' : Pc} (inv : Inv cfg s) (owned : List Nat)
    (at_ : (s.fibers f).pc = pc) (table : sh.table = s.shared.table)
    (frames : sh.frames = s.shared.frames) (sections : sh.sections = s.shared.sections)
    (balance : ∀ b, freeCount cfg sh b + owned.count b ≤
      freeCount cfg s.shared b + (pc.owned cfg).count b)
    (lands : pc'.Lands cfg owned pc.inEvict pc.guard) (agree : (s.shared.table.pcs f).canCall = true)
    (plain : pc.locks = [] ∧ pc.setsUp = none ∧ pc.committed = none) :
    Inv cfg (s.after f sh { s.fibers f with pc := pc' }) := by
  have locks : ({ s.fibers f with pc := pc' } : Fiber).locks = (s.fibers f).locks := by
    simp only [Fiber.locks, lands.locks, at_, plain.1]
  have sets : pc'.setsUp = (s.fibers f).pc.setsUp := by rw [lands.setsUp, at_, plain.2.1]
  refine inv.quiet (table ▸ inv.table) (fun u _ => by rw [table])
    (by rw [table]; exact SameEntries.refl _) (fun b => by rw [frames]; exact ⟨rfl, rfl⟩) sections
    (fun b => ?_) (fun b => ?_) (fun b => ?_) ?_ (lands.ok s) ?_ (fun g member => ?_)
    (fun evicts => ?_) (inv.fibers f).guards ?_
  · rw [lands.owned, at_]
    exact balance b
  · simp only [Fiber.exclusives, locks, sets]
  · simp only [Fiber.shareds, locks]
  · rw [lands.committed, at_, plain.2.2]
  · rw [table]
    exact lands.agree _ agree
  · exact inv.handed_at at_ g (lands.guard g member)
  · exact inv.alone_at at_ (lands.inEvict.symm.trans evicts)
  · rw [locks]
    exact (inv.fibers f).locks

theorem Inv.step_pop {need : Need} {r : Result n} (inv : Inv cfg s)
    (at_ : (s.fibers f).pc = .pop need) (stepped : pop cfg s.shared f (s.fibers f) need = some r) :
    Inv cfg (s.after f r.shared r.fiber) := by
  unfold pop ownLocal at stepped
  dsimp only at stepped
  split at stepped
  · cases stepped
  next bid free list =>
    have moved := fun b => freeCount_setLocal s.shared (cfg.wid_lt f)
      { s.shared.locals (cfg.wid f) with free := free } b
    have count : ∀ b, (s.shared.locals (cfg.wid f)).free.count b = free.count b + [bid].count b :=
      fun b => by rw [list, ← List.singleton_append, List.count_append, Nat.add_comm]
    have take : ∀ pc' : Pc, pc'.Lands cfg [bid] false none →
        Inv cfg (s.after f (s.shared.setLocal (cfg.wid f)
          { s.shared.locals (cfg.wid f) with free := free }) { s.fibers f with pc := pc' }) :=
      fun pc' lands => inv.transfer _ at_ rfl rfl rfl (fun b => by
        have := moved b
        have := count b
        change _ ≤ _ + ([] : List Nat).count b
        dsimp only at *
        rw [List.count_nil]
        omega) lands (inv.agree_at at_) ⟨rfl, rfl, rfl⟩
    cases need with
    | alloc =>
      cases stepped
      split
      · refine inv.transfer [] at_ rfl rfl rfl (fun b => ?_) (Pc.Lands.idle _)
          (inv.agree_at at_) ⟨rfl, rfl, rfl⟩
        have := moved b
        have := count b
        change _ ≤ _ + ([] : List Nat).count b
        dsimp only at *
        rw [List.count_nil]
        omega
      · exact take _ ⟨rfl, rfl, rfl, rfl, rfl, handed_none, fun _ => trivial, fun _ free => free⟩
    | fault p caller =>
      dsimp only at stepped
      split at stepped <;> cases stepped
      exact take _ ⟨rfl, rfl, rfl, rfl, rfl, handed_none, fun _ => trivial, fun _ free => free⟩

theorem Inv.step_release {p bid : Nat} {caller : Caller} (inv : Inv cfg s)
    (at_ : (s.fibers f).pc = .loseRelease p bid caller) (prefer : Bool) :
    Inv cfg (s.after f (releaseFreeBid cfg s.shared f bid prefer)
      { s.fibers f with pc := .loseLookup p caller }) := by
  have same : (releaseFreeBid cfg s.shared f bid prefer).table = s.shared.table ∧
      (releaseFreeBid cfg s.shared f bid prefer).frames = s.shared.frames ∧
      (releaseFreeBid cfg s.shared f bid prefer).sections = s.shared.sections := by
    unfold releaseFreeBid
    dsimp only
    split <;> exact ⟨rfl, rfl, rfl⟩
  refine inv.transfer [] at_ same.1 same.2.1 same.2.2 (fun b => ?_)
    ⟨rfl, rfl, rfl, rfl, rfl, handed_none, fun _ => trivial, fun _ free => Or.inl free⟩
    (inv.agree_at at_) ⟨rfl, rfl, rfl⟩
  rw [freeCount_release]
  exact le_refl _

theorem count_filter (p : Nat → Bool) (l : List Nat) (b : Nat) :
    (l.filter p).count b = if p b then l.count b else 0 := by
  split
  next keeps => exact List.count_filter keeps
  next drops =>
    refine List.count_eq_zero.mpr fun member => drops ?_
    exact (List.mem_filter.mp member).2

theorem Inv.step_evRelease {ev : Eviction} {ph : Phase} {pool : Nat} {r : Result n}
    (inv : Inv cfg s) (at_ : (s.fibers f).pc = .evRelease ev ph pool)
    (stepped : evRelease cfg s.shared (s.fibers f) ev ph pool = some r) :
    Inv cfg (s.after f r.shared r.fiber) := by
  have parts : ∀ b, (ev.freed.filter fun bid => cfg.freePoolIndexForBid bid == pool).count b +
      (ev.freed.filter fun bid => pool + 1 ≤ cfg.freePoolIndexForBid bid).count b ≤
      (ev.freed.filter fun bid => pool ≤ cfg.freePoolIndexForBid bid).count b := by
    intro b
    simp only [count_filter, beq_iff_eq, decide_eq_true_eq]
    split_ifs <;> omega
  have pushed := fun b => freeCount_push cfg s.shared pool
    (ev.freed.filter fun bid => cfg.freePoolIndexForBid bid == pool).reverse b
  simp only [List.count_reverse] at pushed
  unfold evRelease at stepped
  cases stepped
  dsimp only
  split
  · refine inv.transfer _ at_ rfl rfl rfl (fun b => ?_)
      ⟨rfl, rfl, rfl, rfl, rfl, handed_none, fun _ => trivial, fun _ free => free⟩
      (inv.agree_at at_) ⟨rfl, rfl, rfl⟩
    have := pushed b
    have := parts b
    simp only [Pc.owned]
    omega
  · refine inv.transfer [] at_ rfl rfl rfl (fun b => ?_)
      ⟨rfl, rfl, rfl, rfl, rfl, handed_none, fun _ => trivial, fun _ free => free⟩
      (inv.agree_at at_) ⟨rfl, rfl, rfl⟩
    have := pushed b
    have := parts b
    simp only [Pc.owned, List.count_nil]
    omega

/-! ### Workers -/

/-- Frames may be lost with a worker's list; nothing else changes. -/
theorem Inv.shrink (inv : Inv cfg s) (table : sh.table = s.shared.table)
    (frames : sh.frames = s.shared.frames) (sections : sh.sections = s.shared.sections)
    (fewer : ∀ b, freeCount cfg sh b ≤ freeCount cfg s.shared b) :
    Inv cfg ⟨sh, s.fibers⟩ := by
  have alike : Alike cfg s ⟨sh, s.fibers⟩ :=
    { state := fun b => by simp only [word, frames]
      pid := fun b => by rw [frames]
      mapped := fun p b => by simp only [Mapped, table]
      committed := fun _ _ => Iff.rfl
      sections := fun p => by rw [sections] }
  refine
    { table := table ▸ inv.table
      mapped := fun p b here => ?_
      once := fun b => ?_
      locks := fun b => ?_
      fibers := fun u => FiberOk.stable (s := s) ?_ (inv.fibers u) }
  · rw [alike.pid]
    exact inv.mapped p b ((alike.mapped p b).mp here)
  · refine le_trans ?_ (inv.once b)
    have slots : slotsOf cfg sh b = slotsOf cfg s.shared b := by simp only [slotsOf, table]
    have := fewer b
    simp only [places, ownedCount, slots]
    omega
  · have old := inv.locks b
    unfold LockOk at old ⊢
    rw [alike.state]
    exact old
  · exact
      { fiber := rfl
        table := by rw [table]
        later := fun b => (alike.version b).ge
        kept := fun b _ => alike.kept b
        locks := fun lock member => (alike.mapped _ _).mpr ((inv.fibers u).locks lock member)
        own := fun b _ => ⟨alike.version b, alike.pid b⟩
        committed := fun p b at_ => by
          rw [alike.state]
          exact ((inv.fibers u).pc.committed at_).2 }

theorem freeCount_clear (sh : Shared n) {w : Nat} (inRange : w < cfg.workers) (delta : Int) (active : Bool) (b : Nat) :
    freeCount cfg (sh.setLocal w ⟨[], delta, active⟩) b ≤ freeCount cfg sh b := by
  have moved := freeCount_setLocal sh inRange ⟨[], delta, active⟩ b
  rw [List.count_nil] at moved
  omega

end UringDb.BufferMgr
