import UringDb.BufferMgr.Frames

/-!
# Changes of one page-table entry

A frame enters the page table when the insert of its owner succeeds and leaves it when
the compare-and-swap of `erase_if` does: its owner then is the evictor.
-/
namespace UringDb.BufferMgr

open PageState PageTable

variable {n : Nat} {cfg : Config n} {s : State n} {f : Fin n} {fib : Fiber} {sh : Shared n}

/-- What a slot contributes to the places of frame `b`. -/
def share (b raw : Nat) : Nat := if Slot.isLive raw = true ∧ Slot.bid raw = b then 1 else 0

theorem slotsOf_setSlot {i raw : Nat} (inRange : i < cfg.table.slotCount)
    (slots : sh.table.slots = setSlot s.shared.table.slots i raw) (b : Nat) :
    slotsOf cfg sh b + share b (s.shared.table.slots i) =
      slotsOf cfg s.shared b + share b raw := by
  have updated : setSlot s.shared.table.slots i raw =
      Function.update s.shared.table.slots i raw := by
    funext j
    by_cases here : j = i
    · subst here
      simp [setSlot_same]
    · simp [here, setSlot_ne _ _ here]
  have count := sum_update (Finset.range cfg.table.slotCount) s.shared.table.slots i raw (share b)
    (Finset.mem_range.mpr inRange)
  unfold slotsOf
  rw [Finset.card_filter, Finset.card_filter, slots, updated]
  exact count

theorem Inv.inserted {p b i : Nat} (inv : Inv cfg s)
    (table : PageTable.Inv cfg.table sh.table)
    (pcs : ∀ u, u ≠ f → sh.table.pcs u = s.shared.table.pcs u)
    (can : CanInsert cfg.table s.shared.table.slots p b i)
    (slots : sh.table.slots = setSlot s.shared.table.slots i (Slot.word p b))
    (frames : sh.frames = s.shared.frames) (sections : sh.sections = s.shared.sections)
    (free : ∀ c, freeCount cfg sh c = freeCount cfg s.shared c)
    (pid : (s.shared.frames b).pid = p) (sets : (s.fibers f).pc.setsUp = some b)
    (owned : (s.fibers f).pc.owned cfg = [b])
    (committed : (s.fibers f).pc.committed = none)
    (locks : fib.locks = ⟨.exclusive, p, b⟩ :: (s.fibers f).locks)
    (owned' : fib.pc.owned cfg = []) (sets' : fib.pc.setsUp = none)
    (committed' : fib.pc.committed = none) (pc : ∀ t, PcOk cfg t fib.pc)
    (agree : Agree fib.pc (sh.table.pcs f)) (handed : fib.pc.guard = none)
    (alone : fib.pc.inEvict = false) (guards : fib.guards = (s.fibers f).guards) :
    Inv cfg (s.after f sh fib) := by
  have inRange : i < cfg.table.slotCount := by
    obtain ⟨d, -, rfl, -⟩ := can.place
    exact cfg.table.probe_lt p d
  have entry : ∀ j q c, Entry sh.table.slots j q c ↔
      (j = i ∧ q = p ∧ c = b) ∨ Entry s.shared.table.slots j q c := by
    intro j q c
    rw [slots]
    by_cases here : j = i
    · subst here
      have dead : ¬ Entry s.shared.table.slots j q c := by
        rintro ⟨⟨live, -⟩, -⟩
        rw [can.dead] at live
        cases live
      unfold Entry
      rw [can.holds_new, setSlot_same, Slot.bid_word p b can.fits]
      constructor
      · rintro ⟨rfl, rfl⟩
        exact Or.inl ⟨rfl, rfl, rfl⟩
      · rintro (⟨-, rfl, rfl⟩ | old)
        · exact ⟨rfl, rfl⟩
        · exact absurd old dead
    · unfold Entry
      rw [holds_setSlot_ne _ here, setSlot_ne _ _ here]
      simp [here]
  have mapped : ∀ q c, Mapped cfg (s.after f sh fib) q c ↔ (q = p ∧ c = b) ∨ Mapped cfg s q c := by
    intro q c
    constructor
    · rintro ⟨j, hj, at_⟩
      rcases (entry j q c).mp at_ with ⟨-, rfl, rfl⟩ | old
      · exact Or.inl ⟨rfl, rfl⟩
      · exact Or.inr ⟨j, hj, old⟩
    · rintro (⟨rfl, rfl⟩ | ⟨j, hj, old⟩)
      · exact ⟨i, inRange, (entry i q c).mpr (Or.inl ⟨rfl, rfl, rfl⟩)⟩
      · exact ⟨j, hj, (entry j q c).mpr (Or.inr old)⟩
  have words : ∀ c, word (s.after f sh fib) c = word s c := fun c => by
    simp only [word, after_shared, frames]
  have same : fib.pc.committed = (s.fibers f).pc.committed := committed'.trans committed.symm
  have kept : ∀ c, Kept cfg s (s.after f sh fib) c := fun c =>
    { pid := by rw [after_shared, frames]
      mapped := fun q at_ => Or.inl ((mapped q c).mpr (Or.inr at_))
      committed := fun q at_ => (committed_after s f sh fib same).mpr at_
      evicting := fun _ set => by rwa [words]
      sections := fun _ q _ _ => by rw [after_shared, sections] }
  have later : ∀ c, version s c ≤ version (s.after f sh fib) c := fun c => by
    simp only [version, words, le_refl]
  refine inv.next (f := f) table (fun q c at_ => ?_) (fun c => ?_) (fun c => ?_) (fun u ne => ?_) ?_
  · rw [after_shared, frames]
    rcases (mapped q c).mp at_ with ⟨rfl, rfl⟩ | old
    · exact pid
    · exact inv.mapped q c old
  · have count := sum_after s f sh fib fun fib => (fib.pc.owned cfg).count c
    have slot := slotsOf_setSlot inRange slots c
    have dead : share c (s.shared.table.slots i) = 0 := by simp [share, can.dead]
    have live : share c (Slot.word p b) = if b = c then 1 else 0 := by
      simp [share, Slot.isLive_word p b can.fits, Slot.bid_word p b can.fits]
    rw [owned, owned', List.count_nil, List.count_singleton] at count
    have free := free c
    unfold places ownedCount
    rw [after_shared]
    rw [dead, live] at slot
    simp only [beq_iff_eq] at count
    omega
  · refine inv.lockOk_after (by rw [words]) ?_ ?_
    · unfold Fiber.exclusives
      rw [locks, sets, sets', List.countP_cons]
      simp
    · unfold Fiber.shareds
      rw [locks, List.countP_cons]
      simp
  · exact
      { fiber := after_ne s f sh fib ne
        table := pcs u ne
        later := later
        kept := fun c _ => kept c
        locks := fun lock member => (mapped _ _).mpr (Or.inr ((inv.fibers u).locks lock member))
        own := fun c _ => ⟨by simp only [version, words], by rw [after_shared, frames]⟩
        committed := fun q c at_ => by
          rw [words]
          exact ((inv.fibers u).pc.committed at_).2 }
  · refine fiberOk_after (pc _) agree (by simp [handed]) (by simp [alone]) (fun g held =>
      ((inv.fibers f).guards g (guards ▸ held)).stable (later _) (fun _ => kept _)) ?_
    rw [locks]
    intro lock member
    rcases List.mem_cons.mp member with rfl | old
    · exact (mapped _ _).mpr (Or.inl ⟨rfl, rfl⟩)
    · exact (mapped _ _).mpr (Or.inr ((inv.fibers f).locks lock old))

theorem Inv.unlocked (inv : Inv cfg s) {b : Nat} (free : (word s b).free = true) (u : Fin n)
    {lock : Held} (member : lock ∈ (s.fibers u).locks) : lock.bid ≠ b := by
  rintro rfl
  have old := inv.locks lock.bid
  rw [free_iff] at free
  cases kind : lock.kind with
  | shared =>
    have holds := (shared_of_lock member kind).trans_le
      (le_sum (fun u => (s.fibers u).shareds lock.bid) u)
    unfold LockOk shareds at old
    simp only [locked, marked, PageState.unlocked, maxShared] at old free
    omega
  | exclusive =>
    have holds := (exclusive_of_lock member kind).trans_le
      (le_sum (fun u => (s.fibers u).exclusives lock.bid) u)
    unfold LockOk exclusives at old
    simp only [locked, marked, PageState.unlocked, maxShared] at old free
    omega

/-- The compare-and-swap of `erase_if` succeeded on a frame that is protected and unlocked. -/
theorem Inv.erased {q b i : Nat} (inv : Inv cfg s)
    (table : PageTable.Inv cfg.table sh.table)
    (pcs : ∀ u, u ≠ f → sh.table.pcs u = s.shared.table.pcs u)
    (inRange : i < cfg.table.slotCount) (entryAt : Entry s.shared.table.slots i q b)
    (slots : sh.table.slots = setSlot s.shared.table.slots i Slot.tombstoneSlot)
    (frames : sh.frames = s.shared.frames) (sections : sh.sections = s.shared.sections)
    (free : ∀ c, freeCount cfg sh c = freeCount cfg s.shared c)
    (evicting : (word s b).evicting = true) (unlocked : (word s b).free = true)
    (committed : (s.fibers f).pc.committed = none)
    (locks : fib.locks = (s.fibers f).locks) (sets : fib.pc.setsUp = (s.fibers f).pc.setsUp)
    (owned : fib.pc.owned cfg = b :: (s.fibers f).pc.owned cfg)
    (committed' : fib.pc.committed = some (q, b))
    (pc : PcOk cfg (s.after f sh fib) fib.pc) (agree : Agree fib.pc (sh.table.pcs f))
    (handed : fib.pc.guard = none) (guards : fib.guards = []) :
    Inv cfg (s.after f sh fib) := by
  have here : Mapped cfg s q b := ⟨i, inRange, entryAt⟩
  have entry : ∀ j p c, Entry sh.table.slots j p c ↔ j ≠ i ∧ Entry s.shared.table.slots j p c := by
    intro j p c
    rw [slots]
    by_cases at_ : j = i
    · subst at_
      simp [Entry, Holds, setSlot_same]
    · unfold Entry
      rw [holds_setSlot_ne _ at_, setSlot_ne _ _ at_]
      simp [at_]
  have mapped : ∀ p c, Mapped cfg (s.after f sh fib) p c → Mapped cfg s p c := by
    rintro p c ⟨j, hj, at_⟩
    exact ⟨j, hj, ((entry j p c).mp at_).2⟩
  have stays : ∀ p c, c ≠ b → Mapped cfg s p c → Mapped cfg (s.after f sh fib) p c := by
    rintro p c ne ⟨j, hj, at_⟩
    refine ⟨j, hj, (entry j p c).mpr ⟨?_, at_⟩⟩
    rintro rfl
    exact ne (at_.2.symm.trans entryAt.2)
  have words : ∀ c, word (s.after f sh fib) c = word s c := fun c => by
    simp only [word, after_shared, frames]
  have now : Committed (s.after f sh fib) q b := ⟨f, by rw [after_self, committed']⟩
  have kept : ∀ c, Kept cfg s (s.after f sh fib) c := fun c =>
    { pid := by rw [after_shared, frames]
      mapped := fun p at_ => by
        by_cases this : c = b
        · subst this
          have samePage : p = q := (inv.mapped p c at_).symm.trans (inv.mapped q c here)
          exact Or.inr (samePage ▸ now)
        · exact Or.inl (stays p c this at_)
      committed := fun p commits => by
        obtain ⟨v, at_⟩ := commits
        refine ⟨v, ?_⟩
        have other : v ≠ f := by
          rintro rfl
          rw [committed] at at_
          cases at_
        rwa [after_ne _ _ _ _ other]
      evicting := fun _ set => by rwa [words]
      sections := fun _ p _ _ => by rw [after_shared, sections] }
  have later : ∀ c, version s c ≤ version (s.after f sh fib) c := fun c => by
    simp only [version, words, le_refl]
  have held : ∀ u, ∀ lock ∈ (s.fibers u).locks, Mapped cfg (s.after f sh fib) lock.pid lock.bid :=
    fun u lock member =>
      stays _ _ (inv.unlocked unlocked u member) ((inv.fibers u).locks lock member)
  refine inv.next (f := f) table (fun p c at_ => ?_) (fun c => ?_) (fun c => ?_) (fun u ne => ?_) ?_
  · rw [after_shared, frames]
    exact inv.mapped p c (mapped p c at_)
  · have count := sum_after s f sh fib fun fib => (fib.pc.owned cfg).count c
    have slot := slotsOf_setSlot inRange slots c
    have gone : share c Slot.tombstoneSlot = 0 := by simp [share]
    have was : share c (s.shared.table.slots i) = if b = c then 1 else 0 := by
      simp [share, entryAt.1.1, entryAt.2]
    rw [owned, List.count_cons] at count
    have free := free c
    unfold places ownedCount
    rw [after_shared]
    rw [gone, was] at slot
    simp only [beq_iff_eq] at count
    omega
  · exact inv.lockOk_after (by rw [words]) (exclusives_congr locks sets c)
      (shareds_congr locks c)
  · exact
      { fiber := after_ne s f sh fib ne
        table := pcs u ne
        later := later
        kept := fun c _ => kept c
        locks := held u
        own := fun c _ => ⟨by simp only [version, words], by rw [after_shared, frames]⟩
        committed := fun p c at_ => by
          rw [words]
          exact ((inv.fibers u).pc.committed at_).2 }
  · exact fiberOk_after pc agree (by simp [handed]) (fun _ => guards) (by simp [guards])
      (locks ▸ held f)

end UringDb.BufferMgr
