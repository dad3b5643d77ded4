import UringDb.BufferMgr.ClientSteps

/-!
# The steps of `evict`

The sweep protects its candidates with the EvictingBit, the writes are issued and awaited,
and each candidate is erased from the page table, retired and released. The two steps that
need the side condition are the commit of the erase and the clearing of the bit after it.
-/
namespace UringDb.BufferMgr

open PageState PageTable

variable {n : Nat} {cfg : Config n} {s : State n} {f : Fin n} {r : Result n}
  {ev : Eviction} {sw : Sweep} {ph : Phase} {p b : Nat} {rest : List Nat}

/-! ### The sweep -/

/-- A live slot under the clock hand is an entry of the page table. -/
theorem Inv.step_evScan (inv : Inv cfg s) (at_ : (s.fibers f).pc = .evScan ev sw)
    (stepped : evScan cfg s.shared (s.fibers f) ev sw = some r) :
    Inv cfg (s.after f r.shared r.fiber) := by
  have agree := inv.agree_at at_
  have on : Inv cfg (s.after f s.shared { s.fibers f with pc := sw.next cfg ev }) :=
    inv.land at_ inv.still (lands_sweepNext cfg ev sw) agree ⟨rfl, rfl, rfl⟩
  unfold evScan at stepped
  dsimp only at stepped
  split at stepped
  · cases stepped
    exact on
  next occupied =>
    split at stepped <;> cases stepped
    · exact on
    · have inRange : sw.idx cfg < cfg.table.slotCount := by
        rw [Sweep.idx, cfg.table.and_slotMask]
        exact Nat.mod_lt _ cfg.table.slotCount_pos
      have live : Slot.isLive (s.shared.table.slots (sw.idx cfg)) = true := by
        simpa [Slot.isLive] using occupied
      have mapped : Mapped cfg s (Slot.pid (s.shared.table.slots (sw.idx cfg)))
          (Slot.bid (s.shared.table.slots (sw.idx cfg))) :=
        ⟨_, inRange, ⟨live, rfl⟩, rfl⟩
      exact inv.move at_ inv.still ⟨rfl, rfl, rfl, rfl⟩ ⟨inv.mapped _ _ mapped, Or.inl mapped⟩ agree
        handed_none fun _ => rfl

theorem clearMark_spec {w w' : Word} (cleared : w.clearMark = some w') :
    w.mode = marked ∧ w.sameVersion PageState.unlocked = w' := by
  unfold Word.clearMark at cleared
  split at cleared
  next mode => exact ⟨mode, Option.some.inj cleared⟩
  next => cases cleared

theorem Inv.step_evMarkCas {w : Word} {choice : Nat} (inv : Inv cfg s)
    (at_ : (s.fibers f).pc = .evMarkCas ev sw p b w)
    (stepped : stepFiber cfg s.shared f (s.fibers f) choice = some r) :
    Inv cfg (s.after f r.shared r.fiber) := by
  have agree := inv.agree_at at_
  have lands := lands_sweepNext cfg ev sw
  have on : Inv cfg (s.after f s.shared { s.fibers f with pc := sw.next cfg ev }) :=
    inv.land at_ inv.still lands agree ⟨rfl, rfl, rfl⟩
  simp only [stepFiber, at_] at stepped
  split at stepped <;> cases stepped
  · exact on
  next w' cleared =>
    dsimp only
    split
    next here =>
      have current : word s b = w := here
      obtain ⟨mode, rfl⟩ := clearMark_spec cleared
      refine inv.touch (by rw [← current]; rfl) (fun set => ?_) (Or.inr ⟨?_, ?_⟩) ?_ ?_ ?_ ?_
        (lands.ok _) (lands.agree _ agree) ?_ (fun _ => inv.alone_at at_ rfl) fun g member => member
      · rw [current] at set
        exact set
      · exact (free_iff _).mpr (Or.inl rfl)
      · rw [free_iff, current]
        exact Or.inr mode
      · rw [at_, lands.owned]
        rfl
      · simp only [Fiber.locks, lands.locks, at_]
        rfl
      · rw [at_, lands.setsUp]
        rfl
      · rw [at_, lands.committed]
        rfl
      · exact fun g member => (by cases lands.guard g member)
    next => exact on

theorem Inv.step_evSet (inv : Inv cfg s) (at_ : (s.fibers f).pc = .evSet ev sw p b) :
    Inv cfg (s.after f (s.shared.setState b { (s.shared.frames b).state with evicting := true })
      { s.fibers f with pc := .evDirty ev sw p b }) := by
  have known : Ref cfg s p b := inv.ok_at at_
  have agree := inv.agree_at at_
  refine inv.flag at_ ⟨rfl, rfl, rfl, rfl⟩ rfl rfl (fun _ => rfl) ?_ agree rfl fun _ => rfl
  exact known.stable (kept_setState (by rw [at_]; rfl) (fun _ _ => rfl) b)

theorem Inv.step_evClean (inv : Inv cfg s) (at_ : (s.fibers f).pc = .evClean ev sw p b)
    (stepped : evClean cfg s.shared (s.fibers f) ev sw b = some r) :
    Inv cfg (s.after f r.shared r.fiber) := by
  have agree := inv.agree_at at_
  have lands := lands_chosen cfg { ev with toWrite := ev.toWrite ++ [b] } sw
  unfold evClean at stepped
  cases stepped
  refine inv.flag at_ ⟨lands.owned, lands.locks, lands.setsUp, lands.committed⟩ rfl rfl id
    (lands.ok _) (lands.agree _ agree) ?_ fun _ => rfl
  exact Option.eq_none_iff_forall_not_mem.mpr fun g member => (by cases lands.guard g member)

theorem Inv.step_evDirty (inv : Inv cfg s) (at_ : (s.fibers f).pc = .evDirty ev sw p b)
    (stepped : evDirty cfg s.shared (s.fibers f) ev sw p b = some r) :
    Inv cfg (s.after f r.shared r.fiber) := by
  have known : Ref cfg s p b := inv.ok_at at_
  have agree := inv.agree_at at_
  unfold evDirty at stepped
  dsimp only at stepped
  split at stepped <;> cases stepped
  · exact inv.move at_ inv.still ⟨rfl, rfl, rfl, rfl⟩ known agree handed_none fun _ => rfl
  · exact inv.land at_ inv.still (lands_chosen cfg { ev with toEvict := ev.toEvict ++ [b] } sw) agree
      ⟨rfl, rfl, rfl⟩

/-- The part of the reservation that was not used is given back. -/
theorem Inv.step_evUnreserve (inv : Inv cfg s) (at_ : (s.fibers f).pc = .evUnreserve ev)
    (stepped : evUnreserve s.shared (s.fibers f) ev = some r) :
    Inv cfg (s.after f r.shared r.fiber) := by
  have agree := inv.agree_at at_
  have calm : Calm cfg s f (if ev.toEvict.length + ev.toWrite.length < ev.reserved then
      { s.shared with inflight := u64 (s.shared.inflight -
          (ev.reserved - (ev.toEvict.length + ev.toWrite.length : Nat))) } else s.shared) := by
    split
    · exact inv.calm rfl (fun _ => ⟨rfl, rfl⟩) rfl fun _ => rfl
    · exact inv.still
  have table := calm.table
  unfold evUnreserve at stepped
  cases stepped
  have free : ((if ev.toEvict.length + ev.toWrite.length < ev.reserved then
      { s.shared with inflight := u64 (s.shared.inflight -
          (ev.reserved - (ev.toEvict.length + ev.toWrite.length : Nat))) }
      else s.shared).table.pcs f).canCall = true := by
    split <;> exact agree
  dsimp only
  by_cases empty : ev.toWrite = []
  · rw [if_pos empty]
    have lands := lands_next cfg
      { ev with reserved := min ev.reserved (ev.toEvict.length + ev.toWrite.length) }
      .clean ev.toEvict
    exact inv.land at_ calm lands free ⟨rfl, rfl, rfl⟩
  · rw [if_neg empty]
    exact inv.move at_ calm ⟨rfl, rfl, rfl, rfl⟩ trivial free handed_none fun _ => rfl

/-! ### The writes -/

theorem Inv.calm_stored (inv : Inv cfg s) (wr : Write) : Calm cfg s f (s.shared.stored wr) := by
  unfold Shared.stored
  split
  · refine inv.calm rfl (fun c => ?_) rfl fun _ => rfl
    by_cases here : c = wr.bid
    · subst here
      simp
    · simp [setFrame_ne _ _ _ here]
  · exact inv.still

theorem stored_table (sh : Shared n) (wr : Write) : (sh.stored wr).table = sh.table := by
  unfold Shared.stored
  split <;> rfl

theorem Inv.step_evAwait {pending : List Write} {choice : Nat} (inv : Inv cfg s)
    (at_ : (s.fibers f).pc = .evAwait ev pending)
    (stepped : evAwait s.shared (s.fibers f) ev pending choice = some r) :
    Inv cfg (s.after f r.shared r.fiber) := by
  have agree := inv.agree_at at_
  unfold evAwait at stepped
  split at stepped
  · split at stepped
    · cases stepped
      exact inv.land at_ inv.still (lands_next cfg ev .clean ev.toEvict) agree ⟨rfl, rfl, rfl⟩
    · cases stepped
  next wr _ =>
    cases stepped
    refine inv.move at_ (inv.calm_stored wr) ⟨rfl, rfl, rfl, rfl⟩ trivial ?_ handed_none fun _ => rfl
    rw [stored_table]
    exact agree

theorem Inv.step_evIssue {todo : List Nat} {pending : List Write} (inv : Inv cfg s)
    (at_ : (s.fibers f).pc = .evIssue ev todo pending)
    (stepped : evIssue s.shared (s.fibers f) ev todo pending = some r) :
    Inv cfg (s.after f r.shared r.fiber) := by
  have agree := inv.agree_at at_
  unfold evIssue at stepped
  split at stepped <;> cases stepped <;>
    exact inv.move at_ inv.still ⟨rfl, rfl, rfl, rfl⟩ trivial agree handed_none fun _ => rfl

/-! ### `evictNow` -/

theorem Inv.step_evErase (inv : Inv cfg s) (at_ : (s.fibers f).pc = .evErase ev ph b p rest)
    (undisturbed : Undisturbed cfg.table s.shared.table (.step f false))
    (sound : (s.shared.table.pcs f).tombstones s.shared.table.slots ≠ none →
      (word s b).evicting = true ∧ (word s b).free = true)
    (stepped : evErase cfg s.shared f (s.fibers f) ev ph b p rest = some r) :
    Inv cfg (s.after f r.shared r.fiber) := by
  obtain ⟨sh, out, tried, -, goes | commits⟩ :=
    evErase_moves (inv.table.pcs f).carries (inv.agree_at at_) stepped
  · obtain ⟨pc', slots, rfl, goes⟩ := goes
    have calm := tableStep_calm inv undisturbed tried (slots ▸ SameEntries.refl _)
    rcases goes with ⟨rfl, still⟩ | ⟨i, raw, found, rfl⟩ | ⟨rfl, idle⟩
    · rw [at_]
      exact inv.move at_ calm ⟨rfl, rfl, rfl, rfl⟩ trivial (Or.inr (Or.inl still)) handed_none
        fun _ => rfl
    · split
      next same =>
        exact inv.move at_ calm ⟨rfl, rfl, rfl, rfl⟩ trivial ⟨i, raw, found, same⟩ handed_none
          fun _ => rfl
      next =>
        exact inv.move at_ calm ⟨rfl, rfl, rfl, rfl⟩ trivial ⟨i, raw, found, not_inEvict⟩
          handed_none fun _ => rfl
    · exact inv.land at_ calm (lands_next cfg ev ph rest) idle ⟨rfl, rfl, rfl⟩
  · obtain ⟨i, inRange, entry, erases, slots, collapses, rfl⟩ := commits
    obtain ⟨evicting, unlocked⟩ := sound erases
    have mapped : (s.shared.frames b).pid = p := inv.mapped p b ⟨i, inRange, entry⟩
    have whole := tableStep_table tried
    have frames : sh.frames = s.shared.frames := by rw [whole]
    refine inv.erased (tableStep_inv inv.table undisturbed tried) (tableStep_others tried) inRange
      entry slots frames (by rw [whole]) (fun _ => by rw [whole]; rfl) evicting unlocked
      (by rw [at_]; rfl) (by simp only [Fiber.locks, at_]; rfl) (by rw [at_]; rfl)
      (by rw [at_]; rfl) rfl ?_ collapses rfl (inv.alone_at at_ rfl)
    simp only [PcOk, word, after_shared, frames]
    exact ⟨mapped, evicting, unlocked⟩

theorem Inv.step_preAnswer {answer : Bool} (inv : Inv cfg s)
    (at_ : (s.fibers f).pc = .preAnswer ev ph b p rest answer)
    (undisturbed : Undisturbed cfg.table s.shared.table (.step f answer))
    (stepped : preAnswer cfg s.shared f (s.fibers f) ev ph b p rest answer = some r) :
    Inv cfg (s.after f r.shared r.fiber) := by
  obtain ⟨i, raw, waiting, bid⟩ := inv.agree_at at_
  obtain ⟨sh, out, tried, slots, goes⟩ := preAnswer_moves waiting stepped
  have calm := tableStep_calm inv undisturbed tried (slots ▸ SameEntries.refl _)
  rcases goes with ⟨rfl, cas, rfl⟩ | ⟨rfl, idle, rfl⟩
  · exact inv.move at_ calm ⟨rfl, rfl, rfl, rfl⟩ trivial (Or.inr (Or.inr ⟨i, raw, cas, bid rfl⟩))
      handed_none fun _ => rfl
  · exact inv.land at_ calm (lands_next cfg ev ph rest) idle ⟨rfl, rfl, rfl⟩

theorem Inv.step_evCollapse (inv : Inv cfg s) (at_ : (s.fibers f).pc = .evCollapse ev ph b p rest)
    (undisturbed : Undisturbed cfg.table s.shared.table (.step f false))
    (stepped : evCollapse cfg s.shared f (s.fibers f) ev ph b p rest = some r) :
    Inv cfg (s.after f r.shared r.fiber) := by
  have ok := inv.ok_at at_
  obtain ⟨sh, out, pc', tried, entries, rfl, goes⟩ := evCollapse_moves (inv.agree_at at_) stepped
  have calm := tableStep_calm inv undisturbed tried entries
  rcases goes with ⟨rfl, still⟩ | ⟨rfl, idle⟩
  · rw [at_]
    exact inv.move at_ calm ⟨rfl, rfl, rfl, rfl⟩ ok still handed_none fun _ => rfl
  · exact inv.move at_ calm ⟨rfl, rfl, rfl, rfl⟩ ok idle handed_none fun _ => rfl

theorem Inv.step_evPost (inv : Inv cfg s) (at_ : (s.fibers f).pc = .evPost ev ph b p rest)
    (unreferred : ∀ u, u ≠ f → (s.fibers u).refersTo (version s b) b = false)
    (stepped : evPost s.shared (s.fibers f) ev ph b rest = some r) :
    Inv cfg (s.after f r.shared r.fiber) := by
  have agree := inv.agree_at at_
  have lands := lands_next cfg { ev with freed := ev.freed ++ [b] } ph rest
  unfold evPost at stepped
  cases stepped
  refine inv.post (p := p) (by rw [at_]; rfl) unreferred rfl rfl (fun c => ?_) ?_ ?_ (lands.ok _)
    (lands.agree _ agree) ?_ (inv.alone_at at_ rfl)
  · rw [lands.owned, at_]
    simp [Pc.owned, List.count_cons, List.count_append]
  · simp only [Fiber.locks, lands.locks, at_]
    rfl
  · rw [lands.setsUp, at_]
    rfl
  · exact Option.eq_none_iff_forall_not_mem.mpr fun g member => (by cases lands.guard g member)

theorem Inv.step_evUsed (inv : Inv cfg s) (at_ : (s.fibers f).pc = .evUsed ev ph)
    (stepped : evUsed cfg s.shared f (s.fibers f) ev ph = some r) :
    Inv cfg (s.after f r.shared r.fiber) := by
  have agree := inv.agree_at at_
  have calm : ∀ used, Calm cfg s f { s.shared.setLocal (cfg.wid f)
      { ownLocal cfg s.shared f with delta := 0 } with used := used } := fun used => by
    refine inv.calm rfl (fun _ => ⟨rfl, rfl⟩) rfl fun c => ?_
    have moved := freeCount_setLocal s.shared (cfg.wid_lt f)
      { ownLocal cfg s.shared f with delta := 0 } c
    exact Nat.add_right_cancel moved
  unfold evUsed at stepped
  cases stepped
  cases ph with
  | clean =>
    exact inv.land at_ (calm _) (lands_startWritten cfg { ev with freed := [] }) agree ⟨rfl, rfl, rfl⟩
  | written =>
    exact inv.move at_ (calm _) ⟨rfl, rfl, rfl, rfl⟩ trivial agree handed_none fun _ => rfl

end UringDb.BufferMgr
