import UringDb.PageTable.Invariant

/-!
# The page table's invariant survives every undisturbed step

`step_change` says once what a step can do to the slots, and `step_pcInv` what the
stepping call then relies on. Both are read off the program counter; the runs only
see these two and the stability of the other calls' assertions.
-/
namespace UringDb.PageTable

open Slot

variable {tb : Table} {slots : Nat → Nat}

/-! ### Stability of the other calls' assertions -/

theorem pcInv_insert {p b i : Nat} (can : CanInsert tb slots p b i) {pc : Pc}
    (inv : PcInv tb slots pc) : PcInv tb (setSlot slots i (word p b)) pc := by
  cases pc with
  | probe q c d ft => exact ⟨inv.1, inv.2.1, inv.2.2.1, can.passed inv.2.2.2⟩
  | claim q c d ft =>
    cases ft with
    | none => exact ⟨inv.1, inv.2.1, inv.2.2.1, can.passed inv.2.2.2⟩
    | some target => exact ⟨inv.1, inv.2.1, can.passed inv.2.2⟩
  | claimTombstone q c target => exact ⟨inv.1, inv.2.1, can.passed inv.2.2⟩
  | scan call start idx runLen =>
    obtain ⟨erasing, bounded, one, below, at_, scanned⟩ := inv
    refine ⟨erasing, bounded, one, below, at_, fun k hk tomb m crosses => ?_⟩
    have old := can.crosses tomb crosses
    exact scanned k hk old.1 m old.2
  | clear call start clearIdx cleared runLen =>
    obtain ⟨erasing, bounded, lt, le, at_, clearable⟩ := inv
    refine ⟨erasing, bounded, lt, le, at_, fun k hk tomb m crosses => ?_⟩
    have old := can.crosses tomb crosses
    exact clearable k hk old.1 m old.2
  | _ => exact inv

theorem pcInv_erase {i : Nat} {pc : Pc} (free : pc.reliesOn tb i = false)
    (inv : PcInv tb slots pc) : PcInv tb (setSlot slots i tombstoneSlot) pc := by
  cases pc with
  | probe q c d ft =>
    exact ⟨inv.1, inv.2.1, inv.2.2.1, passed_erase inv.2.2.1.le d free (fun _ => rfl) inv.2.2.2⟩
  | claim q c d ft =>
    cases ft with
    | none =>
      exact ⟨inv.1, inv.2.1, inv.2.2.1, passed_erase inv.2.2.1.le d free (fun _ => rfl) inv.2.2.2⟩
    | some target =>
      exact ⟨inv.1, inv.2.1, passed_erase (le_refl _) d free (fun h => (by cases h)) inv.2.2⟩
  | claimTombstone q c target =>
    exact ⟨inv.1, inv.2.1, passed_erase (le_refl _) 0 free (fun h => (by cases h)) inv.2.2⟩
  | scan call start idx runLen =>
    obtain ⟨erasing, bounded, one, below, at_, scanned⟩ := inv
    refine ⟨erasing, bounded, one, below, at_, fun k hk tomb m crosses => ?_⟩
    rw [setSlot_ne _ _ (inRun_false free k hk)] at tomb
    exact scanned k hk tomb m (crosses_erase crosses)
  | clear call start clearIdx cleared runLen =>
    obtain ⟨erasing, bounded, lt, le, at_, clearable⟩ := inv
    refine ⟨erasing, bounded, lt, le, at_, fun k hk tomb m crosses => ?_⟩
    rw [setSlot_ne _ _ (inRun_false free k hk)] at tomb
    exact clearable k hk tomb m (crosses_erase crosses)
  | _ => exact inv

theorem pcInv_clear {i : Nat} (tomb : slots i = tombstoneSlot) {pc : Pc}
    (inv : PcInv tb slots pc) : PcInv tb (setSlot slots i emptySlot) pc := by
  cases pc with
  | probe q c d ft => exact ⟨inv.1, inv.2.1, inv.2.2.1, passed_clear tomb inv.2.2.2⟩
  | claim q c d ft =>
    cases ft with
    | none => exact ⟨inv.1, inv.2.1, inv.2.2.1, passed_clear tomb inv.2.2.2⟩
    | some target => exact ⟨inv.1, inv.2.1, passed_clear tomb inv.2.2⟩
  | claimTombstone q c target => exact ⟨inv.1, inv.2.1, passed_clear tomb inv.2.2⟩
  | scan call start idx runLen =>
    obtain ⟨erasing, bounded, one, below, at_, scanned⟩ := inv
    refine ⟨erasing, bounded, one, below, at_, fun k hk still m crosses => ?_⟩
    have old := crosses_clear tomb still crosses
    exact scanned k hk old.1 m old.2
  | clear call start clearIdx cleared runLen =>
    obtain ⟨erasing, bounded, lt, le, at_, clearable⟩ := inv
    refine ⟨erasing, bounded, lt, le, at_, fun k hk still m crosses => ?_⟩
    have old := crosses_clear tomb still crosses
    exact clearable k hk old.1 m old.2
  | _ => exact inv

/-! ### What a step can do -/

/-- The four things a step can do to the slots, with what it shows. -/
inductive Change (tb : Table) (slots : Nat → Nat) (pc : Pc) (r : Result) : Prop
  | quiet (same : r.slots = slots) (keeps : ∀ p b, r.out ≠ .erased p b)
      (fails : ∀ p b, r.out ≠ .returned (.insert p b) (.bool true))
  | insert (p b i : Nat) (can : CanInsert tb slots p b i)
      (set : r.slots = setSlot slots i (word p b))
      (shows_ : r.out = .returned (.insert p b) (.bool true))
  | erase (i : Nat) (tombstones : pc.tombstones slots = some i) (inRange : i < tb.slotCount)
      (live : isLive (slots i) = true) (set : r.slots = setSlot slots i tombstoneSlot)
      (shows_ : r.out = .erased (Slot.pid (slots i)) (Slot.bid (slots i)))
  | clear (i : Nat) (tomb : slots i = tombstoneSlot) (free : ∀ m, ¬ Crosses tb slots i m)
      (set : r.slots = setSlot slots i emptySlot) (keeps : ∀ p b, r.out ≠ .erased p b)
      (fails : ∀ p b, r.out ≠ .returned (.insert p b) (.bool true))

theorem isEmpty_iff (raw : Nat) : isEmpty raw = true ↔ raw = emptySlot := by simp [isEmpty]

theorem isTombstone_iff (raw : Nat) : isTombstone raw = true ↔ raw = tombstoneSlot := by
  simp [isTombstone]

theorem canInsert_empty {p b d : Nat} (fits : b ≤ bidMask) (bounded : d < tb.slotCount)
    (reach : Reach tb slots) (passed : Passed tb slots p d none)
    (empty : slots (tb.probe p d) = emptySlot) : CanInsert tb slots p b (tb.probe p d) where
  fits := fits
  dead := by rw [empty]; rfl
  place := ⟨d, bounded, rfl, passed⟩
  absent := by
    intro e he holds
    rcases Nat.lt_trichotomy e d with lt | rfl | gt
    · exact (passed e lt).2 holds.2
    · rw [Holds, empty] at holds; cases holds.1
    · exact reach p e he holds d gt empty

theorem canInsert_tombstone {p b target : Nat} (fits : b ≤ bidMask)
    (passed : Passed tb slots p tb.slotCount (some target))
    (tomb : slots target = tombstoneSlot) : CanInsert tb slots p b target := by
  obtain ⟨first, hfirst, rfl, before, clean⟩ := passed
  exact ⟨fits, by rw [tomb]; rfl, ⟨first, hfirst, rfl, before⟩, clean tomb⟩

/-- Having found an EMPTY slot, an insert that remembers a tombstone has seen enough. -/
theorem passed_of_empty {p d target : Nat} (bounded : d < tb.slotCount) (reach : Reach tb slots)
    (passed : Passed tb slots p d (some target)) (empty : slots (tb.probe p d) = emptySlot) :
    Passed tb slots p tb.slotCount (some target) := by
  obtain ⟨first, hfirst, rfl, before, clean⟩ := passed
  refine ⟨first, by omega, rfl, before, fun tomb e he holds => ?_⟩
  rcases Nat.lt_trichotomy e d with lt | rfl | gt
  · exact clean tomb e lt holds
  · rw [Holds, empty] at holds; cases holds.1
  · exact reach p e he holds d gt empty

theorem passed_tombstone {p d : Nat} {ft : Option Nat} (passed : Passed tb slots p d ft)
    (tomb : slots (tb.probe p d) = tombstoneSlot) :
    Passed tb slots p (d + 1) (some (ft.getD (tb.probe p d))) := by
  have here : ¬ Holds slots (tb.probe p d) p := by
    rintro ⟨live, -⟩
    rw [tomb] at live
    cases live
  cases ft with
  | none =>
    refine ⟨d, by omega, rfl, passed, fun _ e he holds => ?_⟩
    rcases Nat.lt_succ_iff_lt_or_eq.mp he with lt | rfl
    · exact (passed e lt).2 holds.2
    · exact here holds
  | some target =>
    obtain ⟨first, hfirst, rfl, before, clean⟩ := passed
    refine ⟨first, by omega, rfl, before, fun still e he holds => ?_⟩
    rcases Nat.lt_succ_iff_lt_or_eq.mp he with lt | rfl
    · exact clean still e lt holds
    · exact here holds

theorem passed_other {p d : Nat} {ft : Option Nat} (passed : Passed tb slots p d ft)
    (other : Other slots (tb.probe p d) p) : Passed tb slots p (d + 1) ft := by
  cases ft with
  | none =>
    intro e he
    rcases Nat.lt_succ_iff_lt_or_eq.mp he with lt | rfl
    · exact passed e lt
    · exact other
  | some target =>
    obtain ⟨first, hfirst, rfl, before, clean⟩ := passed
    refine ⟨first, by omega, rfl, before, fun still e he holds => ?_⟩
    rcases Nat.lt_succ_iff_lt_or_eq.mp he with lt | rfl
    · exact clean still e lt holds
    · exact other.2 holds.2

/-- A collapse that finds an EMPTY slot behind its run may clear the run: an entry led over
it from beyond the run would be unreachable. -/
theorem clearable_of_empty {start runLen : Nat} (reach : Reach tb slots)
    (scanned : Scanned tb slots start runLen)
    (empty : slots ((start + runLen) % tb.slotCount) = emptySlot) :
    Clearable tb slots start runLen := by
  intro k hk tomb m crosses
  have far := scanned k hk tomb m crosses
  obtain ⟨p, d, one, le, hd, holds, leads⟩ := crosses
  have step : tb.probe p (d - m + (runLen - k)) = (start + runLen) % tb.slotCount := by
    rw [← tb.probe_shift, leads, Nat.mod_add_mod]
    congr 1
    omega
  rcases Nat.lt_or_ge (d - m + (runLen - k)) d with lt | ge
  · exact reach p d hd holds _ lt (by rw [step]; exact empty)
  · have same : d - m + (runLen - k) = d := by omega
    rw [same] at step
    rw [Holds, step, empty] at holds
    cases holds.1

/-- A collapse that went round the whole table may clear it if its first slot is still a
tombstone. -/
theorem clearable_of_ring {start : Nat} (scanned : Scanned tb slots start tb.slotCount)
    (bounded : start < tb.slotCount) (first : slots start = tombstoneSlot) :
    Clearable tb slots start tb.slotCount := by
  intro k hk tomb m crosses
  have far := scanned k hk tomb m crosses
  obtain ⟨p, d, one, le, hd, holds, leads⟩ := crosses
  have step : tb.probe p (d - m + (tb.slotCount - k)) = start := by
    rw [← tb.probe_shift, leads, Nat.mod_add_mod]
    have whole : start + k + (tb.slotCount - k) = start + tb.slotCount := by omega
    rw [whole, Nat.add_mod_right, Nat.mod_eq_of_lt bounded]
  rcases Nat.lt_or_ge (d - m + (tb.slotCount - k)) d with lt | ge
  · -- the path goes on over the first slot
    have again : Crosses tb slots ((start + 0) % tb.slotCount) (m - (tb.slotCount - k)) := by
      refine ⟨p, d, by omega, by omega, hd, holds, ?_⟩
      rw [Nat.add_zero, Nat.mod_eq_of_lt bounded, ← step]
      congr 1
      omega
    have start_tomb : slots ((start + 0) % tb.slotCount) = tombstoneSlot := by
      rw [Nat.add_zero, Nat.mod_eq_of_lt bounded]; exact first
    have beyond := scanned 0 (by omega) start_tomb _ again
    omega
  · have same : d - m + (tb.slotCount - k) = d := by omega
    rw [same] at step
    rw [Holds, step, first] at holds
    cases holds.1

theorem scanned_one (start : Nat) : Scanned tb slots start 1 := by
  intro k hk _ m crosses
  obtain ⟨p, d, one, -⟩ := crosses
  omega

theorem scanned_succ {start runLen : Nat} (scanned : Scanned tb slots start runLen)
    (tomb : slots ((start + runLen) % tb.slotCount) = tombstoneSlot) :
    Scanned tb slots start (runLen + 1) := by
  intro k hk here m crosses
  have one := crosses.choose_spec.choose_spec.1
  rcases Nat.lt_succ_iff_lt_or_eq.mp hk with lt | rfl
  · have far := scanned k lt here m crosses
    rcases Nat.eq_or_lt_of_le far with same | more
    · -- the entry would sit on the slot just found to be a tombstone
      obtain ⟨p, d, -, le, hd, holds, leads⟩ := crosses
      have place : tb.probe p d = (start + runLen) % tb.slotCount := by
        have sum : d = d - m + m := by omega
        rw [sum, ← tb.probe_shift, leads, Nat.mod_add_mod]
        congr 1
        omega
      rw [Holds, place, tomb] at holds
      cases holds.1
    · omega
  · omega

/-! ### One step -/

theorem isErase_ne_insert {call : Call} (erasing : call.isErase = true) (p b : Nat) :
    call ≠ .insert p b := by
  rintro rfl
  cases erasing

theorem quiet_goto (pc next : Pc) : Change tb slots pc (Table.goto slots next) :=
  .quiet rfl (fun _ _ h => (by cases h)) (fun _ _ h => (by cases h))

theorem quiet_finish (pc : Pc) (call : Call) (ret : Ret)
    (fails : ∀ p b, call = .insert p b → ret ≠ .bool true) :
    Change tb slots pc (Table.finish slots call ret) := by
  refine .quiet rfl (fun _ _ h => (by cases h)) (fun p b h => ?_)
  injection h with sameCall sameRet
  exact fails p b sameCall sameRet

theorem change_insertCas {pc failed : Pc} {p b target expected : Nat}
    (can : slots target = expected → CanInsert tb slots p b target) :
    Change tb slots pc (Table.insertCas slots p b target expected failed) := by
  unfold Table.insertCas
  split
  next equal => exact .insert p b target (can equal) rfl rfl
  · exact quiet_goto pc failed

theorem change_eraseProbe {pc : Pc} {call : Call} {p d : Nat} {found : Nat → Nat → Pc}
    {again : Result} (noInsert : ∀ q b, call ≠ .insert q b) (quiet : Change tb slots pc again) :
    Change tb slots pc (tb.eraseProbe slots call p d found again) := by
  unfold Table.eraseProbe
  dsimp only
  split
  · exact quiet_finish pc call _ (fun q b h => absurd h (noInsert q b))
  · split
    · exact quiet
    · exact quiet_goto pc _

theorem change_eraseCas {pc : Pc} {call : Call} {idx raw : Nat} {failed : Result}
    (tombstones : slots idx = raw → pc.tombstones slots = some idx) (inRange : idx < tb.slotCount)
    (live : isLive raw = true) (quiet : Change tb slots pc failed) :
    Change tb slots pc (tb.eraseCas slots call idx raw failed) := by
  unfold Table.eraseCas
  split
  next equal =>
    subst equal
    exact .erase idx (tombstones rfl) inRange live rfl rfl
  · exact quiet

theorem step_change {pc : Pc} {answer : Bool} {r : Result} (reach : Reach tb slots)
    (inv : PcInv tb slots pc) (stepped : tb.step slots answer pc = some r) :
    Change tb slots pc r := by
  cases pc with
  | idle => cases stepped
  | returned call ret => cases stepped
  | find p d =>
    cases stepped
    unfold Table.find
    dsimp only
    split
    · exact quiet_finish _ _ _ (fun _ _ h => by cases h)
    · split
      · exact quiet_finish _ _ _ (fun _ _ h => by cases h)
      · split
        · exact quiet_goto _ _
        · exact quiet_finish _ _ _ (fun _ _ h => by cases h)
  | probe p b d ft =>
    cases stepped
    unfold Table.insertProbe
    dsimp only
    split
    · exact quiet_goto _ _
    · split
      · exact quiet_goto _ _
      · split
        · exact quiet_finish _ _ _ (fun _ _ _ => by simp)
        · exact quiet_goto _ _
  | claim p b d ft =>
    cases ft with
    | none =>
      cases stepped
      exact change_insertCas (canInsert_empty inv.2.1 inv.2.2.1 reach inv.2.2.2)
    | some target =>
      cases stepped
      exact change_insertCas (canInsert_tombstone inv.2.1 inv.2.2)
  | claimTombstone p b target =>
    cases stepped
    exact change_insertCas (canInsert_tombstone inv.2.1 inv.2.2)
  | erase p d =>
    cases stepped
    exact change_eraseProbe (fun _ _ h => by cases h) (quiet_goto _ _)
  | eraseCas p idx raw =>
    cases stepped
    exact change_eraseCas (fun h => by simp [Pc.tombstones, h]) inv.1 inv.2.1 (quiet_goto _ _)
  | eraseIf p d =>
    cases stepped
    apply change_eraseProbe (fun _ _ h => by cases h)
    split
    · exact quiet_goto _ _
    · exact quiet_finish _ _ _ (fun _ _ h => by cases h)
  | precheck p idx raw =>
    cases answer <;> cases stepped
    · exact quiet_finish _ _ _ (fun _ _ h => by cases h)
    · exact quiet_goto _ _
  | eraseIfCas p idx raw =>
    cases stepped
    exact change_eraseCas (fun h => by simp [Pc.tombstones, h]) inv.1 inv.2.1
      (quiet_finish _ _ _ (fun _ _ h => by cases h))
  | scan call start idx runLen =>
    cases stepped
    unfold Table.scan
    dsimp only
    split
    · split <;> exact quiet_goto _ _
    · split
      · exact quiet_finish _ _ _ (fun q b h => absurd h (isErase_ne_insert inv.1 q b))
      · exact quiet_goto _ _
  | clear call start clearIdx cleared runLen =>
    cases stepped
    obtain ⟨erasing, bounded, lt, le, place, clearable⟩ := inv
    unfold Table.clear
    split
    next tomb =>
      have free : ∀ m, ¬ Crosses tb slots clearIdx m := by
        rw [place] at tomb ⊢
        exact clearable _ (by omega) tomb
      dsimp only
      split
      · exact .clear clearIdx tomb free rfl (fun _ _ h => (by cases h)) (fun _ _ h => (by cases h))
      · refine .clear clearIdx tomb free rfl (fun _ _ h => (by cases h)) (fun q b h => ?_)
        injection h with sameCall _
        exact isErase_ne_insert erasing q b sameCall
    · exact quiet_finish _ _ _ (fun q b h => absurd h (isErase_ne_insert erasing q b))

theorem pcInv_probeNext {p b d : Nat} {ft : Option Nat} (limit : p < pidLimit)
    (fits : b ≤ bidMask) (bounded : d < tb.slotCount) (passed : Passed tb slots p (d + 1) ft) :
    PcInv tb slots (tb.probeNext p b d ft) := by
  unfold Table.probeNext
  split
  next more => exact ⟨limit, fits, more, passed⟩
  next last =>
    have whole : d + 1 = tb.slotCount := by omega
    cases ft with
    | none => exact ⟨limit, fits, tb.slotCount_pos, fun e he => absurd he (by omega)⟩
    | some target => exact ⟨limit, fits, whole ▸ passed⟩

theorem pcInv_probe_start {p b : Nat} (limit : p < pidLimit) (fits : b ≤ bidMask) :
    PcInv tb slots (.probe p b 0 none) :=
  ⟨limit, fits, tb.slotCount_pos, fun e he => absurd he (by omega)⟩

theorem pcInv_collapse {call : Call} {i : Nat} (erasing : call.isErase = true)
    (inRange : i < tb.slotCount) : PcInv tb slots (tb.collapse call i) := by
  unfold Table.collapse
  split
  next many =>
    exact ⟨erasing, inRange, le_refl _, many,
      by rw [Nat.sub_self, Nat.add_zero, Nat.mod_eq_of_lt inRange], scanned_one i⟩
  next single =>
    refine ⟨erasing, inRange, by omega, tb.slotCount_pos,
      by rw [Nat.sub_zero, Nat.sub_self, Nat.add_zero, Nat.mod_eq_of_lt inRange], ?_⟩
    rintro k hk tomb m ⟨p, d, one, le, hd, -⟩
    omega

theorem pcInv_insertCas {p b target expected : Nat} {failed : Pc}
    (inv : PcInv tb slots failed) :
    PcInv tb (Table.insertCas slots p b target expected failed).slots
      (Table.insertCas slots p b target expected failed).pc := by
  unfold Table.insertCas
  split
  · trivial
  · exact inv

theorem pcInv_eraseProbe {call : Call} {p d : Nat} {found : Nat → Nat → Pc} {again : Result}
    (entry : ∀ idx, idx < tb.slotCount → isLive (slots idx) = true → Slot.pid (slots idx) = p →
      PcInv tb slots (found idx (slots idx)))
    (inv : PcInv tb again.slots again.pc) :
    PcInv tb (tb.eraseProbe slots call p d found again).slots
      (tb.eraseProbe slots call p d found again).pc := by
  unfold Table.eraseProbe
  dsimp only
  split
  · trivial
  next occupied =>
    split
    · exact inv
    next same =>
      simp only [Bool.or_eq_true, bne_iff_ne, ne_eq, not_or, Bool.not_eq_true, not_not] at same
      exact entry _ (tb.probe_lt _ _) (by simp [isLive, same.1, occupied]) same.2

theorem pcInv_eraseCas {call : Call} {idx raw : Nat} {failed : Result}
    (erasing : call.isErase = true) (inRange : idx < tb.slotCount)
    (inv : PcInv tb failed.slots failed.pc) :
    PcInv tb (tb.eraseCas slots call idx raw failed).slots
      (tb.eraseCas slots call idx raw failed).pc := by
  unfold Table.eraseCas
  split
  · exact pcInv_collapse erasing inRange
  · exact inv

theorem pcInv_insertProbe {p b d : Nat} {ft : Option Nat} (reach : Reach tb slots)
    (inv : PcInv tb slots (.probe p b d ft)) :
    PcInv tb (tb.insertProbe slots p b d ft).slots (tb.insertProbe slots p b d ft).pc := by
  obtain ⟨limit, fits, bounded, passed⟩ := inv
  unfold Table.insertProbe
  dsimp only
  split
  next tomb =>
    exact pcInv_probeNext limit fits bounded (passed_tombstone passed ((isTombstone_iff _).mp tomb))
  next notTomb =>
    split
    next empty =>
      cases ft with
      | none => exact ⟨limit, fits, bounded, passed⟩
      | some target =>
        exact ⟨limit, fits, passed_of_empty bounded reach passed ((isEmpty_iff _).mp empty)⟩
    next occupied =>
      split
      · trivial
      next different =>
        have other : Other slots (tb.probe p d) p :=
          ⟨by simp [isLive, notTomb, occupied], by simpa using different⟩
        exact pcInv_probeNext limit fits bounded (passed_other passed other)

theorem pcInv_scan {call : Call} {start idx runLen : Nat} (reach : Reach tb slots)
    (inv : PcInv tb slots (.scan call start idx runLen))
    (ring : ∀ i, (Pc.scan call start idx runLen).closesRing tb slots = some i →
      slots i = tombstoneSlot) :
    PcInv tb (tb.scan slots call start idx runLen).slots
      (tb.scan slots call start idx runLen).pc := by
  obtain ⟨erasing, bounded, one, below, place, scanned⟩ := inv
  have after : tb.next idx = (start + runLen) % tb.slotCount := by
    rw [tb.next_eq, place, Nat.mod_add_mod]
    congr 1
    omega
  unfold Table.scan
  dsimp only
  split
  next tomb =>
    have longer := scanned_succ scanned (after ▸ (isTombstone_iff _).mp tomb)
    split
    next more => exact ⟨erasing, bounded, by omega, more, after, longer⟩
    next last =>
      have whole : runLen + 1 = tb.slotCount := by omega
      have first := ring start (by
        simp only [Pc.closesRing, whole, (isTombstone_iff _).mp tomb, and_self, if_true])
      refine ⟨erasing, bounded, by omega, by omega, after, ?_⟩
      rw [Nat.sub_zero, whole]
      exact clearable_of_ring (whole ▸ longer) bounded first
  next notTomb =>
    split
    · trivial
    next empty =>
      refine ⟨erasing, bounded, by omega, below.le, place, ?_⟩
      have isEmpty : slots (tb.next idx) = emptySlot := by simpa [isEmpty] using empty
      exact clearable_of_empty reach scanned (after ▸ isEmpty)

theorem pcInv_clear_step {call : Call} {start clearIdx cleared runLen : Nat}
    (inv : PcInv tb slots (.clear call start clearIdx cleared runLen)) :
    PcInv tb (tb.clear slots call start clearIdx cleared runLen).slots
      (tb.clear slots call start clearIdx cleared runLen).pc := by
  obtain ⟨erasing, bounded, lt, le, place, clearable⟩ := inv
  unfold Table.clear
  split
  next tomb =>
    dsimp only
    split
    next more =>
      refine ⟨erasing, bounded, more, le, ?_, fun k hk still m crosses => ?_⟩
      · have back : runLen - cleared - 1 = runLen - (cleared + 1) - 1 + 1 := by omega
        rw [place, back, ← Nat.add_assoc]
        exact Ring.pred_succ tb.slotCount_pos _
      · have old := crosses_clear tomb still crosses
        exact clearable k (by omega) old.1 m old.2
    · trivial
  · trivial

theorem step_pcInv {pc : Pc} {answer : Bool} {r : Result} (reach : Reach tb slots)
    (inv : PcInv tb slots pc)
    (ring : ∀ start, pc.closesRing tb slots = some start → slots start = tombstoneSlot)
    (stepped : tb.step slots answer pc = some r) : PcInv tb r.slots r.pc := by
  cases pc with
  | idle => cases stepped
  | returned call ret => cases stepped
  | find p d =>
    cases stepped
    unfold Table.find
    dsimp only
    split
    · trivial
    · split
      · trivial
      · split <;> trivial
  | probe p b d ft =>
    cases stepped
    exact pcInv_insertProbe reach inv
  | claim p b d ft =>
    cases ft with
    | none =>
      cases stepped
      exact pcInv_insertCas (pcInv_probe_start inv.1 inv.2.1)
    | some target =>
      cases stepped
      exact pcInv_insertCas inv
  | claimTombstone p b target =>
    cases stepped
    exact pcInv_insertCas (pcInv_probe_start inv.1 inv.2.1)
  | erase p d =>
    cases stepped
    exact pcInv_eraseProbe (fun idx inRange live same => ⟨inRange, live, same⟩) trivial
  | eraseCas p idx raw =>
    cases stepped
    exact pcInv_eraseCas rfl inv.1 trivial
  | eraseIf p d =>
    cases stepped
    refine pcInv_eraseProbe (fun idx inRange live same => ⟨inRange, live, same⟩) ?_
    split <;> trivial
  | precheck p idx raw =>
    cases answer <;> cases stepped
    · trivial
    · exact inv
  | eraseIfCas p idx raw =>
    cases stepped
    exact pcInv_eraseCas rfl inv.1 trivial
  | scan call start idx runLen =>
    cases stepped
    exact pcInv_scan reach inv ring
  | clear call start clearIdx cleared runLen =>
    cases stepped
    exact pcInv_clear_step inv

/-! ### Whole runs -/

variable {threads : Nat}

structure Inv (tb : Table) (s : State threads) : Prop where
  reach : Reach tb s.slots
  unique : Unique tb s.slots
  pcs : ∀ t, PcInv tb s.slots (s.pcs t)

theorem inv_initial : Inv tb (initial : State threads) where
  reach := fun p d _ holds => by cases holds.1
  unique := fun p d e _ _ holds => by cases holds.1
  pcs := fun _ => trivial

theorem start_pcInv {c : Call} {pc : Pc} (started : c.start = some pc) : PcInv tb slots pc := by
  cases c with
  | findCopy p => cases started; trivial
  | insert p b =>
    simp only [Call.start, pack, Option.map_eq_some_iff] at started
    obtain ⟨raw, packed, rfl⟩ := started
    split at packed
    next ranges => exact pcInv_probe_start ranges.1 ranges.2
    · cases packed
  | erase p => cases started; trivial
  | eraseIf p => cases started; trivial

/-- The only step that can break another call's assertion is an erase, and the side
condition keeps it away from them. -/
theorem inv_exec {s s' : State threads} {a : Act threads} {out : Out} (inv : Inv tb s)
    (undisturbed : Undisturbed tb s a) (stepped : exec tb s a = some (s', out)) : Inv tb s' := by
  cases a with
  | call t c =>
    simp only [exec] at stepped
    split at stepped
    · simp only [Option.map_eq_some_iff, Prod.mk.injEq] at stepped
      obtain ⟨pc, started, rfl, -⟩ := stepped
      refine ⟨inv.reach, inv.unique, fun u => ?_⟩
      by_cases same : u = t
      · subst same
        simp only [State.setPc, Function.update_self]
        exact start_pcInv started
      · simpa only [State.setPc, Function.update_of_ne same] using inv.pcs u
    · cases stepped
  | step t answer =>
    simp only [exec, Option.map_eq_some_iff, Prod.mk.injEq] at stepped
    obtain ⟨r, stepped, rfl, -⟩ := stepped
    have change := step_change inv.reach (inv.pcs t) stepped
    have own := step_pcInv inv.reach (inv.pcs t) undisturbed.2 stepped
    have assemble : Reach tb r.slots → Unique tb r.slots →
        (∀ u, u ≠ t → PcInv tb r.slots (s.pcs u)) →
        Inv tb (⟨r.slots, Function.update s.pcs t r.pc⟩ : State threads) := by
      intro reach unique others
      refine ⟨reach, unique, fun u => ?_⟩
      by_cases same : u = t
      · subst same
        simpa only [Function.update_self] using own
      · simpa only [Function.update_of_ne same] using others u same
    cases change with
    | quiet same _ _ =>
      rw [same] at assemble
      rw [same]
      exact assemble inv.reach inv.unique (fun u _ => inv.pcs u)
    | insert p b i can set _ =>
      apply assemble <;> rw [set]
      · exact can.reach inv.reach
      · exact can.unique inv.unique
      · exact fun u _ => pcInv_insert can (inv.pcs u)
    | erase i tombstones _ _ set _ =>
      apply assemble <;> rw [set]
      · exact reach_erase inv.reach
      · exact unique_erase inv.unique
      · exact fun u ne => pcInv_erase (undisturbed.1 i tombstones u ne) (inv.pcs u)
    | clear i tomb free set _ _ =>
      apply assemble <;> rw [set]
      · exact reach_clear tomb free inv.reach
      · exact unique_clear tomb inv.unique
      · exact fun u _ => pcInv_clear tomb (inv.pcs u)

/-- The side condition on labelled steps. -/
def Quiet (tb : Table) (s : State threads) (label : Act threads × Out) : Prop :=
  Undisturbed tb s label.1

theorem inv_step {s s' : State threads} {label : Act threads × Out} (inv : Inv tb s)
    (quiet : Quiet tb s label) (stepped : (system tb threads).step s label s') : Inv tb s' :=
  inv_exec inv quiet stepped

theorem inv_reaches {s : State threads} {labels : List (Act threads × Out)}
    (reached : (system tb threads).Reaches (Quiet tb) labels s) : Inv tb s :=
  reached.invariant (fun _ start => start ▸ inv_initial) (fun _ _ _ => inv_step)

end UringDb.PageTable
