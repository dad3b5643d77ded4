import UringDb.PageTable.Calls

/-!
# The page table under one thread

With nobody else on the table a call runs from its first access to its return, so it has a
result: the slots it leaves and what it returns. This module computes that result for every
call. A table stands for the partial map from page ids to frames that its entries form, and
every call that returns does to the table what it says it does to the map. One call need not
return: `erase` starts its round again whenever it ends, and only an EMPTY slot or a match
makes it stop.
-/
namespace UringDb.PageTable

open Slot

/-! ### Running a call to its end -/

/-- Runs a call on its own for at most `fuel` steps, until it returns. -/
def Table.complete (tb : Table) (answer : Bool) : Nat → (Nat → Nat) → Pc →
    Option ((Nat → Nat) × Ret)
  | _, slots, .returned _ ret => some (slots, ret)
  | 0, _, _ => none
  | fuel + 1, slots, pc =>
    (tb.step slots answer pc).bind fun r => tb.complete answer fuel r.slots r.pc

/-- Run on its own from `pc`, the call ends after finitely many steps with `ret`, leaving
`slots'`. -/
def Returns (tb : Table) (answer : Bool) (slots : Nat → Nat) (pc : Pc) (slots' : Nat → Nat)
    (ret : Ret) : Prop :=
  ∃ fuel, tb.complete answer fuel slots pc = some (slots', ret)

/-- Run on its own from `pc`, the call ends after finitely many steps. -/
def Terminates (tb : Table) (answer : Bool) (slots : Nat → Nat) (pc : Pc) : Prop :=
  ∃ slots' ret, Returns tb answer slots pc slots' ret

section

variable {tb : Table} {answer : Bool} {slots slots' : Nat → Nat} {pc : Pc} {ret : Ret}

theorem Returns.done (call : Call) : Returns tb answer slots (.returned call ret) slots ret :=
  ⟨0, by simp [Table.complete]⟩

theorem complete_step {fuel : Nat} {r : Result} (stepped : tb.step slots answer pc = some r) :
    tb.complete answer (fuel + 1) slots pc = tb.complete answer fuel r.slots r.pc := by
  cases pc with
  | returned => cases stepped
  | _ => simp [Table.complete, stepped]

theorem Returns.step {r : Result} (stepped : tb.step slots answer pc = some r)
    (rest : Returns tb answer r.slots r.pc slots' ret) : Returns tb answer slots pc slots' ret := by
  obtain ⟨fuel, ends⟩ := rest
  exact ⟨fuel + 1, (complete_step stepped).trans ends⟩

theorem Returns.next {between : Nat → Nat} {pc' : Pc}
    (stepped : tb.step slots answer pc = some (Table.goto between pc'))
    (rest : Returns tb answer between pc' slots' ret) : Returns tb answer slots pc slots' ret :=
  Returns.step stepped rest

theorem Returns.finish (call : Call)
    (stepped : tb.step slots answer pc = some (Table.finish slots' call ret)) :
    Returns tb answer slots pc slots' ret :=
  Returns.step stepped (.done call)

theorem complete_mono {fuel : Nat} (more : Nat)
    (ends : tb.complete answer fuel slots pc = some (slots', ret)) :
    tb.complete answer (fuel + more) slots pc = some (slots', ret) := by
  induction fuel generalizing slots pc with
  | zero =>
    cases pc with
    | returned => simpa [Table.complete] using ends
    | _ => cases ends
  | succ fuel ih =>
    cases stepped : tb.step slots answer pc with
    | none =>
      cases pc with
      | returned => simpa [Table.complete] using ends
      | _ => simp [Table.complete, stepped] at ends
    | some r =>
      rw [complete_step stepped] at ends
      rw [Nat.add_right_comm, complete_step stepped]
      exact ih ends

theorem Returns.unique {other : Nat → Nat} {ret' : Ret}
    (first : Returns tb answer slots pc slots' ret) (second : Returns tb answer slots pc other ret') :
    other = slots' ∧ ret' = ret := by
  obtain ⟨m, hm⟩ := first
  obtain ⟨n, hn⟩ := second
  have left := complete_mono n hm
  have right := complete_mono m hn
  rw [Nat.add_comm n m, left] at right
  simpa [eq_comm] using right

/-- A call that only probes: it moves from one probe distance to the next up to `last`. -/
theorem Returns.walk (at_ : Nat → Pc) (last : Nat)
    (passes : ∀ e < last, tb.step slots answer (at_ e) = some (Table.goto slots (at_ (e + 1))))
    (rest : Returns tb answer slots (at_ last) slots' ret) :
    Returns tb answer slots (at_ 0) slots' ret := by
  induction last with
  | zero => exact rest
  | succ last ih =>
    apply ih (fun e he => passes e (by omega))
    exact Returns.next (passes last (by omega)) rest

end

/-! ### What a probe finds -/

/-- No EMPTY slot before an entry on its path, and one entry for each page. -/
structure Sound (tb : Table) (slots : Nat → Nat) : Prop where
  reach : Reach tb slots
  unique : Unique tb slots

/-- Slot `probe p e` makes a search for `p` go on. -/
def Passes (tb : Table) (slots : Nat → Nat) (p e : Nat) : Prop :=
  slots (tb.probe p e) ≠ emptySlot ∧ ¬ Holds slots (tb.probe p e) p

/-- How a search for `p` ends: at its entry, at an EMPTY slot, or after a whole round. -/
inductive Found (tb : Table) (slots : Nat → Nat) (p : Nat) : Prop
  | entry (d : Nat) (bounded : d < tb.slotCount) (holds : Holds slots (tb.probe p d) p)
      (before : ∀ e < d, Passes tb slots p e)
  | empty (d : Nat) (bounded : d < tb.slotCount) (empty : slots (tb.probe p d) = emptySlot)
      (before : ∀ e < d, Passes tb slots p e)
  | round (before : ∀ e < tb.slotCount, Passes tb slots p e)

theorem found (tb : Table) (slots : Nat → Nat) (p : Nat) : Found tb slots p := by
  by_cases stops : ∃ d, d < tb.slotCount ∧ ¬ Passes tb slots p d
  · -- the first slot at which the search does not go on
    classical
    have first := Nat.find_spec stops
    have before : ∀ e < Nat.find stops, Passes tb slots p e := by
      intro e he
      have goesOn := Nat.find_min stops he
      simp only [not_and, not_not] at goesOn
      exact goesOn (by omega)
    by_cases empty : slots (tb.probe p (Nat.find stops)) = emptySlot
    · exact .empty _ first.1 empty before
    · refine .entry _ first.1 ?_ before
      by_contra absent
      exact first.2 ⟨empty, absent⟩
  · push Not at stops
    exact .round stops

/-- Page `p` has an entry. -/
def Stored (tb : Table) (slots : Nat → Nat) (p : Nat) : Prop :=
  ∃ i < tb.slotCount, Holds slots i p

section

variable {tb : Table} {slots : Nat → Nat} {p : Nat}

theorem not_stored_of_empty (sound : Sound tb slots) {d : Nat}
    (empty : slots (tb.probe p d) = emptySlot) (before : ∀ e < d, Passes tb slots p e) :
    ¬ Stored tb slots p := by
  rintro ⟨i, bounded, holds⟩
  obtain ⟨e, he, rfl⟩ := tb.probe_surj p i bounded
  rcases Nat.lt_trichotomy e d with lt | rfl | gt
  · exact (before e lt).2 holds
  · rw [Holds, empty] at holds; cases holds.1
  · exact sound.reach p e he holds d gt empty

theorem not_stored_of_round (before : ∀ e < tb.slotCount, Passes tb slots p e) :
    ¬ Stored tb slots p := by
  rintro ⟨i, bounded, holds⟩
  obtain ⟨e, he, rfl⟩ := tb.probe_surj p i bounded
  exact (before e he).2 holds

theorem Holds.not_empty {i : Nat} (holds : Holds slots i p) : isEmpty (slots i) = false := by
  have live := ((isLive_iff _).mp holds.1).1
  simpa [isEmpty] using live

theorem Holds.not_tombstone {i : Nat} (holds : Holds slots i p) :
    isTombstone (slots i) = false := by
  have live := ((isLive_iff _).mp holds.1).2
  simpa [isTombstone] using live

theorem Passes.not_empty {e : Nat} (passes : Passes tb slots p e) :
    isEmpty (slots (tb.probe p e)) = false := by
  simpa [isEmpty] using passes.1

theorem Passes.skips {e : Nat} (passes : Passes tb slots p e) :
    isTombstone (slots (tb.probe p e)) = true ∨ Slot.pid (slots (tb.probe p e)) ≠ p := by
  by_contra hits
  simp only [not_or, Bool.not_eq_true, not_not] at hits
  exact passes.2 ⟨by simp [isLive, passes.not_empty, hits.1], hits.2⟩

/-! ### `find_copy` -/

theorem find_passes {answer : Bool} {e : Nat} (passes : Passes tb slots p e)
    (more : e + 1 < tb.slotCount) :
    tb.step slots answer (.find p e) = some (Table.goto slots (.find p (e + 1))) := by
  have skips := passes.skips
  simp only [Table.step, Table.find, passes.not_empty, more]
  rcases skips with tomb | other
  · simp [tomb]
  · simp [other]

theorem find_entry (answer : Bool) {d : Nat} (bounded : d < tb.slotCount)
    (holds : Holds slots (tb.probe p d) p) (before : ∀ e < d, Passes tb slots p e) :
    Returns tb answer slots (.find p 0) slots (.found (Slot.bid (slots (tb.probe p d)))) := by
  apply Returns.walk (.find p) d
  · intro e he
    exact find_passes (before e he) (by omega)
  · apply Returns.finish (.findCopy p)
    simp [Table.step, Table.find, holds.not_empty, holds.not_tombstone, holds.2]

theorem find_absent (answer : Bool) (absent : ¬ Stored tb slots p) :
    Returns tb answer slots (.find p 0) slots (.bool false) := by
  cases found tb slots p with
  | entry d bounded holds _ => exact absurd ⟨_, tb.probe_lt p d, holds⟩ absent
  | empty d bounded empty before =>
    apply Returns.walk (.find p) d
    · intro e he
      exact find_passes (before e he) (by omega)
    · apply Returns.finish (.findCopy p)
      simp [Table.step, Table.find, empty, isEmpty]
  | round before =>
    have positive := tb.slotCount_pos
    apply Returns.walk (.find p) (tb.slotCount - 1)
    · intro e he
      exact find_passes (before e (by omega)) (by omega)
    · -- the last slot of the round is passed as well, and the loop ends
      have last := before (tb.slotCount - 1) (by omega)
      have ends : ¬ tb.slotCount - 1 + 1 < tb.slotCount := by omega
      apply Returns.finish (.findCopy p)
      simp only [Table.step, Table.find, last.not_empty, ends]
      rcases last.skips with tomb | other
      · simp [tomb]
      · simp [other]

/-! ### The probe loop of the two erases -/

theorem eraseProbe_empty {call : Call} {d : Nat} {match_ : Nat → Nat → Pc} {again : Result}
    (empty : slots (tb.probe p d) = emptySlot) :
    tb.eraseProbe slots call p d match_ again = Table.finish slots call (.bool false) := by
  simp [Table.eraseProbe, empty, isEmpty]

theorem eraseProbe_entry {call : Call} {d : Nat} {match_ : Nat → Nat → Pc} {again : Result}
    (holds : Holds slots (tb.probe p d) p) :
    tb.eraseProbe slots call p d match_ again =
      Table.goto slots (match_ (tb.probe p d) (slots (tb.probe p d))) := by
  simp [Table.eraseProbe, holds.not_empty, holds.not_tombstone, holds.2]

theorem eraseProbe_passes {call : Call} {d : Nat} {match_ : Nat → Nat → Pc} {again : Result}
    (passes : Passes tb slots p d) : tb.eraseProbe slots call p d match_ again = again := by
  simp only [Table.eraseProbe, passes.not_empty]
  rcases passes.skips with tomb | other
  · simp [tomb]
  · simp [other]

theorem erase_passes {answer : Bool} {e : Nat} (passes : Passes tb slots p e)
    (more : e + 1 < tb.slotCount) :
    tb.step slots answer (.erase p e) = some (Table.goto slots (.erase p (e + 1))) := by
  simp only [Table.step, eraseProbe_passes passes, if_pos more]

theorem eraseIf_passes {answer : Bool} {e : Nat} (passes : Passes tb slots p e)
    (more : e + 1 < tb.slotCount) :
    tb.step slots answer (.eraseIf p e) = some (Table.goto slots (.eraseIf p (e + 1))) := by
  simp only [Table.step, eraseProbe_passes passes, if_pos more]

/-- An erase of a page without an entry ends at the first EMPTY slot. -/
theorem erase_empty (answer : Bool) {d : Nat} (bounded : d < tb.slotCount)
    (empty : slots (tb.probe p d) = emptySlot) (before : ∀ e < d, Passes tb slots p e) :
    Returns tb answer slots (.erase p 0) slots (.bool false) := by
  apply Returns.walk (.erase p) d
  · intro e he
    exact erase_passes (before e he) (by omega)
  · exact Returns.finish _ (congrArg some (eraseProbe_empty empty))

/-- Without an EMPTY slot and without an entry of `p` the erase goes round for ever. -/
theorem erase_diverges {answer : Bool} (before : ∀ e < tb.slotCount, Passes tb slots p e)
    {slots' : Nat → Nat} {ret : Ret} : ¬ Returns tb answer slots (.erase p 0) slots' ret := by
  -- no fuel is enough, from whichever distance the round is at
  have never : ∀ fuel d, d < tb.slotCount → tb.complete answer fuel slots (.erase p d) = none := by
    intro fuel
    induction fuel with
    | zero => intro d bounded; rfl
    | succ fuel ih =>
      intro d bounded
      have stepped : tb.step slots answer (.erase p d) = some (Table.goto slots
          (.erase p (if d + 1 < tb.slotCount then d + 1 else 0))) :=
        congrArg some (eraseProbe_passes (before d bounded))
      rw [complete_step stepped]
      apply ih
      split
      · assumption
      · exact tb.slotCount_pos
  rintro ⟨fuel, ends⟩
  rw [never fuel 0 tb.slotCount_pos] at ends
  cases ends

theorem eraseIf_absent (answer : Bool) (absent : ¬ Stored tb slots p) :
    Returns tb answer slots (.eraseIf p 0) slots (.bool false) := by
  cases found tb slots p with
  | entry d bounded holds _ => exact absurd ⟨_, tb.probe_lt p d, holds⟩ absent
  | empty d bounded empty before =>
    apply Returns.walk (.eraseIf p) d
    · intro e he
      exact eraseIf_passes (before e he) (by omega)
    · exact Returns.finish _ (congrArg some (eraseProbe_empty empty))
  | round before =>
    have positive := tb.slotCount_pos
    apply Returns.walk (.eraseIf p) (tb.slotCount - 1)
    · intro e he
      exact eraseIf_passes (before e (by omega)) (by omega)
    · -- unlike `erase`, the loop is left when the round is complete
      have ends : ¬ tb.slotCount - 1 + 1 < tb.slotCount := by omega
      apply Returns.finish (.eraseIf p)
      simp only [Table.step, eraseProbe_passes (before (tb.slotCount - 1) (by omega)), if_neg ends]

end

/-! ### `collapse_tombstone_run` -/

/-- Only dead slots differ. -/
def SameEntries (slots slots' : Nat → Nat) : Prop :=
  ∀ i, isLive (slots i) = true ∨ isLive (slots' i) = true → slots' i = slots i

namespace SameEntries

variable {slots slots' : Nat → Nat}

theorem refl (slots : Nat → Nat) : SameEntries slots slots := fun _ _ => rfl

theorem trans {slots'' : Nat → Nat} (first : SameEntries slots slots')
    (second : SameEntries slots' slots'') : SameEntries slots slots'' := by
  intro i live
  rcases live with live | live
  · have same := first i (Or.inl live)
    rw [second i (Or.inl (by rw [same]; exact live)), same]
  · have same := second i (Or.inr live)
    rw [same, first i (Or.inr (by rw [← same]; exact live))]

theorem entry_iff (same : SameEntries slots slots') {i p b : Nat} :
    Entry slots' i p b ↔ Entry slots i p b := by
  constructor
  · intro entry
    have eq := same i (Or.inr entry.1.1)
    simpa only [Entry, Holds, eq] using entry
  · intro entry
    have eq := same i (Or.inl entry.1.1)
    simpa only [Entry, Holds, eq] using entry

theorem cleared {i : Nat} (tomb : slots i = tombstoneSlot) :
    SameEntries slots (setSlot slots i emptySlot) := by
  intro j live
  by_cases here : j = i
  · subst here
    simp [setSlot_same, tomb] at live
  · exact setSlot_ne _ _ here

end SameEntries

/-- The clearing loop ends, and keeps the table sound if the slots left to clear are crossed
by no path. -/
theorem clear_returns (tb : Table) (answer : Bool) (call : Call) (start left : Nat)
    (positive : 0 < left) (slots : Nat → Nat) (cleared : Nat) :
    ∃ slots', Returns tb answer slots
        (.clear call start ((start + (left - 1)) % tb.slotCount) cleared (cleared + left)) slots'
        (.bool true) ∧ SameEntries slots slots' ∧
      (Sound tb slots → Clearable tb slots start left → Sound tb slots') := by
  induction left generalizing slots cleared with
  | zero => omega
  | succ left ih =>
    rw [Nat.add_sub_cancel]
    by_cases tomb : slots ((start + left) % tb.slotCount) = tombstoneSlot
    · have keeps := SameEntries.cleared tomb
      have sound : Sound tb slots → Clearable tb slots start (left + 1) →
          Sound tb (setSlot slots ((start + left) % tb.slotCount) emptySlot) := by
        intro sound clearable
        have free := clearable left (by omega) tomb
        exact ⟨reach_clear tomb free sound.reach, unique_clear tomb sound.unique⟩
      rcases Nat.eq_zero_or_pos left with rfl | positive
      · -- the slot just cleared was the last of the run
        refine ⟨_, Returns.finish call ?_, keeps, sound⟩
        simp only [Table.step, Table.clear, tomb, if_true, if_neg (Nat.lt_irrefl (cleared + 1))]
      · -- one slot further back
        have back : (if (start + left) % tb.slotCount = 0 then tb.slotMask
            else (start + left) % tb.slotCount - 1) = (start + (left - 1)) % tb.slotCount := by
          have pred := Ring.pred_succ tb.slotCount_pos (start + (left - 1))
          rwa [Nat.add_assoc, Nat.sub_add_cancel positive] at pred
        have more : cleared + 1 < cleared + (left + 1) := by omega
        obtain ⟨slots', returns, same, rest⟩ := ih positive
          (setSlot slots ((start + left) % tb.slotCount) emptySlot) (cleared + 1)
        rw [Nat.add_assoc, Nat.add_comm 1 left] at returns
        refine ⟨slots', Returns.next ?_ returns, keeps.trans same, fun ok clearable => ?_⟩
        · simp only [Table.step, Table.clear, tomb, if_true, if_pos more, back]
        · apply rest (sound ok clearable)
          intro k hk still m crosses
          have old := crosses_clear tomb still crosses
          exact clearable k (by omega) old.1 m old.2
    · -- no longer a tombstone: the loop is left
      refine ⟨slots, Returns.finish call ?_, .refl _, fun ok _ => ok⟩
      simp only [Table.step, Table.clear, tomb, if_false]

/-- The search for the end of the run ends, and so does the clearing that may follow. -/
theorem scan_returns (tb : Table) (answer : Bool) (call : Call) (slots : Nat → Nat) (start : Nat)
    (bounded : start < tb.slotCount) (runLen : Nat) (positive : 0 < runLen)
    (more : runLen < tb.slotCount) :
    ∃ slots', Returns tb answer slots
        (.scan call start ((start + (runLen - 1)) % tb.slotCount) runLen) slots' (.bool true) ∧
      SameEntries slots slots' ∧
      (Sound tb slots → slots start = tombstoneSlot → Scanned tb slots start runLen →
        Sound tb slots') := by
  have ahead : tb.next ((start + (runLen - 1)) % tb.slotCount) =
      (start + runLen) % tb.slotCount := by
    rw [tb.next_eq, Ring.add_shift, Nat.sub_add_cancel positive]
  by_cases tomb : slots ((start + runLen) % tb.slotCount) = tombstoneSlot
  · have isTomb : isTombstone (slots ((start + runLen) % tb.slotCount)) = true := by
      rw [tomb]; rfl
    by_cases further : runLen + 1 < tb.slotCount
    · obtain ⟨slots', returns, same, rest⟩ :=
        scan_returns tb answer call slots start bounded (runLen + 1) (by omega) further
      refine ⟨slots', Returns.next ?_ returns, same, fun ok first scanned => ?_⟩
      · simp only [Table.step, Table.scan, ahead, isTomb, if_pos further, if_true,
          Nat.add_sub_cancel]
      · exact rest ok first (scanned_succ scanned tomb)
    · -- the whole table is one run
      have whole : runLen + 1 = tb.slotCount := by omega
      obtain ⟨slots', returns, same, rest⟩ :=
        clear_returns tb answer call start (runLen + 1) (by omega) slots 0
      rw [Nat.zero_add, Nat.add_sub_cancel] at returns
      refine ⟨slots', Returns.next ?_ returns, same, fun ok first scanned => ?_⟩
      · simp only [Table.step, Table.scan, ahead, isTomb, if_neg further, if_true]
      · have all := scanned_succ scanned tomb
        rw [whole] at all rest
        exact rest ok (clearable_of_ring all bounded first)
  · have notTomb : isTombstone (slots ((start + runLen) % tb.slotCount)) = false := by
      simpa [isTombstone] using tomb
    by_cases empty : slots ((start + runLen) % tb.slotCount) = emptySlot
    · have isEmpty_ : isEmpty (slots ((start + runLen) % tb.slotCount)) = true := by
        rw [empty]; rfl
      obtain ⟨slots', returns, same, rest⟩ :=
        clear_returns tb answer call start runLen positive slots 0
      rw [Nat.zero_add] at returns
      refine ⟨slots', Returns.next ?_ returns, same, fun ok _ scanned => ?_⟩
      · simp [Table.step, Table.scan, ahead, notTomb, isEmpty_]
      · exact rest ok (clearable_of_empty ok.reach scanned empty)
    · -- an entry follows the run: nothing to collapse
      have occupied : isEmpty (slots ((start + runLen) % tb.slotCount)) = false := by
        simpa [isEmpty] using empty
      refine ⟨slots, Returns.finish call ?_, .refl _, fun ok _ _ => ok⟩
      simp [Table.step, Table.scan, ahead, notTomb, occupied]
termination_by tb.slotCount - runLen

/-- `collapse_tombstone_run` ends on every table; on a sound one whose first slot is a
tombstone it leaves a sound one with the same entries. -/
theorem collapse_returns (tb : Table) (answer : Bool) (call : Call) (slots : Nat → Nat)
    {start : Nat} (bounded : start < tb.slotCount) :
    ∃ slots', Returns tb answer slots (tb.collapse call start) slots' (.bool true) ∧
      SameEntries slots slots' ∧
      (Sound tb slots → slots start = tombstoneSlot → Sound tb slots') := by
  have home : start % tb.slotCount = start := Nat.mod_eq_of_lt bounded
  unfold Table.collapse
  split
  next more =>
    obtain ⟨slots', returns, same, rest⟩ :=
      scan_returns tb answer call slots start bounded 1 Nat.one_pos more
    rw [Nat.sub_self, Nat.add_zero, home] at returns
    exact ⟨slots', returns, same, fun ok first => rest ok first (scanned_one start)⟩
  next single =>
    -- a table of one slot
    have positive := tb.slotCount_pos
    have one : tb.slotCount = 1 := by omega
    obtain ⟨slots', returns, same, rest⟩ :=
      clear_returns tb answer call start 1 Nat.one_pos slots 0
    rw [Nat.sub_self, Nat.add_zero, home] at returns
    refine ⟨slots', returns, same, fun ok first => rest ok ?_⟩
    rw [← one]
    apply clearable_of_ring _ bounded first
    rw [one]
    exact scanned_one start

/-! ### The compare-and-swap of an erase -/

section

variable {tb : Table} {slots : Nat → Nat} {p i : Nat}

/-- What is left when the entry of `p` in slot `i` is gone. -/
structure Removed (tb : Table) (slots : Nat → Nat) (p : Nat) (slots' : Nat → Nat) : Prop where
  sound : Sound tb slots'
  entries : ∀ {i q b}, i < tb.slotCount → (Entry slots' i q b ↔ Entry slots i q b ∧ q ≠ p)

theorem Sound.one_slot (sound : Sound tb slots) {i j : Nat} (hi : i < tb.slotCount)
    (hj : j < tb.slotCount) (first : Holds slots i p) (second : Holds slots j p) : i = j := by
  obtain ⟨d, hd, rfl⟩ := tb.probe_surj p i hi
  obtain ⟨e, he, rfl⟩ := tb.probe_surj p j hj
  rw [sound.unique p d e hd he first second]

theorem entry_tombstoned (sound : Sound tb slots) (bounded : i < tb.slotCount)
    (holds : Holds slots i p) {j q b : Nat} (inRange : j < tb.slotCount) :
    Entry (setSlot slots i tombstoneSlot) j q b ↔ Entry slots j q b ∧ q ≠ p := by
  constructor
  · intro entry
    obtain ⟨apart, old⟩ := entry.1.of_tombstoned
    have bid := entry.2
    rw [setSlot_ne _ _ apart] at bid
    refine ⟨⟨old, bid⟩, ?_⟩
    rintro rfl
    exact apart (sound.one_slot inRange bounded old holds)
  · rintro ⟨entry, other⟩
    have apart : j ≠ i := by
      rintro rfl
      exact other (entry.1.2.symm.trans holds.2)
    simpa only [Entry, Holds, setSlot_ne _ _ apart] using entry

/-- From a successful compare-and-swap on, an erase ends and has removed exactly `p`. -/
theorem eraseCas_returns (answer : Bool) (call : Call) (sound : Sound tb slots)
    (bounded : i < tb.slotCount) (holds : Holds slots i p) (pc : Pc) {failed : Result}
    (stepped : tb.step slots answer pc = some (tb.eraseCas slots call i (slots i) failed)) :
    ∃ slots', Returns tb answer slots pc slots' (.bool true) ∧ Removed tb slots p slots' := by
  obtain ⟨slots', returns, same, keeps⟩ := collapse_returns tb answer call
    (setSlot slots i tombstoneSlot) bounded
  have tombstoned : Sound tb (setSlot slots i tombstoneSlot) :=
    ⟨reach_erase sound.reach, unique_erase sound.unique⟩
  refine ⟨slots', ?_, ?_, ?_⟩
  · apply Returns.step stepped
    simpa only [Table.eraseCas, if_true] using returns
  · exact keeps tombstoned (setSlot_same _ _ _)
  · intro j q b inRange
    rw [same.entry_iff]
    exact entry_tombstoned sound bounded holds inRange

theorem erase_stored (answer : Bool) (sound : Sound tb slots) (stored : Stored tb slots p) :
    ∃ slots', Returns tb answer slots (.erase p 0) slots' (.bool true) ∧
      Removed tb slots p slots' := by
  cases found tb slots p with
  | entry d bounded holds before =>
    obtain ⟨slots', returns, removed⟩ := eraseCas_returns answer (.erase p) sound
      (tb.probe_lt p d) holds (.eraseCas p (tb.probe p d) (slots (tb.probe p d))) rfl
    refine ⟨slots', ?_, removed⟩
    apply Returns.walk (.erase p) d
    · intro e he
      exact erase_passes (before e he) (by omega)
    · exact Returns.next (congrArg some (eraseProbe_entry holds)) returns
  | empty d bounded empty before => exact absurd stored (not_stored_of_empty sound empty before)
  | round before => exact absurd stored (not_stored_of_round before)

/-- `erase_if` asks the caller's `precheck` before it removes the entry. -/
theorem eraseIf_stored (sound : Sound tb slots) (stored : Stored tb slots p) :
    Returns tb false slots (.eraseIf p 0) slots (.bool false) ∧
    ∃ slots', Returns tb true slots (.eraseIf p 0) slots' (.bool true) ∧
      Removed tb slots p slots' := by
  cases found tb slots p with
  | entry d bounded holds before =>
    have toPrecheck : ∀ answer slots' ret, Returns tb answer slots
        (.precheck p (tb.probe p d) (slots (tb.probe p d))) slots' ret →
        Returns tb answer slots (.eraseIf p 0) slots' ret := by
      intro answer slots' ret rest
      apply Returns.walk (.eraseIf p) d
      · intro e he
        exact eraseIf_passes (before e he) (by omega)
      · exact Returns.next (congrArg some (eraseProbe_entry holds)) rest
    constructor
    · exact toPrecheck _ _ _ (Returns.finish (.eraseIf p) rfl)
    · obtain ⟨slots', returns, removed⟩ := eraseCas_returns true (.eraseIf p) sound
        (tb.probe_lt p d) holds (.eraseIfCas p (tb.probe p d) (slots (tb.probe p d))) rfl
      exact ⟨slots', toPrecheck _ _ _ (Returns.next rfl returns), removed⟩
  | empty d bounded empty before => exact absurd stored (not_stored_of_empty sound empty before)
  | round before => exact absurd stored (not_stored_of_round before)

end

/-! ### `insert` -/

def liveEntries (tb : Table) (slots : Nat → Nat) : Nat :=
  (List.range tb.slotCount).countP fun i => isLive (slots i)

section

variable {tb : Table} {slots : Nat → Nat} {p b : Nat}

/-- A round that met other pages' entries only has met a full table. -/
theorem full_of_passed (passed : Passed tb slots p tb.slotCount none) :
    liveEntries tb slots = tb.slotCount := by
  have all : ∀ i ∈ List.range tb.slotCount, isLive (slots i) = true := by
    intro i inRange
    obtain ⟨d, hd, rfl⟩ := tb.probe_surj p i (List.mem_range.mp inRange)
    exact (passed d hd).1
  rw [liveEntries, List.countP_eq_length.mpr all, List.length_range]

/-- What an insert on its own does: it reports the entry, or it places one. -/
def Inserts (tb : Table) (answer : Bool) (slots : Nat → Nat) (p b : Nat) (pc : Pc) : Prop :=
  (Stored tb slots p ∧ Returns tb answer slots pc slots (.bool false)) ∨
  ∃ i, CanInsert tb slots p b i ∧
    Returns tb answer slots pc (setSlot slots i (word p b)) (.bool true)

theorem Inserts.before {answer : Bool} {pc : Pc} (pc' : Pc)
    (stepped : tb.step slots answer pc = some (Table.goto slots pc'))
    (rest : Inserts tb answer slots p b pc') : Inserts tb answer slots p b pc := by
  rcases rest with ⟨stored, returns⟩ | ⟨i, can, returns⟩
  · exact Or.inl ⟨stored, Returns.next stepped returns⟩
  · exact Or.inr ⟨i, can, Returns.next stepped returns⟩

theorem inserts_cas {answer : Bool} {pc failed : Pc} {target expected : Nat}
    (can : CanInsert tb slots p b target) (same : slots target = expected)
    (stepped : tb.step slots answer pc =
      some (Table.insertCas slots p b target expected failed)) :
    Inserts tb answer slots p b pc := by
  refine Or.inr ⟨target, can, Returns.step stepped ?_⟩
  simp only [Table.insertCas, same, if_true]
  exact .done _

/-- The insert after its probe loop, once it remembers a tombstone. -/
theorem inserts_tombstone (answer : Bool) (fits : b ≤ bidMask) {target : Nat}
    (passed : Passed tb slots p tb.slotCount (some target))
    (tomb : slots target = tombstoneSlot) :
    Inserts tb answer slots p b (.claimTombstone p b target) :=
  inserts_cas (canInsert_tombstone fits passed tomb) tomb rfl

/-- The probe loop of an insert from distance `d` on. The first tombstone it met is still
one, since nobody else writes. -/
theorem probe_inserts (answer : Bool) (sound : Sound tb slots) (fits : b ≤ bidMask)
    (room : liveEntries tb slots < tb.slotCount) (d : Nat) (bounded : d < tb.slotCount)
    (ft : Option Nat) (passed : Passed tb slots p d ft)
    (tombs : ∀ target, ft = some target → slots target = tombstoneSlot) :
    Inserts tb answer slots p b (.probe p b d ft) := by
  -- what follows a slot that was passed over
  have goesOn : ∀ ft', Passed tb slots p (d + 1) ft' →
      (∀ target, ft' = some target → slots target = tombstoneSlot) →
      Inserts tb answer slots p b (tb.probeNext p b d ft') := by
    intro ft' passed' tombs'
    unfold Table.probeNext
    split
    next more =>
      exact probe_inserts answer sound fits room (d + 1) more ft' passed' tombs'
    next last =>
      have round : d + 1 = tb.slotCount := by omega
      rw [round] at passed'
      cases ft' with
      | none =>
        -- every slot holds another page's entry: there was no room
        have full := full_of_passed passed'
        omega
      | some target => exact inserts_tombstone answer fits passed' (tombs' target rfl)
  by_cases tomb : slots (tb.probe p d) = tombstoneSlot
  · apply Inserts.before (tb.probeNext p b d (some (ft.getD (tb.probe p d))))
    · simp [Table.step, Table.insertProbe, tomb, isTombstone]
    · apply goesOn _ (passed_tombstone passed tomb)
      intro target same
      cases ft with
      | none =>
        obtain rfl : tb.probe p d = target := Option.some.inj same
        exact tomb
      | some first => exact tombs target same
  · have notTomb : isTombstone (slots (tb.probe p d)) = false := by simpa [isTombstone] using tomb
    by_cases empty : slots (tb.probe p d) = emptySlot
    · apply Inserts.before (.claim p b d ft)
      · simp only [Table.step, Table.insertProbe, notTomb]
        simp [empty, isEmpty]
      · cases ft with
        | none => exact inserts_cas (canInsert_empty fits bounded sound.reach passed empty) empty rfl
        | some target =>
          have all := passed_of_empty bounded sound.reach passed empty
          have tomb' := tombs target rfl
          exact inserts_cas (canInsert_tombstone fits all tomb') tomb' rfl
    · have occupied : isEmpty (slots (tb.probe p d)) = false := by simpa [isEmpty] using empty
      have live : isLive (slots (tb.probe p d)) = true := by simp [isLive, occupied, notTomb]
      by_cases same : Slot.pid (slots (tb.probe p d)) = p
      · refine Or.inl ⟨⟨_, tb.probe_lt p d, live, same⟩, Returns.finish (.insert p b) ?_⟩
        simp [Table.step, Table.insertProbe, notTomb, occupied, same]
      · apply Inserts.before (tb.probeNext p b d ft)
        · simp [Table.step, Table.insertProbe, notTomb, occupied, same]
        · exact goesOn ft (passed_other passed ⟨live, same⟩) tombs
termination_by tb.slotCount - d

theorem insert_inserts (answer : Bool) (sound : Sound tb slots) (fits : b ≤ bidMask)
    (room : liveEntries tb slots < tb.slotCount) :
    Inserts tb answer slots p b (.probe p b 0 none) := by
  apply probe_inserts answer sound fits room 0 tb.slotCount_pos none
  · intro e he
    omega
  · intro target none_
    cases none_

end

end UringDb.PageTable
