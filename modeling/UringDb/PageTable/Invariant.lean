import UringDb.Lib.Ring
import UringDb.PageTable.Model

/-!
# What keeps the page table consistent

Two assertions about the slots: an entry is reachable from its home slot over slots
that are not EMPTY, and no page id has two entries. An insert relies on what it saw
on its way (occupied slots stay occupied, a remembered tombstone is not recycled into
a second tombstone), a collapse relies on no entry having been placed behind the run
it is about to clear. `PcInv` states both for each program counter. Exactly one kind
of step can break them: an erase that tombstones a slot such a call relies on. The
side condition `Undisturbed` excludes it.
-/
namespace UringDb.PageTable

open Slot

namespace Table

variable (tb : Table)

theorem slotCount_pos : 0 < tb.slotCount := Nat.two_pow_pos tb.bits

theorem and_slotMask (x : Nat) : x &&& tb.slotMask = x % tb.slotCount := Ring.and_mask x tb.bits

theorem probe_eq (p d : Nat) : tb.probe p d = (tb.slotIdx p + d) % tb.slotCount :=
  tb.and_slotMask _

theorem next_eq (i : Nat) : tb.next i = (i + 1) % tb.slotCount := tb.and_slotMask _

theorem probe_lt (p d : Nat) : tb.probe p d < tb.slotCount := by
  rw [probe_eq]; exact Nat.mod_lt _ tb.slotCount_pos

theorem slotIdx_lt (p : Nat) : tb.slotIdx p < tb.slotCount := by
  rw [slotIdx, and_slotMask]; exact Nat.mod_lt _ tb.slotCount_pos

theorem probe_inj {p d e : Nat} (hd : d < tb.slotCount) (he : e < tb.slotCount)
    (same : tb.probe p d = tb.probe p e) : d = e := by
  rw [probe_eq, probe_eq] at same
  exact Ring.add_inj hd he same

theorem probe_surj (p i : Nat) (bounded : i < tb.slotCount) :
    ∃ d < tb.slotCount, tb.probe p d = i :=
  ⟨Ring.dist tb.slotCount (tb.slotIdx p) i, Ring.dist_lt tb.slotCount_pos _ _, by
    rw [probe_eq]; exact Ring.add_dist _ _ bounded⟩

theorem probe_shift (p d m : Nat) : (tb.probe p d + m) % tb.slotCount = tb.probe p (d + m) := by
  rw [probe_eq, probe_eq]; exact Ring.add_shift _ _ _

end Table

/-! ### Assertions about the slots -/

/-- Slot `i` holds a live entry of `p`. -/
def Holds (slots : Nat → Nat) (i p : Nat) : Prop :=
  isLive (slots i) = true ∧ Slot.pid (slots i) = p

/-- Slot `i` holds a live entry of another page than `p`. -/
def Other (slots : Nat → Nat) (i p : Nat) : Prop :=
  isLive (slots i) = true ∧ Slot.pid (slots i) ≠ p

instance (slots : Nat → Nat) (i p : Nat) : Decidable (Holds slots i p) :=
  inferInstanceAs (Decidable (_ ∧ _))

section

variable (tb : Table) (slots : Nat → Nat)

/-- No EMPTY slot lies before an entry on its probe path. -/
def Reach : Prop :=
  ∀ p d, d < tb.slotCount → Holds slots (tb.probe p d) p →
    ∀ e < d, slots (tb.probe p e) ≠ emptySlot

/-- A page id has at most one entry, named here by its probe distance. -/
def Unique : Prop :=
  ∀ p d e, d < tb.slotCount → e < tb.slotCount → Holds slots (tb.probe p d) p →
    Holds slots (tb.probe p e) p → d = e

/-- Some entry lies `m` slots behind `c` and its probe path leads over `c`. -/
def Crosses (c m : Nat) : Prop :=
  ∃ p d, 1 ≤ m ∧ m ≤ d ∧ d < tb.slotCount ∧ Holds slots (tb.probe p d) p ∧
    tb.probe p (d - m) = c

/-- What an insert of `p` that examined `d` slots relies on. Up to its first tombstone
it saw other pages' entries; and as long as that tombstone is still one, the slots it
examined hold no entry of `p`. -/
def Passed (p d : Nat) : Option Nat → Prop
  | none => ∀ e < d, Other slots (tb.probe p e) p
  | some target => ∃ first < d, target = tb.probe p first ∧
      (∀ e < first, Other slots (tb.probe p e) p) ∧
      (slots target = tombstoneSlot → ∀ e < d, ¬ Holds slots (tb.probe p e) p)

/-- What a collapse that is still looking for the end of its run relies on: behind a slot
that is still a tombstone, entries lead over it only from beyond the run. -/
def Scanned (start runLen : Nat) : Prop :=
  ∀ k < runLen, slots ((start + k) % tb.slotCount) = tombstoneSlot →
    ∀ m, Crosses tb slots ((start + k) % tb.slotCount) m → runLen ≤ k + m

/-- What a collapse with `left` slots to clear relies on. -/
def Clearable (start left : Nat) : Prop :=
  ∀ k < left, slots ((start + k) % tb.slotCount) = tombstoneSlot →
    ∀ m, ¬ Crosses tb slots ((start + k) % tb.slotCount) m

/-- The calls that end in a collapse. -/
def Call.isErase : Call → Bool
  | .erase _ => true
  | .eraseIf _ => true
  | _ => false

/-- The assertion at each program counter. -/
def PcInv : Pc → Prop
  | .probe p b d ft =>
    p < pidLimit ∧ b ≤ bidMask ∧ d < tb.slotCount ∧ Passed tb slots p d ft
  | .claim p b d none =>
    p < pidLimit ∧ b ≤ bidMask ∧ d < tb.slotCount ∧ Passed tb slots p d none
  | .claim p b _ (some target) =>
    p < pidLimit ∧ b ≤ bidMask ∧ Passed tb slots p tb.slotCount (some target)
  | .claimTombstone p b target =>
    p < pidLimit ∧ b ≤ bidMask ∧ Passed tb slots p tb.slotCount (some target)
  | .eraseCas p idx raw => idx < tb.slotCount ∧ isLive raw = true ∧ Slot.pid raw = p
  | .precheck p idx raw => idx < tb.slotCount ∧ isLive raw = true ∧ Slot.pid raw = p
  | .eraseIfCas p idx raw => idx < tb.slotCount ∧ isLive raw = true ∧ Slot.pid raw = p
  | .scan call start idx runLen =>
    call.isErase = true ∧ start < tb.slotCount ∧ 1 ≤ runLen ∧ runLen < tb.slotCount ∧
      idx = (start + (runLen - 1)) % tb.slotCount ∧ Scanned tb slots start runLen
  | .clear call start clearIdx cleared runLen =>
    call.isErase = true ∧ start < tb.slotCount ∧ cleared < runLen ∧ runLen ≤ tb.slotCount ∧
      clearIdx = (start + (runLen - cleared - 1)) % tb.slotCount ∧
      Clearable tb slots start (runLen - cleared)
  | _ => True

end

/-! ### The side condition -/

section

variable (tb : Table)

/-- The slots an insert of `p` relies on after `d` probes: the occupied ones up to its
first tombstone, and that tombstone. -/
def onPath (p d : Nat) (firstTombstone : Option Nat) (i : Nat) : Bool :=
  match firstTombstone with
  | none => (List.range d).any fun e => tb.probe p e == i
  | some target =>
    (List.range (Ring.dist tb.slotCount (tb.slotIdx p) target + 1)).any fun e => tb.probe p e == i

/-- Slot `i` belongs to the `len` slots from `start` on. -/
def inRun (start len i : Nat) : Bool :=
  (List.range len).any fun k => (start + k) % tb.slotCount == i

/-- A running call relies on slot `i` not becoming a tombstone. -/
def Pc.reliesOn (i : Nat) : Pc → Bool
  | .probe p _ d ft => onPath tb p d ft i
  | .claim p _ d ft => onPath tb p d ft i
  | .claimTombstone p _ target => onPath tb p 0 (some target) i
  | .scan _ start _ runLen => inRun tb start runLen i
  | .clear _ start _ cleared runLen => inRun tb start (runLen - cleared) i
  | _ => false

/-- The step tombstones slot `i` (the compare-and-swap of an erase is about to succeed). -/
def Pc.tombstones (slots : Nat → Nat) : Pc → Option Nat
  | .eraseCas _ idx raw => if slots idx = raw then some idx else none
  | .eraseIfCas _ idx raw => if slots idx = raw then some idx else none
  | _ => none

/-- The step ends a collapse's search with the whole table seen as tombstones. -/
def Pc.closesRing (slots : Nat → Nat) : Pc → Option Nat
  | .scan _ start idx runLen =>
    if runLen + 1 = tb.slotCount ∧ slots (tb.next idx) = tombstoneSlot then some start else none
  | _ => none

variable {threads : Nat}

/-- An erase takes effect on a slot only while no other running insert relies on it and
no other running collapse still has it in its run; and a collapse that has gone round
the whole table finds its first slot still a tombstone. -/
def Undisturbed (s : State threads) : Act threads → Prop
  | .call _ _ => True
  | .step t _ =>
    (∀ i, (s.pcs t).tombstones s.slots = some i → ∀ u, u ≠ t → (s.pcs u).reliesOn tb i = false) ∧
    (∀ start, (s.pcs t).closesRing tb s.slots = some start → s.slots start = tombstoneSlot)

instance (s : State threads) (a : Act threads) : Decidable (Undisturbed tb s a) :=
  match a with
  | .call _ _ => isTrue trivial
  | .step t _ =>
    decidable_of_iff
      ((∀ i ∈ (s.pcs t).tombstones s.slots, ∀ u, u ≠ t → (s.pcs u).reliesOn tb i = false) ∧
        ∀ start ∈ (s.pcs t).closesRing tb s.slots, s.slots start = tombstoneSlot) Iff.rfl

end

theorem onPath_none {tb : Table} {p d i : Nat} (off : onPath tb p d none i = false) :
    ∀ e < d, tb.probe p e ≠ i := by
  simpa [onPath] using off

theorem onPath_some {tb : Table} {p d first i : Nat} (bounded : first < tb.slotCount)
    (off : onPath tb p d (some (tb.probe p first)) i = false) :
    ∀ e ≤ first, tb.probe p e ≠ i := by
  have same : Ring.dist tb.slotCount (tb.slotIdx p) (tb.probe p first) = first := by
    rw [tb.probe_eq]; exact Ring.dist_add bounded
  simp only [onPath, same, List.any_eq_false, List.mem_range, beq_iff_eq] at off
  exact fun e he => off e (by omega)

theorem inRun_false {tb : Table} {start len i : Nat} (off : inRun tb start len i = false) :
    ∀ k < len, (start + k) % tb.slotCount ≠ i := by
  simpa [inRun] using off

/-! ### The three changes a slot can undergo -/

theorem setSlot_same (slots : Nat → Nat) (i raw : Nat) : setSlot slots i raw i = raw := by
  simp [setSlot]

theorem setSlot_ne (slots : Nat → Nat) {i j : Nat} (raw : Nat) (ne : j ≠ i) :
    setSlot slots i raw j = slots j := by
  simp [setSlot, ne]

theorem holds_setSlot_ne {slots : Nat → Nat} {i j p : Nat} (raw : Nat) (ne : j ≠ i) :
    Holds (setSlot slots i raw) j p ↔ Holds slots j p := by
  simp only [Holds, setSlot_ne slots raw ne]

theorem Other.setSlot {slots : Nat → Nat} {i j p raw : Nat} (other : Other slots j p)
    (ne : j ≠ i) : Other (setSlot slots i raw) j p := by
  simpa only [Other, setSlot_ne slots raw ne] using other

theorem Other.ne_of_not_live {slots : Nat → Nat} {i j p : Nat} (other : Other slots j p)
    (dead : isLive (slots i) = false) : j ≠ i := by
  rintro rfl
  rw [other.1] at dead
  cases dead

theorem Holds.ne_of_not_live {slots : Nat → Nat} {i j p : Nat} (holds : Holds slots j p)
    (dead : isLive (slots i) = false) : j ≠ i := by
  rintro rfl
  rw [holds.1] at dead
  cases dead

/-- A successful insert puts `p` on a dead slot of its probe path whose earlier slots are
occupied by others, and `p` had no entry. -/
structure CanInsert (tb : Table) (slots : Nat → Nat) (p b i : Nat) : Prop where
  fits : b ≤ bidMask
  dead : isLive (slots i) = false
  place : ∃ d < tb.slotCount, i = tb.probe p d ∧ ∀ e < d, Other slots (tb.probe p e) p
  absent : ∀ e < tb.slotCount, ¬ Holds slots (tb.probe p e) p

namespace CanInsert

variable {tb : Table} {slots : Nat → Nat} {p b i : Nat}

theorem holds_new (can : CanInsert tb slots p b i) {q : Nat} :
    Holds (setSlot slots i (word p b)) i q ↔ q = p := by
  simp only [Holds, setSlot_same, isLive_word p b can.fits, pid_word p b can.fits, true_and]
  exact eq_comm

theorem reach (can : CanInsert tb slots p b i) (reach : Reach tb slots) :
    Reach tb (setSlot slots i (word p b)) := by
  intro q d hd holds e he
  by_cases atEntry : tb.probe q e = i
  · have live := isLive_word p b can.fits
    rw [atEntry, setSlot_same]
    exact ((isLive_iff _).mp live).1
  · rw [setSlot_ne _ _ atEntry]
    by_cases new : tb.probe q d = i
    · rw [new, can.holds_new] at holds
      subst holds
      obtain ⟨d₀, hd₀, rfl, before⟩ := can.place
      have same : d = d₀ := tb.probe_inj hd hd₀ new
      exact ((isLive_iff _).mp (before e (by omega)).1).1
    · exact reach q d hd ((holds_setSlot_ne _ new).mp holds) e he

theorem unique (can : CanInsert tb slots p b i) (unique : Unique tb slots) :
    Unique tb (setSlot slots i (word p b)) := by
  intro q d e hd he first second
  have old : ∀ {c}, c < tb.slotCount → tb.probe q c ≠ i → q = p →
      ¬ Holds (setSlot slots i (word p b)) (tb.probe q c) q := by
    rintro c hc ne rfl holds
    exact can.absent c hc ((holds_setSlot_ne _ ne).mp holds)
  by_cases atD : tb.probe q d = i <;> by_cases atE : tb.probe q e = i
  · exact tb.probe_inj hd he (atD.trans atE.symm)
  · rw [atD, can.holds_new] at first
    exact absurd second (old he atE first)
  · rw [atE, can.holds_new] at second
    exact absurd first (old hd atD second)
  · exact unique q d e hd he ((holds_setSlot_ne _ atD).mp first) ((holds_setSlot_ne _ atE).mp second)

theorem crosses (can : CanInsert tb slots p b i) {c m : Nat}
    (tomb : setSlot slots i (word p b) c = tombstoneSlot)
    (crosses : Crosses tb (setSlot slots i (word p b)) c m) :
    slots c = tombstoneSlot ∧ Crosses tb slots c m := by
  have ne : c ≠ i := by
    rintro rfl
    rw [setSlot_same] at tomb
    exact ((isLive_iff _).mp (isLive_word p b can.fits)).2 tomb
  rw [setSlot_ne _ _ ne] at tomb
  obtain ⟨q, d, one, le, hd, holds, leads⟩ := crosses
  refine ⟨tomb, q, d, one, le, hd, ?_, leads⟩
  by_cases new : tb.probe q d = i
  · rw [new, can.holds_new] at holds
    subst holds
    obtain ⟨d₀, hd₀, rfl, before⟩ := can.place
    have same : d = d₀ := tb.probe_inj hd hd₀ new
    have occupied := (before (d - m) (by omega)).1
    rw [leads, tomb] at occupied
    cases occupied
  · exact (holds_setSlot_ne _ new).mp holds

theorem passed (can : CanInsert tb slots p b i) {q d : Nat}
    {ft : Option Nat} (passed : Passed tb slots q d ft) :
    Passed tb (setSlot slots i (word p b)) q d ft := by
  cases ft with
  | none => exact fun e he => (passed e he).setSlot ((passed e he).ne_of_not_live can.dead)
  | some target =>
    obtain ⟨first, hfirst, rfl, before, clean⟩ := passed
    refine ⟨first, hfirst, rfl,
      fun e he => (before e he).setSlot ((before e he).ne_of_not_live can.dead), ?_⟩
    intro tomb e he holds
    have ne : tb.probe q first ≠ i := by
      intro same
      rw [same, setSlot_same] at tomb
      exact ((isLive_iff _).mp (isLive_word p b can.fits)).2 tomb
    rw [setSlot_ne _ _ ne] at tomb
    by_cases new : tb.probe q e = i
    · -- the inserted page is `q` itself: its place is at or before the remembered tombstone,
      -- but those slots are occupied
      rw [new, can.holds_new] at holds
      subst holds
      obtain ⟨d₀, hd₀, rfl, occupied⟩ := can.place
      rcases Nat.lt_trichotomy first d₀ with lt | rfl | gt
      · have live := (occupied first lt).1
        rw [tomb] at live
        cases live
      · exact ne rfl
      · have live := (before d₀ gt).1
        rw [can.dead] at live
        cases live
    · exact clean tomb e he ((holds_setSlot_ne _ new).mp holds)

end CanInsert

/-! Tombstoning a slot removes an entry. -/

section Erase

variable {tb : Table} {slots : Nat → Nat} {i : Nat}

theorem Holds.of_tombstoned {j q : Nat} (holds : Holds (setSlot slots i tombstoneSlot) j q) :
    j ≠ i ∧ Holds slots j q := by
  by_cases same : j = i
  · subst same
    simp [Holds, setSlot_same] at holds
  · exact ⟨same, (holds_setSlot_ne _ same).mp holds⟩

theorem reach_erase (reach : Reach tb slots) : Reach tb (setSlot slots i tombstoneSlot) := by
  intro q d hd holds e he
  by_cases same : tb.probe q e = i
  · rw [same, setSlot_same]; decide
  · rw [setSlot_ne _ _ same]
    exact reach q d hd holds.of_tombstoned.2 e he

theorem unique_erase (unique : Unique tb slots) : Unique tb (setSlot slots i tombstoneSlot) :=
  fun q d e hd he first second =>
    unique q d e hd he first.of_tombstoned.2 second.of_tombstoned.2

theorem crosses_erase {c m : Nat} (crosses : Crosses tb (setSlot slots i tombstoneSlot) c m) :
    Crosses tb slots c m := by
  obtain ⟨q, d, one, le, hd, holds, leads⟩ := crosses
  exact ⟨q, d, one, le, hd, holds.of_tombstoned.2, leads⟩

theorem passed_erase {p d : Nat} (bounded : d ≤ tb.slotCount) {ft : Option Nat} (len : Nat)
    (off : onPath tb p len ft i = false) (covers : ft = none → len = d)
    (passed : Passed tb slots p d ft) : Passed tb (setSlot slots i tombstoneSlot) p d ft := by
  cases ft with
  | none =>
    rw [covers rfl] at off
    exact fun e he => (passed e he).setSlot (onPath_none off e he)
  | some target =>
    obtain ⟨first, hfirst, rfl, before, clean⟩ := passed
    have apart := onPath_some (by omega) off
    refine ⟨first, hfirst, rfl, fun e he => (before e he).setSlot (apart e (by omega)), ?_⟩
    intro tomb e he holds
    rw [setSlot_ne _ _ (apart first (le_refl _))] at tomb
    exact clean tomb e he holds.of_tombstoned.2

end Erase

/-! Clearing a tombstone over which no entry leads. -/

section Clear

variable {tb : Table} {slots : Nat → Nat} {i : Nat}

theorem Holds.cleared_iff (tomb : slots i = tombstoneSlot) {j q : Nat} :
    Holds (setSlot slots i emptySlot) j q ↔ Holds slots j q := by
  by_cases same : j = i
  · subst same
    simp [Holds, setSlot_same, tomb]
  · exact holds_setSlot_ne _ same

theorem reach_clear (tomb : slots i = tombstoneSlot) (free : ∀ m, ¬ Crosses tb slots i m)
    (reach : Reach tb slots) : Reach tb (setSlot slots i emptySlot) := by
  intro q d hd holds e he
  have old := (Holds.cleared_iff tomb).mp holds
  by_cases same : tb.probe q e = i
  · exact absurd ⟨q, d, by omega, by omega, hd, old, by rw [Nat.sub_sub_self he.le]; exact same⟩
      (free (d - e))
  · rw [setSlot_ne _ _ same]
    exact reach q d hd old e he

theorem unique_clear (tomb : slots i = tombstoneSlot) (unique : Unique tb slots) :
    Unique tb (setSlot slots i emptySlot) := by
  intro q d e hd he first second
  exact unique q d e hd he ((Holds.cleared_iff tomb).mp first) ((Holds.cleared_iff tomb).mp second)

theorem crosses_clear (tomb : slots i = tombstoneSlot) {c m : Nat}
    (still : setSlot slots i emptySlot c = tombstoneSlot)
    (crosses : Crosses tb (setSlot slots i emptySlot) c m) :
    slots c = tombstoneSlot ∧ Crosses tb slots c m := by
  obtain ⟨q, d, one, le, hd, holds, leads⟩ := crosses
  refine ⟨?_, q, d, one, le, hd, (Holds.cleared_iff tomb).mp holds, leads⟩
  by_cases same : c = i
  · rw [same]; exact tomb
  · rwa [setSlot_ne _ _ same] at still

theorem passed_clear (tomb : slots i = tombstoneSlot) {p d : Nat} {ft : Option Nat}
    (passed : Passed tb slots p d ft) : Passed tb (setSlot slots i emptySlot) p d ft := by
  have dead : isLive (slots i) = false := by rw [tomb]; rfl
  cases ft with
  | none => exact fun e he => (passed e he).setSlot ((passed e he).ne_of_not_live dead)
  | some target =>
    obtain ⟨first, hfirst, rfl, before, clean⟩ := passed
    refine ⟨first, hfirst, rfl,
      fun e he => (before e he).setSlot ((before e he).ne_of_not_live dead), ?_⟩
    intro still e he holds
    by_cases same : tb.probe p first = i
    · rw [same, setSlot_same] at still
      cases still
    · rw [setSlot_ne _ _ same] at still
      exact clean still e he ((Holds.cleared_iff tomb).mp holds)

end Clear

end UringDb.PageTable
