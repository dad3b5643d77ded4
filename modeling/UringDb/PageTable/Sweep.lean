import UringDb.Lib.Ring
import UringDb.PageTable.Model

/-!
# The owned clock sweep

`clock_sweep_next_owned` of `AtomicPageTable` on a table whose content does not change. A call
begins where the one before it has stopped, examines at least one slot and at most all of them,
and offers those live entries whose partition belongs to the owner. What it examines and offers is
recorded. `std::hash` is a parameter.
-/
namespace UringDb.PageTable

open Slot

/-- The table with its partitions: `owner_partition_mask` is one less than a power of two. -/
structure OwnedTable extends Table where
  partitionBits : Nat
  stdHash : Nat → Nat

/-- What a call does: the slots it has examined, the entries it has offered with their slots, the
answer, and the hand of the clock behind it. -/
structure Swept where
  examined : List Nat
  offered : List (Nat × Nat × Nat)
  accepted : Bool
  pos : Nat
deriving DecidableEq

/-- The arguments of a call; `answers j` is what the callback says to the `j`-th entry. -/
structure SweepCall where
  batchHint : Nat
  sizeHint : Nat
  answers : Nat → Bool

namespace OwnedTable

variable (tb : OwnedTable) (slots : Nat → Nat)

def partitionCount : Nat := 2 ^ tb.partitionBits

def ownerPartition (pid : Nat) : Nat := tb.stdHash pid &&& (tb.partitionCount - 1)

/-- The loop with `left` slots of its window before it. -/
def sweepLoop (ownerIdx ownerCount start window : Nat) (answers : Nat → Bool) :
    Nat → Nat → Nat → Swept
  | 0, _, _ => ⟨[], [], false, (start + window) &&& tb.slotMask⟩
  | left + 1, scanned, offers =>
    let idx := (start + scanned) &&& tb.slotMask
    let raw := slots idx
    if isEmpty raw || isTombstone raw then
      let rest := sweepLoop ownerIdx ownerCount start window answers left (scanned + 1) offers
      { rest with examined := idx :: rest.examined }
    else if tb.ownerPartition (Slot.pid raw) % ownerCount ≠ ownerIdx then
      let rest := sweepLoop ownerIdx ownerCount start window answers left (scanned + 1) offers
      { rest with examined := idx :: rest.examined }
    else if answers offers then
      ⟨[idx], [(idx, Slot.pid raw, Slot.bid raw)], true, (idx + 1) &&& tb.slotMask⟩
    else
      let rest := sweepLoop ownerIdx ownerCount start window answers left (scanned + 1) (offers + 1)
      { rest with
        examined := idx :: rest.examined
        offered := (idx, Slot.pid raw, Slot.bid raw) :: rest.offered }

/-- A call with the owner's hand at `pos`; `none` is a failed `ensure`. -/
def clockSweepNextOwned (ownerIdx ownerCount pos : Nat) (call : SweepCall) : Option Swept :=
  if 0 < ownerCount ∧ 0 < call.sizeHint ∧ ownerCount ≤ tb.partitionCount then
    let window := tb.window ownerCount call.batchHint call.sizeHint
    some (tb.sweepLoop slots (ownerIdx % ownerCount) ownerCount (pos % tb.slotCount) window
      call.answers window 0 0)
  else none

/-- The calls of one owner in turn. -/
def sweeps (ownerIdx ownerCount : Nat) : Nat → List SweepCall → Option (List Swept)
  | _, [] => some []
  | pos, call :: calls => do
    let swept ← tb.clockSweepNextOwned slots ownerIdx ownerCount pos call
    let rest ← sweeps ownerIdx ownerCount swept.pos calls
    some (swept :: rest)

/-- The entry of a slot, if the slot is live and the owner's. -/
def ownedEntry (ownerIdx ownerCount idx : Nat) : Option (Nat × Nat × Nat) :=
  if isLive (slots idx) ∧ tb.ownerPartition (Slot.pid (slots idx)) % ownerCount = ownerIdx then
    some (idx, Slot.pid (slots idx), Slot.bid (slots idx))
  else none

/-- `count` consecutive positions of the ring. -/
def positions (start count : Nat) : List Nat :=
  (List.range count).map fun i => (start + i) % tb.slotCount

theorem slotCount_pos : 0 < tb.slotCount := Nat.two_pow_pos _

theorem window_pos (ownerCount batchHint sizeHint : Nat) :
    1 ≤ tb.window ownerCount batchHint sizeHint := by
  unfold Table.window
  exact Nat.le_min.mpr ⟨tb.slotCount_pos, le_max_of_le_right (by decide)⟩

theorem window_le (ownerCount batchHint sizeHint : Nat) :
    tb.window ownerCount batchHint sizeHint ≤ tb.slotCount := Nat.min_le_left _ _

theorem positions_succ (start count : Nat) :
    tb.positions start (count + 1) = start % tb.slotCount :: tb.positions (start + 1) count := by
  simp only [positions, List.range_succ_eq_map, List.map_cons, List.map_map, Nat.add_zero]
  congr 1
  apply List.map_congr_left
  intro i _
  simp only [Function.comp]
  congr 1
  omega

theorem positions_append (start a b : Nat) :
    tb.positions start (a + b) = tb.positions start a ++ tb.positions (start + a) b := by
  induction a generalizing start with
  | zero => simp [positions]
  | succ a ih =>
    rw [Nat.add_right_comm, positions_succ, positions_succ, ih, List.cons_append, Nat.add_assoc,
      Nat.add_comm 1 a]

theorem positions_mod (start count : Nat) :
    tb.positions (start % tb.slotCount) count = tb.positions start count := by
  simp [positions]

variable {tb slots}

/-- **One run of the loop.** It examines consecutive positions, offers what the owner has there,
and leaves the hand behind the last of them. -/
theorem sweepLoop_spec {ownerIdx ownerCount start window : Nat} {answers : Nat → Bool}
    {left scanned offers : Nat} (inWindow : left + scanned = window) :
    ∃ count ≤ left, (0 < left → 0 < count) ∧
      let swept := tb.sweepLoop slots ownerIdx ownerCount start window answers left scanned offers
      swept.examined = tb.positions (start + scanned) count ∧
      swept.offered = swept.examined.filterMap (tb.ownedEntry slots ownerIdx ownerCount) ∧
      swept.pos = (start + scanned + count) % tb.slotCount := by
  induction left generalizing scanned offers with
  | zero =>
    refine ⟨0, Nat.le_refl 0, fun none_ => absurd none_ (Nat.lt_irrefl 0), rfl, rfl, ?_⟩
    show (start + window) &&& tb.slotMask = _
    rw [← inWindow]
    exact (Ring.and_mask _ tb.bits).trans (by rw [Nat.zero_add]; rfl)
  | succ left ih =>
    have here : (start + scanned) &&& tb.slotMask = (start + scanned) % tb.slotCount :=
      Ring.and_mask _ tb.bits
    -- the three ways to go on differ in what is offered only
    have goes : ∀ offers, ∃ count ≤ left + 1, (0 < left + 1 → 0 < count) ∧
        let rest :=
          tb.sweepLoop slots ownerIdx ownerCount start window answers left (scanned + 1) offers
        (start + scanned) % tb.slotCount :: rest.examined = tb.positions (start + scanned) count ∧
        rest.offered = rest.examined.filterMap (tb.ownedEntry slots ownerIdx ownerCount) ∧
        rest.pos = (start + scanned + count) % tb.slotCount := by
      intro offers
      obtain ⟨count, within, -, examined, offered, pos⟩ :=
        @ih (scanned + 1) offers (by omega)
      refine ⟨count + 1, by omega, fun _ => Nat.succ_pos _, ?_, offered, ?_⟩
      · rw [examined, positions_succ, Nat.add_assoc]
      · rw [pos]
        congr 1
        omega
    simp only [sweepLoop]
    rw [here]
    split
    next dead =>
      obtain ⟨count, within, pos, examined, offered, hand⟩ := goes offers
      refine ⟨count, within, pos, examined, ?_, hand⟩
      have none_ : tb.ownedEntry slots ownerIdx ownerCount ((start + scanned) % tb.slotCount) =
          none := by
        rw [ownedEntry, if_neg]
        rintro ⟨live, -⟩
        simp_all [isLive]
      rw [List.filterMap_cons_none none_]
      exact offered
    next live =>
      have alive : isLive (slots ((start + scanned) % tb.slotCount)) = true := by
        simpa [isLive] using live
      split
      next foreign =>
        obtain ⟨count, within, pos, examined, offered, hand⟩ := goes offers
        refine ⟨count, within, pos, examined, ?_, hand⟩
        have none_ : tb.ownedEntry slots ownerIdx ownerCount ((start + scanned) % tb.slotCount) =
            none := by
          rw [ownedEntry, if_neg]
          rintro ⟨-, own⟩
          exact foreign own
        rw [List.filterMap_cons_none none_]
        exact offered
      next own =>
        have entry : tb.ownedEntry slots ownerIdx ownerCount ((start + scanned) % tb.slotCount) =
            some ((start + scanned) % tb.slotCount,
              Slot.pid (slots ((start + scanned) % tb.slotCount)),
              Slot.bid (slots ((start + scanned) % tb.slotCount))) := by
          rw [ownedEntry, if_pos ⟨alive, not_not.mp own⟩]
        split
        next =>
          refine ⟨1, by omega, fun _ => Nat.one_pos, ?_, ?_, ?_⟩
          · rw [positions_succ]
            rfl
          · rw [List.filterMap_cons_some entry]
            rfl
          · exact (Ring.and_mask _ tb.bits).trans (Nat.mod_add_mod _ _ _)
        next =>
          obtain ⟨count, within, pos, examined, offered, hand⟩ := goes (offers + 1)
          refine ⟨count, within, pos, examined, ?_, hand⟩
          rw [List.filterMap_cons_some entry]
          exact congrArg (List.cons _) offered

/-- **One call.** -/
theorem clockSweepNextOwned_spec {ownerIdx ownerCount : Nat} {call : SweepCall} (pos : Nat)
    (owners : 0 < ownerCount) (fits : ownerCount ≤ tb.partitionCount) (size : 0 < call.sizeHint) :
    ∃ swept count, tb.clockSweepNextOwned slots ownerIdx ownerCount pos call = some swept ∧
      1 ≤ count ∧ count ≤ tb.slotCount ∧ swept.examined = tb.positions pos count ∧
      swept.offered =
        swept.examined.filterMap (tb.ownedEntry slots (ownerIdx % ownerCount) ownerCount) ∧
      swept.pos = (pos + count) % tb.slotCount := by
  obtain ⟨count, within, some_, examined, offered, hand⟩ := @sweepLoop_spec tb slots
    (ownerIdx % ownerCount) ownerCount (pos % tb.slotCount)
    (tb.window ownerCount call.batchHint call.sizeHint) call.answers
    (tb.window ownerCount call.batchHint call.sizeHint) 0 0 (Nat.add_zero _)
  rw [Nat.add_zero] at examined hand
  rw [positions_mod] at examined
  rw [Nat.mod_add_mod] at hand
  exact ⟨_, count, if_pos ⟨owners, size, fits⟩, some_ (window_pos tb _ _ _),
    within.trans (window_le tb _ _ _), examined, offered, hand⟩

/-- A live entry is the one of exactly one owner. -/
theorem owner_unique {ownerCount : Nat} (owners : 0 < ownerCount) {idx : Nat}
    (live : isLive (slots idx) = true) :
    ∃! owner, owner < ownerCount ∧ (tb.ownedEntry slots owner ownerCount idx).isSome = true := by
  refine ⟨tb.ownerPartition (Slot.pid (slots idx)) % ownerCount, ⟨Nat.mod_lt _ owners, ?_⟩, ?_⟩
  · rw [ownedEntry, if_pos ⟨live, rfl⟩]
    rfl
  · rintro owner ⟨-, offered⟩
    unfold ownedEntry at offered
    split at offered
    next own => exact own.2.symm
    next => cases offered

/-- **The owned sweep is fair.** The calls of an owner examine consecutive positions of the ring,
each at least one and at most all of them; they offer exactly the owner's live entries among
these; and every live entry has exactly one owner. -/
theorem owned_sweep_fair (tb : OwnedTable) (slots : Nat → Nat) (ownerIdx ownerCount pos : Nat)
    (calls : List SweepCall) (owners : 0 < ownerCount) (fits : ownerCount ≤ tb.partitionCount)
    (sizes : ∀ call ∈ calls, 0 < call.sizeHint) :
    (∃ swept count, tb.sweeps slots ownerIdx ownerCount pos calls = some swept ∧
      swept.length = calls.length ∧
      swept.flatMap Swept.examined = tb.positions pos count ∧
      ∀ r ∈ swept, 1 ≤ r.examined.length ∧ r.examined.length ≤ tb.slotCount ∧
        r.offered =
          r.examined.filterMap (tb.ownedEntry slots (ownerIdx % ownerCount) ownerCount)) ∧
    ∀ idx, isLive (slots idx) = true →
      ∃! owner, owner < ownerCount ∧ (tb.ownedEntry slots owner ownerCount idx).isSome = true := by
  refine ⟨?_, fun idx live => owner_unique owners live⟩
  induction calls generalizing pos with
  | nil => exact ⟨[], 0, rfl, rfl, rfl, fun r member => by cases member⟩
  | cons call calls ih =>
    obtain ⟨first, here, called, some_, most, examined, offered, hand⟩ :=
      @clockSweepNextOwned_spec tb slots ownerIdx ownerCount call pos owners fits
        (sizes call List.mem_cons_self)
    obtain ⟨rest, later, swept, length, onward, each⟩ :=
      ih first.pos fun x member => sizes x (List.mem_cons_of_mem call member)
    refine ⟨first :: rest, here + later, ?_, congrArg (· + 1) length, ?_, ?_⟩
    · simp only [sweeps, called, swept, Option.bind_eq_bind, Option.bind_some]
    · rw [List.flatMap_cons, examined, onward, hand, positions_mod, positions_append]
    · intro r member
      rcases List.mem_cons.mp member with rfl | later
      · have length : r.examined.length = here := by simp [examined, positions]
        exact ⟨length ▸ some_, length ▸ most, offered⟩
      · exact each r later

def pairTable : OwnedTable := { Table.ofBits 2 with partitionBits := 1, stdHash := id }

def pairSlots (i : Nat) : Nat := if i = 1 then word 4 7 else if i = 3 then word 6 9 else 0

def takeFirst : SweepCall := ⟨1, 2, fun _ => true⟩

/-- One owner of two sweeps twice and takes the first entry each time. -/
theorem owned_sweep_fair_pair : ∃ swept count,
    pairTable.sweeps pairSlots 0 2 3 [takeFirst, takeFirst] = some swept ∧
    swept.flatMap Swept.examined = pairTable.positions 3 count ∧
    swept.map Swept.examined = [[3], [0, 1]] := by
  obtain ⟨⟨swept, count, ran, -, positions, -⟩, -⟩ := owned_sweep_fair pairTable pairSlots 0 2 3
    [takeFirst, takeFirst] (by decide) (by decide) (by decide)
  refine ⟨swept, count, ran, positions, ?_⟩
  have evaluated : (pairTable.sweeps pairSlots 0 2 3 [takeFirst, takeFirst]).map
      (List.map Swept.examined) = some [[3], [0, 1]] := by decide
  rw [ran] at evaluated
  exact Option.some.inj evaluated

end OwnedTable

end UringDb.PageTable
