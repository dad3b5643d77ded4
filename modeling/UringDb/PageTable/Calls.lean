import UringDb.PageTable.Steps

/-!
# What a step of one kind of call does

`step_change` speaks about an arbitrary step. A client that knows which call it is in
wants less: a lookup changes nothing and returns what it just read, an insert changes
something only in the step that returns true, and an erase only in its compare-and-swap
and by turning tombstones into EMPTY.
-/
namespace UringDb.PageTable

open Slot

variable {tb : Table} {slots : Nat → Nat}

/-- Slot `i` holds the entry `p -> b`. -/
def Entry (slots : Nat → Nat) (i p b : Nat) : Prop := Holds slots i p ∧ Slot.bid (slots i) = b

/-- The program counters of `insert(p, b)`. -/
def Pc.inserts (p b : Nat) : Pc → Prop
  | .probe q c _ _ => q = p ∧ c = b
  | .claim q c _ _ => q = p ∧ c = b
  | .claimTombstone q c _ => q = p ∧ c = b
  | _ => False

/-- The program counters of the collapse that ends `call`. -/
def Pc.collapses (call : Call) : Pc → Prop
  | .scan c _ _ _ => c = call
  | .clear c _ _ _ _ => c = call
  | _ => False

theorem find_step {p d : Nat} {answer : Bool} {r : Result}
    (stepped : tb.step slots answer (.find p d) = some r) :
    r.slots = slots ∧
    ((r.out = .silent ∧ ∃ e, r.pc = .find p e) ∨
     (r.out = .returned (.findCopy p) (.bool false) ∧ r.pc.canCall = true) ∨
     ∃ b, r.out = .returned (.findCopy p) (.found b) ∧ r.pc.canCall = true ∧
       ∃ i < tb.slotCount, Entry slots i p b) := by
  cases stepped
  unfold Table.find
  dsimp only
  split
  · exact ⟨rfl, Or.inr (Or.inl ⟨rfl, rfl⟩)⟩
  next occupied =>
    split
    next hit =>
      simp only [Bool.and_eq_true, Bool.not_eq_true', beq_iff_eq] at hit
      refine ⟨rfl, Or.inr (Or.inr ⟨_, rfl, rfl, _, tb.probe_lt p d, ⟨?_, hit.2⟩, rfl⟩)⟩
      simp [isLive, occupied, hit.1]
    · split
      · exact ⟨rfl, Or.inl ⟨rfl, _, rfl⟩⟩
      · exact ⟨rfl, Or.inr (Or.inl ⟨rfl, rfl⟩)⟩

theorem probeNext_inserts (tb : Table) (p b d : Nat) (ft : Option Nat) :
    (tb.probeNext p b d ft).inserts p b := by
  unfold Table.probeNext
  split
  · exact ⟨rfl, rfl⟩
  · cases ft <;> exact ⟨rfl, rfl⟩

/-! ### What a call carries along

These facts about the locals of a call need no assumption about the slots: they hold in
every interleaving. -/

/-- The words a call is about to write or compare with are well formed. -/
def Pc.Carries (tb : Table) : Pc → Prop
  | .probe _ b _ ft => b ≤ bidMask ∧ ∀ target ∈ ft, target < tb.slotCount
  | .claim _ b _ ft => b ≤ bidMask ∧ ∀ target ∈ ft, target < tb.slotCount
  | .claimTombstone _ b target => b ≤ bidMask ∧ target < tb.slotCount
  | .eraseCas p idx raw => idx < tb.slotCount ∧ isLive raw = true ∧ Slot.pid raw = p
  | .precheck p idx raw => idx < tb.slotCount ∧ isLive raw = true ∧ Slot.pid raw = p
  | .eraseIfCas p idx raw => idx < tb.slotCount ∧ isLive raw = true ∧ Slot.pid raw = p
  | _ => True

theorem Pc.Carries.of_canCall {pc : Pc} (free : pc.canCall = true) : pc.Carries tb := by
  cases pc with
  | idle => trivial
  | returned => trivial
  | _ => cases free

theorem Pc.collapses.carries {call : Call} {pc : Pc} (running : pc.collapses call) :
    pc.Carries tb := by
  cases pc with
  | scan => trivial
  | clear => trivial
  | _ => exact running.elim

theorem Pc.collapses.busy {call : Call} {pc : Pc} (running : pc.collapses call) :
    pc.canCall = false := by
  cases pc with
  | scan => rfl
  | clear => rfl
  | _ => exact running.elim

theorem Call.start_carries {call : Call} {pc : Pc} (starts : call.start = some pc) :
    pc.Carries tb := by
  cases call with
  | insert p b =>
    simp only [Call.start, pack, Option.map_eq_some_iff] at starts
    obtain ⟨raw, packs, rfl⟩ := starts
    split at packs
    next fits => exact ⟨fits.2, (fun _ member => by cases member)⟩
    next => cases packs
  | _ =>
    cases starts
    trivial

theorem PcInv.carries {pc : Pc} (inv : PcInv tb slots pc) : pc.Carries tb := by
  have place : ∀ {p d : Nat} {ft : Option Nat}, Passed tb slots p d ft →
      ∀ target ∈ ft, target < tb.slotCount := by
    rintro p d ft passed target rfl
    obtain ⟨first, -, rfl, -⟩ := passed
    exact tb.probe_lt p first
  cases pc with
  | probe p b d ft => exact ⟨inv.2.1, place inv.2.2.2⟩
  | claim p b d ft =>
    cases ft with
    | none => exact ⟨inv.2.1, (fun _ member => by cases member)⟩
    | some target => exact ⟨inv.2.1, place inv.2.2⟩
  | claimTombstone p b target => exact ⟨inv.2.1, place inv.2.2 target rfl⟩
  | eraseCas p idx raw => exact inv
  | precheck p idx raw => exact inv
  | eraseIfCas p idx raw => exact inv
  | _ => trivial

theorem probeNext_carries {p b d : Nat} {ft : Option Nat} (fits : b ≤ bidMask)
    (inside : ∀ target ∈ ft, target < tb.slotCount) : (tb.probeNext p b d ft).Carries tb := by
  unfold Table.probeNext
  split
  · exact ⟨fits, inside⟩
  · cases ft with
    | none => exact ⟨fits, (fun _ member => by cases member)⟩
    | some target => exact ⟨fits, inside target rfl⟩

/-- A step of `insert(p, b)` changes nothing unless it returns true; then `p -> b` has
replaced an EMPTY slot or a tombstone. -/
theorem insert_moves {p b : Nat} {pc : Pc} {answer : Bool} {r : Result} (carries : pc.Carries tb)
    (running : pc.inserts p b) (stepped : tb.step slots answer pc = some r) :
    (r.slots = slots ∧ r.out = .silent ∧ r.pc.inserts p b ∧ r.pc.Carries tb) ∨
    (r.slots = slots ∧ r.out = .returned (.insert p b) (.bool false) ∧ r.pc.canCall = true) ∨
    (∃ i < tb.slotCount, isLive (slots i) = false ∧ b ≤ bidMask ∧
      r.slots = setSlot slots i (word p b) ∧
      r.out = .returned (.insert p b) (.bool true) ∧ r.pc.canCall = true) := by
  -- the three compare-and-swaps differ in the slot and in where they go on after a failure
  have cas : ∀ {target expected : Nat} {failed : Pc},
      Table.insertCas slots p b target expected failed = r → b ≤ bidMask →
      target < tb.slotCount → isLive expected = false → failed.inserts p b → failed.Carries tb →
      (r.slots = slots ∧ r.out = .silent ∧ r.pc.inserts p b ∧ r.pc.Carries tb) ∨
      (∃ i < tb.slotCount, isLive (slots i) = false ∧ b ≤ bidMask ∧
        r.slots = setSlot slots i (word p b) ∧
        r.out = .returned (.insert p b) (.bool true) ∧ r.pc.canCall = true) := by
    intro target expected failed same fits inside dead stays carried
    subst same
    unfold Table.insertCas
    split
    next hit => exact Or.inr ⟨target, inside, hit ▸ dead, fits, rfl, rfl, rfl⟩
    next => exact Or.inl ⟨rfl, rfl, stays, carried⟩
  cases pc with
  | probe q c d ft =>
    obtain ⟨rfl, rfl⟩ := running
    obtain ⟨fits, inside⟩ := carries
    cases stepped
    unfold Table.insertProbe
    dsimp only
    split
    next =>
      refine Or.inl ⟨rfl, rfl, probeNext_inserts tb _ _ _ _, probeNext_carries fits ?_⟩
      rintro target ⟨⟩
      cases ft with
      | none => exact tb.probe_lt _ _
      | some first => exact inside first rfl
    next =>
      split
      next => exact Or.inl ⟨rfl, rfl, ⟨rfl, rfl⟩, fits, inside⟩
      next =>
        split
        next => exact Or.inr (Or.inl ⟨rfl, rfl, rfl⟩)
        next => exact Or.inl ⟨rfl, rfl, probeNext_inserts tb _ _ _ _, probeNext_carries fits inside⟩
  | claim q c d ft =>
    obtain ⟨rfl, rfl⟩ := running
    obtain ⟨fits, inside⟩ := carries
    cases ft with
    | none =>
      exact (cas (Option.some.inj stepped) fits (tb.probe_lt _ _) rfl ⟨rfl, rfl⟩
        ⟨fits, (fun _ member => by cases member)⟩).imp_right Or.inr
    | some target =>
      exact (cas (Option.some.inj stepped) fits (inside target rfl) rfl ⟨rfl, rfl⟩
        ⟨fits, inside target rfl⟩).imp_right Or.inr
  | claimTombstone q c target =>
    obtain ⟨rfl, rfl⟩ := running
    obtain ⟨fits, inside⟩ := carries
    exact (cas (Option.some.inj stepped) fits inside rfl ⟨rfl, rfl⟩ ⟨fits, (fun _ member => by cases member)⟩).imp_right Or.inr
  | _ => exact running.elim

/-- In a consistent table the slot an insert takes is one it may take. -/
theorem insert_step {p b : Nat} {pc : Pc} {answer : Bool} {r : Result} (reach : Reach tb slots)
    (inv : PcInv tb slots pc) (running : pc.inserts p b)
    (stepped : tb.step slots answer pc = some r) :
    (r.slots = slots ∧ r.out = .silent ∧ r.pc.inserts p b) ∨
    (r.slots = slots ∧ r.out = .returned (.insert p b) (.bool false) ∧ r.pc.canCall = true) ∨
    (∃ i, CanInsert tb slots p b i ∧ r.slots = setSlot slots i (word p b) ∧
      r.out = .returned (.insert p b) (.bool true) ∧ r.pc.canCall = true) := by
  rcases insert_moves inv.carries running stepped with going | lost | won
  · exact Or.inl ⟨going.1, going.2.1, going.2.2.1⟩
  · exact Or.inr (Or.inl lost)
  · obtain ⟨-, -, -, -, -, out, idle⟩ := won
    refine Or.inr (Or.inr ?_)
    cases step_change reach inv stepped with
    | quiet _ _ fails => exact absurd out (fails p b)
    | insert q c i can set shows_ =>
      simp only [shows_, Out.returned.injEq, Call.insert.injEq, and_true] at out
      obtain ⟨rfl, rfl⟩ := out
      exact ⟨i, can, set, shows_, idle⟩
    | erase _ _ _ _ _ shows_ => rw [shows_] at out; cases out
    | clear _ _ _ _ _ fails => exact absurd out (fails p b)

theorem eraseIf_step {p d : Nat} {answer : Bool} {r : Result}
    (stepped : tb.step slots answer (.eraseIf p d) = some r) :
    r.slots = slots ∧
    ((r.out = .silent ∧ ((d + 1 < tb.slotCount ∧ r.pc = .eraseIf p (d + 1) ∧
          ¬ Holds slots (tb.probe p d) p) ∨
        (r.pc = .precheck p (tb.probe p d) (slots (tb.probe p d)) ∧
          Holds slots (tb.probe p d) p))) ∨
     (r.out = .returned (.eraseIf p) (.bool false) ∧ r.pc.canCall = true ∧
       (slots (tb.probe p d) = emptySlot ∨ tb.slotCount ≤ d + 1) ∧ ¬ Holds slots (tb.probe p d) p)) := by
  cases stepped
  unfold Table.eraseProbe
  dsimp only
  split
  next empty =>
    rw [isEmpty_iff] at empty
    refine ⟨rfl, Or.inr ⟨rfl, rfl, Or.inl empty, ?_⟩⟩
    simp [Holds, empty]
  next occupied =>
    split
    next skip =>
      have notHere : ¬ Holds slots (tb.probe p d) p := by
        rintro ⟨live, same⟩
        simp only [isLive, Bool.and_eq_true, Bool.not_eq_true'] at live
        simp [live.2, same] at skip
      split
      next more => exact ⟨rfl, Or.inl ⟨rfl, Or.inl ⟨more, rfl, notHere⟩⟩⟩
      next last => exact ⟨rfl, Or.inr ⟨rfl, rfl, Or.inr (by omega), notHere⟩⟩
    next hit =>
      simp only [Bool.or_eq_true, bne_iff_ne, ne_eq, not_or, Bool.not_eq_true, not_not] at hit
      exact ⟨rfl, Or.inl ⟨rfl, Or.inr ⟨rfl, by simp [isLive, occupied, hit.1], hit.2⟩⟩⟩

theorem precheck_step {p i raw : Nat} {answer : Bool} {r : Result}
    (stepped : tb.step slots answer (.precheck p i raw) = some r) :
    r.slots = slots ∧
    ((answer = true ∧ r.out = .silent ∧ r.pc = .eraseIfCas p i raw) ∨
     (answer = false ∧ r.out = .returned (.eraseIf p) (.bool false) ∧ r.pc.canCall = true)) := by
  cases answer <;> cases stepped
  · exact ⟨rfl, Or.inr ⟨rfl, rfl, rfl⟩⟩
  · exact ⟨rfl, Or.inl ⟨rfl, rfl, rfl⟩⟩

theorem collapse_collapses (tb : Table) (call : Call) (i : Nat) :
    (tb.collapse call i).collapses call := by
  unfold Table.collapse
  split <;> exact rfl

theorem eraseIfCas_step {p i raw : Nat} {answer : Bool} {r : Result}
    (stepped : tb.step slots answer (.eraseIfCas p i raw) = some r) :
    (slots i = raw ∧ r.slots = setSlot slots i tombstoneSlot ∧
      r.out = .erased (Slot.pid raw) (Slot.bid raw) ∧ r.pc.collapses (.eraseIf p)) ∨
    (slots i ≠ raw ∧ r.slots = slots ∧ r.out = .returned (.eraseIf p) (.bool false) ∧
      r.pc.canCall = true) := by
  cases stepped
  unfold Table.eraseCas
  split
  next hit => exact Or.inl ⟨hit, rfl, rfl, collapse_collapses tb _ _⟩
  next miss => exact Or.inr ⟨miss, rfl, rfl, rfl⟩

theorem collapse_step {call : Call} {pc : Pc} {answer : Bool} {r : Result}
    (running : pc.collapses call) (stepped : tb.step slots answer pc = some r) :
    (r.slots = slots ∨ ∃ i, slots i = tombstoneSlot ∧ r.slots = setSlot slots i emptySlot) ∧
    ((r.out = .silent ∧ r.pc.collapses call) ∨
     (r.out = .returned call (.bool true) ∧ r.pc.canCall = true)) := by
  cases pc with
  | scan c start idx runLen =>
    obtain rfl : c = call := running
    cases stepped
    unfold Table.scan
    dsimp only
    split
    · split
      · exact ⟨Or.inl rfl, Or.inl ⟨rfl, rfl⟩⟩
      · exact ⟨Or.inl rfl, Or.inl ⟨rfl, rfl⟩⟩
    · split
      · exact ⟨Or.inl rfl, Or.inr ⟨rfl, rfl⟩⟩
      · exact ⟨Or.inl rfl, Or.inl ⟨rfl, rfl⟩⟩
  | clear c start clearIdx cleared runLen =>
    obtain rfl : c = call := running
    cases stepped
    unfold Table.clear
    dsimp only
    split
    next tomb =>
      split
      · exact ⟨Or.inr ⟨_, tomb, rfl⟩, Or.inl ⟨rfl, rfl⟩⟩
      · exact ⟨Or.inr ⟨_, tomb, rfl⟩, Or.inr ⟨rfl, rfl⟩⟩
    · exact ⟨Or.inl rfl, Or.inr ⟨rfl, rfl⟩⟩
  | _ => exact running.elim

end UringDb.PageTable
