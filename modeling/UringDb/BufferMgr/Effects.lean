import UringDb.BufferMgr.Stable

/-!
# Effects of single steps

A step changes at most one frame, one slot or one free list. For each kind of change
there is one lemma that carries the invariant over it; which program counters make which
change is a matter of the next module.
-/
namespace UringDb.BufferMgr

open PageState PageTable

variable {n : Nat} {cfg : Config n} {s : State n}

/-- The state after fiber `f` moved to `fib` and left `sh`. -/
def State.after (s : State n) (f : Fin n) (sh : Shared n) (fib : Fiber) : State n :=
  ⟨sh, Function.update s.fibers f fib⟩

section After

variable (s : State n) (f : Fin n) (sh : Shared n) (fib : Fiber)

@[simp]
theorem after_shared : (s.after f sh fib).shared = sh := rfl

@[simp]
theorem after_self : (s.after f sh fib).fibers f = fib := by simp [State.after]

theorem after_ne {u : Fin n} (ne : u ≠ f) : (s.after f sh fib).fibers u = s.fibers u := by
  simp [State.after, ne]

/-- What is counted over all fibers changes by the share of the stepping one. -/
theorem sum_after (F : Fiber → Nat) :
    (∑ u, F ((s.after f sh fib).fibers u)) + F (s.fibers f) = (∑ u, F (s.fibers u)) + F fib :=
  sum_update Finset.univ s.fibers f fib F (Finset.mem_univ f)

theorem committed_after {p b : Nat} (same : fib.pc.committed = (s.fibers f).pc.committed) :
    Committed (s.after f sh fib) p b ↔ Committed s p b := by
  constructor
  · rintro ⟨u, at_⟩
    refine ⟨u, ?_⟩
    by_cases self : u = f
    · subst self
      rwa [after_self, same] at at_
    · rwa [after_ne s f sh fib self] at at_
  · rintro ⟨u, at_⟩
    refine ⟨u, ?_⟩
    by_cases self : u = f
    · subst self
      rwa [after_self, same]
    · rwa [after_ne s f sh fib self]

end After

/-! ### Exclusive possession -/

theorem slotsOf_pos {p b : Nat} (mapped : Mapped cfg s p b) : 0 < slotsOf cfg s.shared b := by
  obtain ⟨i, inRange, holds, bid⟩ := mapped
  refine Finset.card_pos.mpr ⟨i, ?_⟩
  simp [inRange, holds.1, bid]

theorem owned_pos {u : Fin n} {b : Nat} (member : b ∈ (s.fibers u).pc.owned cfg) :
    0 < ((s.fibers u).pc.owned cfg).count b :=
  List.count_pos_iff.mpr member

theorem ownedCount_pos {u : Fin n} {b : Nat} (member : b ∈ (s.fibers u).pc.owned cfg) :
    0 < ownedCount cfg s b :=
  (owned_pos member).trans_le (le_sum (fun u => ((s.fibers u).pc.owned cfg).count b) u)

theorem Inv.mapped_not_owned (inv : Inv cfg s) {p b : Nat} (mapped : Mapped cfg s p b) (u : Fin n) :
    b ∉ (s.fibers u).pc.owned cfg := by
  intro member
  have once := inv.once b
  have slot := slotsOf_pos mapped
  have hand := ownedCount_pos member
  unfold places at once
  omega

theorem Inv.owner_unique (inv : Inv cfg s) {u v : Fin n} {b : Nat}
    (first : b ∈ (s.fibers u).pc.owned cfg) (second : b ∈ (s.fibers v).pc.owned cfg) : u = v := by
  by_contra ne
  have once := inv.once b
  have both := add_le_sum (fun u => ((s.fibers u).pc.owned cfg).count b) ne
  have h1 := owned_pos first
  have h2 := owned_pos second
  unfold places ownedCount at once
  omega

theorem committed_owned {pc : Pc} {p b : Nat} (at_ : pc.committed = some (p, b)) :
    b ∈ pc.owned cfg := by
  cases pc <;> cases at_ <;> simp [Pc.owned]

theorem PcOk.committed {pc : Pc} {p b : Nat} (ok : PcOk cfg s pc)
    (at_ : pc.committed = some (p, b)) :
    (s.shared.frames b).pid = p ∧ (word s b).evicting = true ∧ (word s b).free = true := by
  cases pc <;> cases at_ <;> exact ok

theorem setsUp_owned {pc : Pc} {b : Nat} (at_ : pc.setsUp = some b) : b ∈ pc.owned cfg := by
  cases pc <;> cases at_ <;> simp [Pc.owned]

theorem Inv.committed_not_mapped (inv : Inv cfg s) {p q b : Nat} (committed : Committed s p b) :
    ¬ Mapped cfg s q b := by
  obtain ⟨u, at_⟩ := committed
  exact fun mapped => inv.mapped_not_owned mapped u (committed_owned at_)

theorem Inv.exclusive_unique (inv : Inv cfg s) {u v : Fin n} {b : Nat}
    (first : 0 < (s.fibers u).exclusives b) (second : 0 < (s.fibers v).exclusives b) : u = v := by
  by_contra ne
  have both := add_le_sum (fun u => (s.fibers u).exclusives b) ne
  have lock := inv.locks b
  unfold LockOk exclusives at lock
  omega

theorem Inv.exclusive_place (inv : Inv cfg s) {u : Fin n} {b : Nat}
    (holds : 0 < (s.fibers u).exclusives b) :
    (∃ p, Mapped cfg s p b) ∨ b ∈ (s.fibers u).pc.owned cfg := by
  unfold Fiber.exclusives at holds
  split at holds
  next setting => exact Or.inr (setsUp_owned setting)
  next =>
    obtain ⟨lock, member, counted⟩ := List.countP_pos_iff.mp (by omega : 0 <
      (s.fibers u).locks.countP fun lock => lock.kind == .exclusive && lock.bid == b)
    simp only [Bool.and_eq_true, beq_iff_eq] at counted
    exact Or.inl ⟨lock.pid, counted.2 ▸ (inv.fibers u).locks lock member⟩

theorem exclusive_of_lock {fib : Fiber} {lock : Held} (member : lock ∈ fib.locks)
    (kind : lock.kind = .exclusive) : 0 < fib.exclusives lock.bid := by
  have counted : 0 < fib.locks.countP
      (fun held => held.kind == .exclusive && held.bid == lock.bid) :=
    List.countP_pos_iff.mpr ⟨lock, member, by simp [kind]⟩
  unfold Fiber.exclusives
  omega

theorem shared_of_lock {fib : Fiber} {lock : Held} (member : lock ∈ fib.locks)
    (kind : lock.kind = .shared) : 0 < fib.shareds lock.bid :=
  List.countP_pos_iff.mpr ⟨lock, member, by simp [kind]⟩

theorem Inv.referred (inv : Inv cfg s) {u : Fin n} {b : Nat}
    (refers : (s.fibers u).refersTo (version s b) b = true) :
    ∃ p, Mapped cfg s p b ∨ Committed s p b := by
  simp only [Fiber.refersTo, Bool.or_eq_true] at refers
  rcases refers with (running | locked) | guarded
  · have ok := (inv.fibers u).pc
    have of_ref : ∀ {p}, Ref cfg s p b → ∃ p, Mapped cfg s p b ∨ Committed s p b :=
      fun ref => ⟨_, ref.2⟩
    revert ok running
    cases (s.fibers u).pc with
    | fixPid fx c | fixLoad fx c =>
      intro running ok
      simp only [Pc.refersTo, Bool.and_eq_true, beq_iff_eq, Option.isNone_iff_eq_none] at running
      obtain ⟨rfl, byPid⟩ := running
      have target := ok.2
      unfold Fix.Target at target
      unfold Fix.guard at byPid
      split at target
      · exact of_ref target
      next form => simp [form] at byPid
    | fixPidAgain fx c w | fixIo fx c w | fixEvicting fx c w | fixLock fx c w =>
      intro running ok
      simp only [Pc.refersTo, Bool.and_eq_true, beq_iff_eq] at running
      obtain ⟨rfl, current⟩ := running
      exact of_ref (ok.2.2 current).1
    | optMark p c w =>
      intro running ok
      obtain rfl : c = b := by simpa [Pc.refersTo] using running
      exact of_ref ok.1
    | optPid p c | optIo p c | optEvicting p c | optLoad p c
    | evPid ev sw p c | evMode ev sw p c | evIo ev sw p c m | evEvicting ev sw p c m
    | evMarkLoad ev sw p c | evMarkCas ev sw p c w | evSet ev sw p c | evDirty ev sw p c
    | evClean ev sw p c =>
      intro running ok
      obtain rfl : c = b := by simpa [Pc.refersTo] using running
      exact of_ref ok
    | optPidAgain g =>
      intro running ok
      simp only [Pc.refersTo, Guard.current, Bool.and_eq_true, beq_iff_eq] at running
      obtain ⟨rfl, current⟩ := running
      exact ⟨g.pid, (ok.2 current).2.imp And.left id⟩
    | _ => exact fun running => (by cases running)
  · obtain ⟨lock, member, same⟩ := List.any_eq_true.mp locked
    obtain rfl : lock.bid = b := by simpa using same
    exact ⟨lock.pid, Or.inl ((inv.fibers u).locks lock member)⟩
  · obtain ⟨g, member, live⟩ := List.any_eq_true.mp guarded
    simp only [Guard.current, Bool.and_eq_true, beq_iff_eq] at live
    obtain ⟨rfl, current⟩ := live
    exact ⟨g.pid, (((inv.fibers u).guards g member).2 current).2.imp And.left id⟩

/-- What a fiber owns and has not committed, no other fiber refers to or holds. -/
theorem Inv.owner_private (inv : Inv cfg s) {f u : Fin n} {b : Nat} (ne : u ≠ f)
    (member : b ∈ (s.fibers f).pc.owned cfg) (fresh : ∀ p, (s.fibers f).pc.committed ≠ some (p, b)) :
    (s.fibers u).refersTo (version s b) b = false ∧ (s.fibers u).exclusives b = 0 ∧
      b ∉ (s.fibers u).pc.owned cfg := by
  have apart : b ∉ (s.fibers u).pc.owned cfg := fun other => ne (inv.owner_unique other member)
  refine ⟨?_, ?_, apart⟩
  · by_contra refers
    rw [Bool.not_eq_false] at refers
    obtain ⟨p, mapped | ⟨v, at_⟩⟩ := inv.referred refers
    · exact inv.mapped_not_owned mapped f member
    · obtain rfl := inv.owner_unique (committed_owned at_) member
      exact fresh p at_
  · by_contra holds
    rcases inv.exclusive_place (Nat.pos_of_ne_zero holds) with ⟨p, mapped⟩ | mine
    · exact inv.mapped_not_owned mapped f member
    · exact apart mine

/-! ### States that look alike -/

/-- Nothing an assertion speaks about differs. -/
structure Alike (cfg : Config n) (s s' : State n) : Prop where
  state : ∀ b, word s' b = word s b
  pid : ∀ b, (s'.shared.frames b).pid = (s.shared.frames b).pid
  mapped : ∀ p b, Mapped cfg s' p b ↔ Mapped cfg s p b
  committed : ∀ p b, Committed s' p b ↔ Committed s p b
  sections : ∀ p, s'.shared.sections p = s.shared.sections p

namespace Alike

variable {s' : State n} (alike : Alike cfg s s')

include alike

theorem version (b : Nat) : version s' b = BufferMgr.version s b := by
  rw [BufferMgr.version, alike.state]
  rfl

theorem ref (p b : Nat) : Ref cfg s' p b ↔ Ref cfg s p b := by
  simp only [Ref, alike.pid, alike.mapped, alike.committed]

theorem seen (p b : Nat) (w : Word) (checked : Bool) :
    Seen cfg s' p b w checked ↔ Seen cfg s p b w checked := by
  simp only [Seen, alike.version, alike.ref, alike.state]

theorem guardOk (g : Guard) : GuardOk cfg s' g ↔ GuardOk cfg s g := by
  simp only [GuardOk, alike.version, alike.pid, alike.mapped, alike.committed, alike.sections]

theorem target (fx : Fix) (b : Nat) : fx.Target cfg s' b ↔ fx.Target cfg s b := by
  unfold Fix.Target
  split
  · exact alike.ref _ _
  · exact Iff.rfl

theorem pcOk (pc : Pc) : PcOk cfg s' pc ↔ PcOk cfg s pc := by
  cases pc <;>
    simp only [PcOk, alike.version, alike.ref, alike.seen, alike.guardOk, alike.target, alike.pid,
      alike.state]

theorem kept (b : Nat) : Kept cfg s s' b where
  pid := alike.pid b
  mapped := fun p mapped => Or.inl ((alike.mapped p b).mpr mapped)
  committed := fun p committed => (alike.committed p b).mpr committed
  evicting := fun _ set => by rwa [alike.state]
  sections := fun _ p _ _ => alike.sections p

end Alike

/-- The same slots hold the same entries. -/
def SameEntries (slots slots' : Nat → Nat) : Prop :=
  ∀ i, Slot.isLive (slots' i) = Slot.isLive (slots i) ∧
    (Slot.isLive (slots i) = true → slots' i = slots i)

theorem SameEntries.refl (slots : Nat → Nat) : SameEntries slots slots := fun _ => ⟨rfl, fun _ => rfl⟩

theorem SameEntries.clear {slots : Nat → Nat} {i : Nat} (tomb : slots i = Slot.tombstoneSlot) :
    SameEntries slots (setSlot slots i Slot.emptySlot) := by
  intro j
  by_cases here : j = i
  · subst here
    rw [setSlot_same, tomb]
    exact ⟨rfl, fun live => (by cases live)⟩
  · rw [setSlot_ne _ _ here]
    exact ⟨rfl, fun _ => rfl⟩

theorem SameEntries.entry {slots slots' : Nat → Nat} (same : SameEntries slots slots')
    (i p b : Nat) : Entry slots' i p b ↔ Entry slots i p b := by
  unfold Entry Holds
  rw [(same i).1]
  constructor
  · rintro ⟨⟨live, pid⟩, bid⟩
    rw [(same i).2 live] at pid bid
    exact ⟨⟨live, pid⟩, bid⟩
  · rintro ⟨⟨live, pid⟩, bid⟩
    rw [(same i).2 live]
    exact ⟨⟨live, pid⟩, bid⟩

theorem SameEntries.slotsOf {sh sh' : Shared n} (same : SameEntries sh.table.slots sh'.table.slots)
    (b : Nat) : slotsOf cfg sh' b = BufferMgr.slotsOf cfg sh b := by
  unfold BufferMgr.slotsOf
  congr 1
  refine Finset.filter_congr fun i _ => ?_
  rw [(same i).1]
  refine and_congr_right fun live => ?_
  rw [(same i).2 live]

theorem fiberOk_after {f : Fin n} {sh : Shared n} {fib : Fiber}
    (pc : PcOk cfg (s.after f sh fib) fib.pc) (agree : Agree fib.pc (sh.table.pcs f))
    (handed : ∀ g ∈ fib.pc.guard, g ∈ fib.guards) (alone : fib.pc.inEvict = true → fib.guards = [])
    (guards : ∀ g ∈ fib.guards, GuardOk cfg (s.after f sh fib) g)
    (locks : ∀ lock ∈ fib.locks, Mapped cfg (s.after f sh fib) lock.pid lock.bid) :
    FiberOk cfg (s.after f sh fib) f := by
  constructor <;> rwa [after_self]

theorem Inv.lockOk_after {f : Fin n} {sh : Shared n} {fib : Fiber} {b : Nat} (inv : Inv cfg s)
    (mode : (word (s.after f sh fib) b).mode = (word s b).mode)
    (xs : fib.exclusives b = (s.fibers f).exclusives b)
    (ss : fib.shareds b = (s.fibers f).shareds b) : LockOk (s.after f sh fib) b := by
  have x := sum_after s f sh fib fun fib => fib.exclusives b
  have y := sum_after s f sh fib fun fib => fib.shareds b
  have old := inv.locks b
  rw [xs] at x
  rw [ss] at y
  unfold LockOk exclusives shareds at old ⊢
  rw [mode]
  omega

/-! ### Steps that leave frames and entries alone -/

/-- A step that moves at most frames between lists and the fiber's hands, or the page table
from one state to another with the same entries. -/
theorem Inv.quiet {f : Fin n} {sh : Shared n} {fib : Fiber} (inv : Inv cfg s)
    (table : PageTable.Inv cfg.table sh.table)
    (pcs : ∀ u, u ≠ f → sh.table.pcs u = s.shared.table.pcs u)
    (entries : SameEntries s.shared.table.slots sh.table.slots)
    (frames : ∀ b, (sh.frames b).state = (s.shared.frames b).state ∧
      (sh.frames b).pid = (s.shared.frames b).pid)
    (sections : sh.sections = s.shared.sections)
    (balance : ∀ b, freeCount cfg sh b + (fib.pc.owned cfg).count b ≤
      freeCount cfg s.shared b + ((s.fibers f).pc.owned cfg).count b)
    (exclusives : ∀ b, fib.exclusives b = (s.fibers f).exclusives b)
    (shareds : ∀ b, fib.shareds b = (s.fibers f).shareds b)
    (committed : fib.pc.committed = (s.fibers f).pc.committed)
    (pc : PcOk cfg s fib.pc) (agree : Agree fib.pc (sh.table.pcs f))
    (handed : ∀ g ∈ fib.pc.guard, g ∈ fib.guards) (alone : fib.pc.inEvict = true → fib.guards = [])
    (guards : ∀ g ∈ fib.guards, GuardOk cfg s g)
    (locks : ∀ lock ∈ fib.locks, Mapped cfg s lock.pid lock.bid) :
    Inv cfg (s.after f sh fib) := by
  have mapped : ∀ p b, Mapped cfg (s.after f sh fib) p b ↔ Mapped cfg s p b := fun p b =>
    exists_congr fun i => and_congr_right fun _ => entries.entry i p b
  have alike : Alike cfg s (s.after f sh fib) :=
    { state := fun b => (frames b).1
      pid := fun b => (frames b).2
      mapped := mapped
      committed := fun p b => committed_after s f sh fib committed
      sections := fun p => congrFun sections p }
  refine inv.next (f := f) table (fun p b here => ?_) (fun b => ?_) (fun b => ?_)
    (fun u ne => ?_) ?_
  · rw [alike.pid]
    exact inv.mapped p b ((mapped p b).mp here)
  · have owned := sum_after s f sh fib fun fib => (fib.pc.owned cfg).count b
    have moved := balance b
    have slots : slotsOf cfg sh b = slotsOf cfg s.shared b := entries.slotsOf b
    unfold places ownedCount
    rw [after_shared, slots]
    omega
  · exact inv.lockOk_after (by rw [alike.state]) (exclusives b) (shareds b)
  · have same := after_ne s f sh fib ne
    exact
      { fiber := same
        table := pcs u ne
        later := fun b => (alike.version b).ge
        kept := fun b _ => alike.kept b
        locks := fun lock member => (mapped _ _).mpr ((inv.fibers u).locks lock member)
        own := fun b _ => ⟨alike.version b, alike.pid b⟩
        committed := fun p b at_ => by
          rw [alike.state]
          exact ((inv.fibers u).pc.committed at_).2 }
  · exact fiberOk_after ((alike.pcOk _).mpr pc) agree handed alone
      (fun g member => (alike.guardOk g).mpr (guards g member))
      (fun lock member => (mapped _ _).mpr (locks lock member))

/-! ### Steps that change one frame -/

theorem Inv.rely_frame {f u : Fin n} {sh : Shared n} {fib : Fiber} (inv : Inv cfg s) (b : Nat)
    (ne : u ≠ f) (table : sh.table = s.shared.table)
    (committed : ∀ p c, c ≠ b → Committed s p c → Committed (s.after f sh fib) p c)
    (elsewhere : ∀ c, c ≠ b → sh.frames c = s.shared.frames c)
    (sections : ∀ p c, c ≠ b → Mapped cfg s p c → sh.sections p = s.shared.sections p)
    (later : version s b ≤ version (s.after f sh fib) b)
    (kept : (s.fibers u).refersTo (version s b) b = true → Kept cfg s (s.after f sh fib) b)
    (own : 0 < (s.fibers u).exclusives b ∨ b ∈ (s.fibers u).pc.owned cfg →
      version (s.after f sh fib) b = version s b ∧ (sh.frames b).pid = (s.shared.frames b).pid)
    (protected_ : ∀ p, (s.fibers u).pc.committed = some (p, b) →
      (sh.frames b).state.evicting = true ∧ (sh.frames b).state.free = true) :
    Rely cfg s (s.after f sh fib) u := by
  have mapped : ∀ p c, Mapped cfg (s.after f sh fib) p c ↔ Mapped cfg s p c := fun p c => by
    simp only [Mapped, after_shared, table]
  have same : ∀ c, c ≠ b → (s.after f sh fib).shared.frames c = s.shared.frames c := elsewhere
  exact
    { fiber := after_ne s f sh fib ne
      table := by rw [after_shared, table]
      later := fun c => by
        by_cases here : c = b
        · exact here ▸ later
        · simp only [version, word, same c here, le_refl]
      kept := fun c refers => by
        by_cases here : c = b
        · subst here
          exact kept refers
        · exact
            { pid := by rw [same c here]
              mapped := fun p at_ => Or.inl ((mapped p c).mpr at_)
              committed := fun p => committed p c here
              evicting := fun _ set => by simpa only [word, same c here] using set
              sections := fun _ p at_ _ => sections p c here at_ }
      locks := fun lock member => (mapped _ _).mpr ((inv.fibers u).locks lock member)
      own := fun c mine => by
        by_cases here : c = b
        · subst here
          exact own mine
        · simp only [version, word, same c here, and_self]
      committed := fun p c at_ => by
        by_cases here : c = b
        · subst here
          exact protected_ p at_
        · simp only [word, same c here]
          exact ((inv.fibers u).pc.committed at_).2 }

theorem setFrame_ne (sh : Shared n) (b : Nat) (frame : Frame) {c : Nat} (ne : c ≠ b) :
    (sh.setFrame b frame).frames c = sh.frames c := by
  simp [Shared.setFrame, ne]

@[simp]
theorem setFrame_self (sh : Shared n) (b : Nat) (frame : Frame) :
    (sh.setFrame b frame).frames b = frame := by
  simp [Shared.setFrame]

theorem Inv.frame {f : Fin n} {sh : Shared n} {fib : Fiber} (inv : Inv cfg s) (b : Nat)
    (table : sh.table = s.shared.table)
    (elsewhere : ∀ c, c ≠ b → sh.frames c = s.shared.frames c)
    (free : ∀ c, freeCount cfg sh c = freeCount cfg s.shared c)
    (pid : ∀ p, Mapped cfg s p b → (sh.frames b).pid = p)
    (owned : ∀ c, (fib.pc.owned cfg).count c = ((s.fibers f).pc.owned cfg).count c)
    (locksAt : LockOk (s.after f sh fib) b)
    (exclusives : ∀ c, c ≠ b → fib.exclusives c = (s.fibers f).exclusives c)
    (shareds : ∀ c, c ≠ b → fib.shareds c = (s.fibers f).shareds c)
    (others : ∀ u, u ≠ f → Rely cfg s (s.after f sh fib) u)
    (own : FiberOk cfg (s.after f sh fib) f) :
    Inv cfg (s.after f sh fib) := by
  have mapped : ∀ p c, Mapped cfg (s.after f sh fib) p c ↔ Mapped cfg s p c := fun p c => by
    simp only [Mapped, after_shared, table]
  refine inv.next (f := f) ?_ (fun p c here => ?_) (fun c => ?_) (fun c => ?_) others own
  · rw [after_shared, table]
    exact inv.table
  · rw [mapped] at here
    by_cases same : c = b
    · subst same
      exact pid p here
    · rw [after_shared, elsewhere c same]
      exact inv.mapped p c here
  · have count := sum_after s f sh fib fun fib => (fib.pc.owned cfg).count c
    rw [owned c] at count
    have slots : slotsOf cfg sh c = slotsOf cfg s.shared c := by simp only [slotsOf, table]
    unfold places ownedCount
    rw [after_shared, free, slots]
    omega
  · by_cases same : c = b
    · exact same ▸ locksAt
    · refine inv.lockOk_after ?_ (exclusives c same) (shareds c same)
      simp only [word, after_shared, elsewhere c same]

end UringDb.BufferMgr
