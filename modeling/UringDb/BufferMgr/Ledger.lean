import UringDb.BufferMgr.Pools

/-!
# The ledger of frames

Frames travel between slots, pools, local lists and the hands of fibers, and `physUsedCount`
follows with a delay, through the workers' deltas. Both accounts balance in every
interleaving of a fixed set of workers. The side condition `Sound` plays no role here: a
frame changes its place only in a compare-and-swap that still sees the word its call has
read, under a pool's lock, or in a list of the own worker. Frame 0 stays where it is because
a sweep never chooses page 0.
-/
namespace UringDb.BufferMgr

open PageState PageTable

variable {n : Nat}

/-! ### The accounts -/

def listed (cfg : Config n) (sh : Shared n) : Nat := weigh cfg List.length sh

/-- What the workers have not yet added to `physUsedCount`. -/
def deltas (cfg : Config n) (sh : Shared n) : Int :=
  ∑ w ∈ Finset.range cfg.workers, (sh.locals w).delta

def account (cfg : Config n) (sh : Shared n) : Int := sh.used + deltas cfg sh + listed cfg sh

/-- Frame 0 is not among the chosen ones. -/
def Eviction.Spares (ev : Eviction) : Prop := 0 ∉ ev.toEvict ∧ 0 ∉ ev.toWrite

namespace Pc

/-- The frames a fiber has taken from a list that are not counted as used, minus those it has
put into a list that still are. -/
def due (cfg : Config n) : Pc → Int
  | .allocAccum _ | .faultAccum .. | .loseRelease .. => 1
  | .evRelease ev _ pool =>
    -((ev.freed.filter fun bid => cfg.freePoolIndexForBid bid < pool).length : Int)
  | .evUsed ev _ => -(ev.freed.length : Int)
  | _ => 0

/-- The next step works on a pool, under its lock. -/
def locksPool : Pc → Bool
  | .refill .. | .loseRelease .. | .evRelease .. => true
  | _ => false

/-- The frames `evict` has chosen, or is about to, do not include frame 0, and a release is
at one of the pools. -/
def Spares (cfg : Config n) : Pc → Prop
  | .evOwners ev | .evSize ev .. | .evPos ev .. | .evScan ev _ => ev.Spares
  | .evPid ev _ pid bid | .evMode ev _ pid bid | .evIo ev _ pid bid _
  | .evEvicting ev _ pid bid _ => ev.Spares ∧ (bid = 0 → pid = 0)
  | .evMarkLoad ev .. | .evMarkCas ev .. => ev.Spares
  | .evSet ev _ _ bid | .evDirty ev _ _ bid | .evClean ev _ _ bid => ev.Spares ∧ bid ≠ 0
  | .evPosStore ev .. | .evUnreserve ev | .evIssue ev .. | .evAwait ev _ => ev.Spares
  | .evNowPid ev _ bid rest | .evErase ev _ bid _ rest | .preEvicting ev _ bid _ rest
  | .preMode ev _ bid _ rest | .preDirty ev _ bid _ rest | .preIo ev _ bid _ rest
  | .preAnswer ev _ bid _ rest _ => ev.Spares ∧ bid ≠ 0 ∧ 0 ∉ rest
  | .evCollapse ev _ _ _ rest | .evPost ev _ _ _ rest => ev.Spares ∧ 0 ∉ rest
  | .evRelease ev _ pool => ev.Spares ∧ pool < cfg.poolCount
  | .evUsed ev _ | .evDone ev => ev.Spares
  | _ => True

end Pc

structure Ledger (cfg : Config n) (s : State n) : Prop where
  frames : ∀ b, places cfg s b = if b < max 1 cfg.pageCount then 1 else 0
  used : (account cfg s.shared + ∑ f, (s.fibers f).pc.due cfg) % 2 ^ 64 =
    (max 1 cfg.pageCount : Nat) % 2 ^ 64
  zero : 1 ≤ slotsOf cfg s.shared 0
  root : ∀ p, Mapped cfg s p 0 → p = 0
  carries : ∀ f, (s.shared.table.pcs f).Carries cfg.table
  agree : ∀ f, Agree (s.fibers f).pc (s.shared.table.pcs f)
  spares : ∀ f, (s.fibers f).pc.Spares cfg
  busy : ∀ f, (s.fibers f).pc.isIdle = false → (s.shared.locals (cfg.wid f)).active = true
  asleep : ∀ w, (s.shared.locals w).active = false →
    (s.shared.locals w).free = [] ∧ (s.shared.locals w).delta = 0

/-! ### What a step books -/

/-- The accounts of a step of `f` that leaves `sh` and `fib`. -/
structure Booked (cfg : Config n) (s : State n) (f : Fin n) (sh : Shared n) (fib : Fiber) :
    Prop where
  frames : ∀ b, slotsOf cfg sh b + freeCount cfg sh b + (fib.pc.owned cfg).count b =
    slotsOf cfg s.shared b + freeCount cfg s.shared b + ((s.fibers f).pc.owned cfg).count b
  used : (account cfg sh + fib.pc.due cfg) % 2 ^ 64 =
    (account cfg s.shared + (s.fibers f).pc.due cfg) % 2 ^ 64
  zero : 1 ≤ slotsOf cfg sh 0
  root : ∀ p, (∃ i < cfg.table.slotCount, Entry sh.table.slots i p 0) → p = 0
  others : ∀ u, u ≠ f → sh.table.pcs u = s.shared.table.pcs u
  carries : (sh.table.pcs f).Carries cfg.table
  agree : Agree fib.pc (sh.table.pcs f)
  spares : fib.pc.Spares cfg
  active : ∀ w, (sh.locals w).active = (s.shared.locals w).active
  locals : ∀ w, w ≠ cfg.wid f → sh.locals w = s.shared.locals w
  pools : (s.fibers f).pc.locksPool = false → sh.pools = s.shared.pools

variable {cfg : Config n} {s : State n} {f : Fin n} {sh : Shared n} {fib : Fiber} {pc pc' : Pc}

theorem Ledger.after (ledger : Ledger cfg s) (booked : Booked cfg s f sh fib)
    (awake : (s.shared.locals (cfg.wid f)).active = true) : Ledger cfg (s.after f sh fib) := by
  refine
    { frames := fun b => ?_
      used := ?_
      zero := booked.zero
      root := booked.root
      carries := fun u => ?_
      agree := fun u => ?_
      spares := fun u => ?_
      busy := fun u moves => ?_
      asleep := fun w sleeps => ?_ }
  · have count := sum_after s f sh fib fun fib => (fib.pc.owned cfg).count b
    have frame := booked.frames b
    have before := ledger.frames b
    unfold places ownedCount at before ⊢
    rw [after_shared]
    omega
  · have count := sum_update Finset.univ s.fibers f fib (fun fib => fib.pc.due cfg)
      (Finset.mem_univ f)
    have used := booked.used
    have before := ledger.used
    simp only [State.after]
    omega
  · by_cases self : u = f
    · subst self
      exact booked.carries
    · rw [after_shared, booked.others u self]
      exact ledger.carries u
  · by_cases self : u = f
    · subst self
      rw [after_self]
      exact booked.agree
    · rw [after_shared, after_ne s f sh fib self, booked.others u self]
      exact ledger.agree u
  · by_cases self : u = f
    · subst self
      rw [after_self]
      exact booked.spares
    · rw [after_ne s f sh fib self]
      exact ledger.spares u
  · rw [after_shared, booked.active]
    by_cases self : u = f
    · subst self
      exact awake
    · rw [after_ne s f sh fib self] at moves
      exact ledger.busy u moves
  · rw [after_shared, booked.active] at sleeps
    have other : w ≠ cfg.wid f := by
      rintro rfl
      rw [awake] at sleeps
      cases sleeps
    rw [after_shared, booked.locals w other]
    exact ledger.asleep w sleeps

theorem Ledger.agree_at (ledger : Ledger cfg s) (at_ : (s.fibers f).pc = pc) :
    Agree pc (s.shared.table.pcs f) := at_ ▸ ledger.agree f

theorem Ledger.spares_at (ledger : Ledger cfg s) (at_ : (s.fibers f).pc = pc) :
    pc.Spares cfg := at_ ▸ ledger.spares f

/-- Frame 0 is in its slot and nowhere else. -/
theorem Ledger.zero_elsewhere (ledger : Ledger cfg s) :
    freeCount cfg s.shared 0 = 0 ∧ ownedCount cfg s 0 = 0 := by
  have once := ledger.frames 0
  have here := ledger.zero
  rw [if_pos (by omega)] at once
  unfold places at once
  omega

theorem Ledger.owned_ne_zero (ledger : Ledger cfg s) {b : Nat}
    (member : b ∈ (s.fibers f).pc.owned cfg) : b ≠ 0 := by
  rintro rfl
  have here := ownedCount_pos member
  have nowhere := ledger.zero_elsewhere.2
  omega

theorem Ledger.listed_ne_zero (ledger : Ledger cfg s) {b : Nat}
    (member : b ∈ (s.shared.locals (cfg.wid f)).free) : b ≠ 0 := by
  rintro rfl
  have here : 1 ≤ (s.shared.locals (cfg.wid f)).free.count 0 :=
    List.one_le_count_iff.mpr member
  have part : (s.shared.locals (cfg.wid f)).free.count 0 ≤
      ∑ w ∈ Finset.range cfg.workers, (s.shared.locals w).free.count 0 :=
    Finset.single_le_sum (f := fun w => (s.shared.locals w).free.count 0)
      (fun _ _ => Nat.zero_le _) (Finset.mem_range.mpr (cfg.wid_lt f))
  have nowhere := ledger.zero_elsewhere.1
  unfold freeCount at nowhere
  omega

/-! ### Steps that move no frame -/

/-- The lists, the counters and the entries of the table are what they were. -/
structure Quiet (cfg : Config n) (s : State n) (f : Fin n) (sh : Shared n) : Prop where
  entries : SameEntries s.shared.table.slots sh.table.slots
  others : ∀ u, u ≠ f → sh.table.pcs u = s.shared.table.pcs u
  carries : (sh.table.pcs f).Carries cfg.table
  pools : sh.pools = s.shared.pools
  locals : sh.locals = s.shared.locals
  used : sh.used = s.shared.used

theorem Ledger.quiet (ledger : Ledger cfg s) (table : sh.table = s.shared.table)
    (pools : sh.pools = s.shared.pools) (locals : sh.locals = s.shared.locals)
    (used : sh.used = s.shared.used) : Quiet cfg s f sh where
  entries := by
    rw [table]
    exact SameEntries.refl _
  others := fun u _ => by rw [table]
  carries := by
    rw [table]
    exact ledger.carries f
  pools := pools
  locals := locals
  used := used

theorem weigh_congr (F : List Nat → Nat) (pools : sh.pools = s.shared.pools)
    (locals : sh.locals = s.shared.locals) : weigh cfg F sh = weigh cfg F s.shared := by
  unfold weigh
  rw [pools, locals]

theorem Quiet.account (quiet : Quiet cfg s f sh) : account cfg sh = account cfg s.shared := by
  unfold BufferMgr.account deltas listed
  rw [weigh_congr _ quiet.pools quiet.locals, quiet.locals, quiet.used]

theorem Ledger.move (ledger : Ledger cfg s) (at_ : (s.fibers f).pc = pc)
    (quiet : Quiet cfg s f sh) (owned : fib.pc.owned cfg = pc.owned cfg)
    (due : fib.pc.due cfg = pc.due cfg) (agree : Agree fib.pc (sh.table.pcs f))
    (spares : fib.pc.Spares cfg) : Booked cfg s f sh fib where
  frames := fun b => by
    have free : freeCount cfg sh b = freeCount cfg s.shared b :=
      weigh_congr (List.count b) quiet.pools quiet.locals
    rw [quiet.entries.slotsOf, free, owned, at_]
  used := by rw [quiet.account, due, at_]
  zero := by
    rw [quiet.entries.slotsOf]
    exact ledger.zero
  root := by
    rintro p ⟨i, inRange, entry⟩
    exact ledger.root p ⟨i, inRange, (quiet.entries.entry i p 0).mp entry⟩
  others := quiet.others
  carries := quiet.carries
  agree := agree
  spares := spares
  active := fun w => by rw [quiet.locals]
  locals := fun w _ => by rw [quiet.locals]
  pools := fun _ => quiet.pools

/-! ### Resting points -/

/-- A program counter with `owned` in hands and nothing due, outside of page-table calls. -/
structure Pc.Rests (cfg : Config n) (owned : List Nat) (pc : Pc) : Prop where
  owned : pc.owned cfg = owned
  due : pc.due cfg = 0
  spares : pc.Spares cfg
  agree : ∀ t : PageTable.Pc, t.canCall = true → Agree pc t

theorem Pc.Lands.rests {handed : Option Guard} (lands : pc.Lands cfg [] false handed) :
    pc.Rests cfg [] := by
  refine ⟨lands.owned, ?_, ?_, lands.agree⟩
  · cases pc with
    | allocAccum b => cases lands.owned
    | faultAccum p b caller => cases lands.owned
    | loseRelease p b caller => cases lands.owned
    | evRelease ev ph pool => cases lands.inEvict
    | evUsed ev ph => cases lands.inEvict
    | _ => rfl
  · have outside := lands.inEvict
    cases pc <;> trivial

theorem Ledger.land (ledger : Ledger cfg s) (at_ : (s.fibers f).pc = pc)
    (quiet : Quiet cfg s f sh) (rests : fib.pc.Rests cfg (pc.owned cfg))
    (settled : pc.due cfg = 0) (free : (sh.table.pcs f).canCall = true) :
    Booked cfg s f sh fib :=
  ledger.move at_ quiet rests.owned (rests.due.trans settled.symm) (rests.agree _ free) rests.spares

theorem rests_start (cfg : Config n) (fx : Fix) : Pc.Rests cfg [] fx.start := by
  unfold Fix.start
  split
  · exact ⟨rfl, rfl, trivial, fun _ free => Or.inl free⟩
  · exact ⟨rfl, rfl, trivial, fun _ free => free⟩

theorem rests_conflict (cfg : Config n) (fx : Fix) : Pc.Rests cfg [] fx.conflict := by
  unfold Fix.conflict
  split
  · exact ⟨rfl, rfl, trivial, fun _ free => Or.inl free⟩
  · exact ⟨rfl, rfl, trivial, fun _ free => free⟩
  · exact ⟨rfl, rfl, trivial, fun _ free => free⟩

section Evict

variable (cfg : Config n) {ev : Eviction}

theorem poolCount_pos : 0 < cfg.poolCount := Nat.two_pow_pos _

theorem rests_sweepNext (sw : Sweep) (spares : ev.Spares) :
    Pc.Rests cfg ev.freed (sw.next cfg ev) := by
  refine ⟨(lands_sweepNext cfg ev sw).owned, ?_, ?_, (lands_sweepNext cfg ev sw).agree⟩
  · unfold Sweep.next
    split <;> rfl
  · unfold Sweep.next
    split <;> exact spares

theorem rests_chosen (sw : Sweep) (spares : ev.Spares) :
    Pc.Rests cfg ev.freed (ev.chosen cfg sw) := by
  unfold Eviction.chosen
  split
  · exact ⟨rfl, rfl, spares, fun _ free => free⟩
  · exact rests_sweepNext cfg sw spares

theorem rests_evRelease (ph : Phase) (spares : ev.Spares) :
    Pc.Rests cfg ev.freed (.evRelease ev ph 0) :=
  ⟨owned_evRelease cfg ev ph, by simp [Pc.due], ⟨spares, poolCount_pos cfg⟩, fun _ free => free⟩

theorem rests_finishWritten (spares : ev.Spares) : Pc.Rests cfg ev.freed ev.finishWritten := by
  unfold Eviction.finishWritten
  split
  next none => exact ⟨none.symm, rfl, spares, fun _ free => free⟩
  next => exact rests_evRelease cfg _ spares

theorem rests_startWritten (spares : ev.Spares) : Pc.Rests cfg ev.freed ev.startWritten := by
  unfold Eviction.startWritten
  split
  next => exact rests_finishWritten cfg spares
  next bid rest chosen =>
    have sparing := spares.2
    rw [chosen, List.mem_cons, not_or] at sparing
    exact ⟨rfl, rfl, ⟨spares, Ne.symm sparing.1, sparing.2⟩, fun _ free => free⟩

theorem rests_next (ph : Phase) {rest : List Nat} (spares : ev.Spares) (sparing : 0 ∉ rest) :
    Pc.Rests cfg ev.freed (ev.next ph rest) := by
  cases rest with
  | cons b rest =>
    rw [List.mem_cons, not_or] at sparing
    exact ⟨rfl, rfl, ⟨spares, Ne.symm sparing.1, sparing.2⟩, fun _ free => free⟩
  | nil =>
    cases ph with
    | written => exact rests_finishWritten cfg spares
    | clean =>
      change Pc.Rests cfg ev.freed ev.finishClean
      unfold Eviction.finishClean
      split
      · exact rests_startWritten cfg spares
      · exact rests_evRelease cfg _ spares

end Evict

end UringDb.BufferMgr
