import UringDb.BufferMgr.Slots

/-!
# Moves of a program counter

Most steps only read shared data and choose where to continue. `Inv.move` covers them all;
`Pc.Lands` describes the points a call returns to from several places, and the page-table
calls get one lemma each.
-/
namespace UringDb.BufferMgr

open PageState PageTable

variable {n : Nat} {cfg : Config n} {s : State n} {f : Fin n} {sh : Shared n} {pc pc' : Pc}

/-- The shared data is, for all assertions, what it was. -/
structure Calm (cfg : Config n) (s : State n) (f : Fin n) (sh : Shared n) : Prop where
  table : PageTable.Inv cfg.table sh.table
  pcs : ∀ u, u ≠ f → sh.table.pcs u = s.shared.table.pcs u
  entries : SameEntries s.shared.table.slots sh.table.slots
  frames : ∀ b, (sh.frames b).state = (s.shared.frames b).state ∧
    (sh.frames b).pid = (s.shared.frames b).pid
  sections : sh.sections = s.shared.sections
  free : ∀ b, freeCount cfg sh b = freeCount cfg s.shared b

theorem Inv.calm (inv : Inv cfg s) (table : sh.table = s.shared.table)
    (frames : ∀ b, (sh.frames b).state = (s.shared.frames b).state ∧
      (sh.frames b).pid = (s.shared.frames b).pid)
    (sections : sh.sections = s.shared.sections)
    (free : ∀ b, freeCount cfg sh b = freeCount cfg s.shared b) : Calm cfg s f sh where
  table := table ▸ inv.table
  pcs := fun u _ => by rw [table]
  entries := by
    rw [table]
    exact SameEntries.refl _
  frames := frames
  sections := sections
  free := free

theorem Inv.still (inv : Inv cfg s) : Calm cfg s f s.shared :=
  inv.calm rfl (fun _ => ⟨rfl, rfl⟩) rfl fun _ => rfl

/-- Two program counters stand for the same possessions. -/
structure Pc.Like (cfg : Config n) (pc pc' : Pc) : Prop where
  owned : pc'.owned cfg = pc.owned cfg
  locks : pc'.locks = pc.locks
  setsUp : pc'.setsUp = pc.setsUp
  committed : pc'.committed = pc.committed

theorem handed_none {P : Guard → Prop} : ∀ g ∈ (none : Option Guard), P g :=
  fun _ member => by cases member

theorem not_inEvict {P : Prop} : false = true → P := fun same => by cases same

section

variable (inv : Inv cfg s) (at_ : (s.fibers f).pc = pc)

include inv at_

theorem Inv.ok_at : PcOk cfg s pc := at_ ▸ (inv.fibers f).pc

theorem Inv.agree_at : Agree pc (s.shared.table.pcs f) := at_ ▸ (inv.fibers f).agree

theorem Inv.handed_at : ∀ g ∈ pc.guard, g ∈ (s.fibers f).guards := at_ ▸ (inv.fibers f).handed

theorem Inv.alone_at : pc.inEvict = true → (s.fibers f).guards = [] := at_ ▸ (inv.fibers f).alone

theorem Inv.locks_at : ∀ lock ∈ pc.locks, Mapped cfg s lock.pid lock.bid := fun lock member =>
  (inv.fibers f).locks lock (List.mem_append_left _ (at_ ▸ member))

theorem Inv.move (calm : Calm cfg s f sh) (like : pc.Like cfg pc') (ok : PcOk cfg s pc')
    (agree : Agree pc' (sh.table.pcs f)) (handed : ∀ g ∈ pc'.guard, g ∈ pc.guard)
    (alone : pc'.inEvict = true → pc.inEvict = true) :
    Inv cfg (s.after f sh { s.fibers f with pc := pc' }) := by
  have locks : ({ s.fibers f with pc := pc' } : Fiber).locks = (s.fibers f).locks := by
    simp only [Fiber.locks, like.locks, at_]
  have sets : pc'.setsUp = (s.fibers f).pc.setsUp := by rw [like.setsUp, at_]
  refine inv.quiet calm.table calm.pcs calm.entries calm.frames calm.sections (fun b => ?_)
    (fun b => ?_) (fun b => ?_) ?_ ok agree (fun g member => ?_) (fun evicts => ?_)
    (inv.fibers f).guards ?_
  · rw [calm.free, at_, like.owned]
  · simp only [Fiber.exclusives, locks, sets]
  · simp only [Fiber.shareds, locks]
  · rw [like.committed, at_]
  · exact inv.handed_at at_ g (handed g member)
  · exact inv.alone_at at_ (alone evicts)
  · rw [locks]
    exact (inv.fibers f).locks

end

/-! ### Landing points -/

/-- A program counter that can be entered in any state, with `owned` in hands: `evicting`
says whether it is inside `evict`, and `handed` is the guard the call works on. -/
structure Pc.Lands (cfg : Config n) (owned : List Nat) (evicting : Bool) (handed : Option Guard)
    (pc : Pc) : Prop where
  owned : pc.owned cfg = owned
  locks : pc.locks = []
  setsUp : pc.setsUp = none
  committed : pc.committed = none
  inEvict : pc.inEvict = evicting
  guard : ∀ g ∈ pc.guard, g ∈ handed
  ok : ∀ s, PcOk cfg s pc
  agree : ∀ t : PageTable.Pc, t.canCall = true → Agree pc t

theorem Pc.Lands.idle (handed : Option Guard) : Pc.Lands cfg [] false handed .idle :=
  ⟨rfl, rfl, rfl, rfl, rfl, handed_none, fun _ => trivial, fun _ free => free⟩

section

variable {fx : Fix}

theorem lands_fixLookup (handed : Option Guard) (byPid : fx.guard = none) :
    Pc.Lands cfg [] false handed (.fixLookup fx) :=
  ⟨rfl, rfl, rfl, rfl, rfl, handed_none, fun _ => byPid, fun _ free => Or.inl free⟩

theorem lands_mismatch (cfg : Config n) : Pc.Lands cfg [] false fx.guard fx.mismatch := by
  unfold Fix.mismatch
  split
  next form => exact lands_fixLookup _ (by simp [Fix.guard, form])
  next => exact Pc.Lands.idle _

theorem lands_conflict (cfg : Config n) (wf : fx.Wf) : Pc.Lands cfg [] false fx.guard fx.conflict := by
  unfold Fix.conflict
  split
  next form => exact lands_fixLookup _ (by simp [Fix.guard, form])
  next form =>
    exact ⟨rfl, rfl, rfl, rfl, rfl, fun _ member => member,
      fun _ => ⟨wf, by simp [Fix.Target, form]⟩, fun _ free => free⟩
  next => exact Pc.Lands.idle _

theorem lands_faultLookup (handed : Option Guard) (p : Nat) (caller : Caller) :
    Pc.Lands cfg [] false handed (.faultLookup p caller) :=
  ⟨rfl, rfl, rfl, rfl, rfl, handed_none, fun _ => trivial, fun _ free => Or.inl free⟩

theorem lands_missing (cfg : Config n) (handed : Option Guard) : Pc.Lands cfg [] false handed fx.missing := by
  unfold Fix.missing
  split
  · exact lands_faultLookup _ _ _
  · exact Pc.Lands.idle _

theorem lands_start (cfg : Config n) (wf : fx.Wf) : Pc.Lands cfg [] false fx.guard fx.start := by
  unfold Fix.start
  split
  next form => exact lands_fixLookup _ (by simp [Fix.guard, form])
  next form =>
    exact ⟨rfl, rfl, rfl, rfl, rfl, fun _ member => member,
      fun _ => ⟨wf, by simp [Fix.Target, form]⟩, fun _ free => free⟩

theorem lands_optLookup (handed : Option Guard) (p : Nat) :
    Pc.Lands cfg [] false handed (.optLookup p) :=
  ⟨rfl, rfl, rfl, rfl, rfl, handed_none, fun _ => trivial, fun _ free => Or.inl free⟩

theorem lands_resume (cfg : Config n) (handed : Option Guard) (caller : Caller) :
    Pc.Lands cfg [] false handed caller.resume := by
  cases caller with
  | client => exact Pc.Lands.idle _
  | fix kind p => exact lands_fixLookup _ rfl
  | optimistic p => exact lands_optLookup _ p

theorem lands_checkWatermark (cfg : Config n) (need : Need) (size : Nat) :
    Pc.Lands cfg [] false none (checkWatermark cfg need size) := by
  unfold checkWatermark
  split <;> exact ⟨rfl, rfl, rfl, rfl, rfl, handed_none, fun _ => trivial, fun _ free => free⟩

theorem lands_afterRefill {need : Need} {why : Refill} {size : Nat}
    (next : afterRefill cfg need why size = some pc) : Pc.Lands cfg [] false none pc := by
  unfold afterRefill at next
  split at next
  · cases next
    exact ⟨rfl, rfl, rfl, rfl, rfl, handed_none, fun _ => trivial, fun _ free => free⟩
  · cases next
    split
    · exact ⟨rfl, rfl, rfl, rfl, rfl, handed_none, fun _ => trivial, fun _ free => free⟩
    · exact lands_faultLookup _ _ _
  · cases next
  · cases next
    split
    · exact lands_checkWatermark cfg _ _
    · exact Pc.Lands.idle _
  · split at next
    · cases next
      exact lands_checkWatermark cfg _ _
    · cases next

theorem lands_faultRefill (cfg : Config n) (sh : Shared n) (f : Fin n) (p : Nat) (caller : Caller) :
    Pc.Lands cfg [] false none (faultRefill cfg sh f p caller) := by
  unfold faultRefill
  split <;> exact ⟨rfl, rfl, rfl, rfl, rfl, handed_none, fun _ => trivial, fun _ free => free⟩

end

section

variable (cfg : Config n) (ev : Eviction)

theorem lands_sweepNext (sw : Sweep) : Pc.Lands cfg ev.freed true none (sw.next cfg ev) := by
  unfold Sweep.next
  split <;> exact ⟨rfl, rfl, rfl, rfl, rfl, handed_none, fun _ => trivial, fun _ free => free⟩

theorem lands_chosen (sw : Sweep) : Pc.Lands cfg ev.freed true none (ev.chosen cfg sw) := by
  unfold Eviction.chosen
  split
  · exact ⟨rfl, rfl, rfl, rfl, rfl, handed_none, fun _ => trivial, fun _ free => free⟩
  · exact lands_sweepNext cfg ev sw

theorem owned_evRelease (ph : Phase) :
    (Pc.evRelease ev ph 0).owned cfg = ev.freed := by
  simp [Pc.owned]

theorem lands_finishWritten : Pc.Lands cfg ev.freed true none ev.finishWritten := by
  unfold Eviction.finishWritten
  split
  next none =>
    exact ⟨none.symm, rfl, rfl, rfl, rfl, handed_none, fun _ => trivial, fun _ free => free⟩
  next =>
    exact ⟨owned_evRelease cfg ev _, rfl, rfl, rfl, rfl, handed_none, fun _ => trivial, fun _ free => free⟩

theorem lands_startWritten : Pc.Lands cfg ev.freed true none ev.startWritten := by
  unfold Eviction.startWritten
  split
  · exact lands_finishWritten cfg ev
  · exact ⟨rfl, rfl, rfl, rfl, rfl, handed_none, fun _ => trivial, fun _ free => free⟩

theorem lands_next (ph : Phase) (rest : List Nat) :
    Pc.Lands cfg ev.freed true none (ev.next ph rest) := by
  cases rest with
  | cons b rest => exact ⟨rfl, rfl, rfl, rfl, rfl, handed_none, fun _ => trivial, fun _ free => free⟩
  | nil =>
    cases ph with
    | written => exact lands_finishWritten cfg ev
    | clean =>
      change Pc.Lands cfg ev.freed true none ev.finishClean
      unfold Eviction.finishClean
      split
      · exact lands_startWritten cfg ev
      · exact ⟨owned_evRelease cfg ev _, rfl, rfl, rfl, rfl, handed_none, fun _ => trivial,
          fun _ free => free⟩

end

theorem Inv.land (inv : Inv cfg s) (at_ : (s.fibers f).pc = pc) (calm : Calm cfg s f sh)
    (lands : pc'.Lands cfg (pc.owned cfg) pc.inEvict pc.guard)
    (free : (sh.table.pcs f).canCall = true)
    (plain : pc.locks = [] ∧ pc.setsUp = none ∧ pc.committed = none) :
    Inv cfg (s.after f sh { s.fibers f with pc := pc' }) :=
  inv.move at_ calm
    ⟨lands.owned, lands.locks.trans plain.1.symm, lands.setsUp.trans plain.2.1.symm,
      lands.committed.trans plain.2.2.symm⟩
    (lands.ok s) (lands.agree _ free) lands.guard (fun evicts => lands.inEvict.symm.trans evicts)

/-! ### Page-table calls -/

section

variable {call : Call} {answer : Bool} {out : PageTable.Out}

/-- A step of the page table, seen from the buffer manager: the call begins, or one step of
the running call is made. -/
theorem tableStep_cases (stepped : tableStep cfg s.shared f call answer = some (sh, out)) :
    ((s.shared.table.pcs f).canCall = true ∧ out = .silent ∧
      ∃ start, call.start = some start ∧ sh = { s.shared with table := s.shared.table.setPc f start }) ∨
    ((s.shared.table.pcs f).canCall = false ∧
      ∃ r, cfg.table.step s.shared.table.slots answer (s.shared.table.pcs f) = some r ∧
        out = r.out ∧
        sh = { s.shared with
          table := ⟨r.slots, Function.update s.shared.table.pcs f r.pc⟩ }) := by
  unfold tableStep at stepped
  split at stepped
  next idle =>
    simp only [PageTable.exec, idle, if_true, Option.map_map, Option.map_eq_some_iff,
      Function.comp_apply, Prod.mk.injEq] at stepped
    obtain ⟨start, begins, rfl, rfl⟩ := stepped
    exact Or.inl ⟨idle, rfl, start, begins, rfl⟩
  next busy =>
    simp only [PageTable.exec, Option.map_map, Option.map_eq_some_iff, Function.comp_apply,
      Prod.mk.injEq] at stepped
    obtain ⟨r, steps, rfl, rfl⟩ := stepped
    exact Or.inr ⟨by simpa using busy, r, steps, rfl, rfl⟩

theorem tableStep_table (stepped : tableStep cfg s.shared f call answer = some (sh, out)) :
    sh = { s.shared with table := sh.table } := by
  rcases tableStep_cases stepped with ⟨-, -, start, -, rfl⟩ | ⟨-, r, -, -, rfl⟩ <;> rfl

theorem tableStep_others (stepped : tableStep cfg s.shared f call answer = some (sh, out)) (u : Fin n)
    (ne : u ≠ f) : sh.table.pcs u = s.shared.table.pcs u := by
  rcases tableStep_cases stepped with ⟨-, -, start, -, rfl⟩ | ⟨-, r, -, -, rfl⟩
  · simp [PageTable.State.setPc, ne]
  · simp [ne]

theorem tableStep_inv (inv : PageTable.Inv cfg.table s.shared.table)
    (undisturbed : Undisturbed cfg.table s.shared.table (.step f answer))
    (stepped : tableStep cfg s.shared f call answer = some (sh, out)) :
    PageTable.Inv cfg.table sh.table := by
  simp only [tableStep, Option.map_eq_some_iff, Prod.mk.injEq] at stepped
  obtain ⟨⟨st, o⟩, execs, rfl, rfl⟩ := stepped
  split at execs
  · exact inv_exec (a := .call f call) inv trivial execs
  · exact inv_exec inv undisturbed execs

theorem tableStep_calm (inv : Inv cfg s)
    (undisturbed : Undisturbed cfg.table s.shared.table (.step f answer))
    (stepped : tableStep cfg s.shared f call answer = some (sh, out))
    (entries : SameEntries s.shared.table.slots sh.table.slots) : Calm cfg s f sh := by
  have table := tableStep_inv inv.table undisturbed stepped
  have others := tableStep_others stepped
  rcases tableStep_cases stepped with ⟨-, -, start, -, rfl⟩ | ⟨-, r, -, -, rfl⟩ <;>
    exact ⟨table, others, entries, fun _ => ⟨rfl, rfl⟩, rfl, fun _ => rfl⟩

end

/-- `find_copy` goes on, misses, or finds a frame the page is mapped to. -/
theorem lookup_moves {p : Nat} {found : Nat → Pc} {missing : Pc} {r : Result n} {fib : Fiber}
    (running : (s.shared.table.pcs f).canCall = true ∨ ∃ d, s.shared.table.pcs f = .find p d)
    (stepped : lookup cfg s.shared f fib p found missing = some r) :
    ∃ sh out pc', tableStep cfg s.shared f (.findCopy p) false = some (sh, out) ∧
      sh.table.slots = s.shared.table.slots ∧ r = ⟨sh, { fib with pc := pc' }, .silent⟩ ∧
      ((pc' = fib.pc ∧ ∃ d, sh.table.pcs f = .find p d) ∨
       ((sh.table.pcs f).canCall = true ∧
         (pc' = missing ∨ ∃ b, pc' = found b ∧ Mapped cfg s p b))) := by
  unfold lookup at stepped
  cases tried : tableStep cfg s.shared f (.findCopy p) false with
  | none => simp [tried] at stepped
  | some next =>
    obtain ⟨sh, out⟩ := next
    rcases tableStep_cases tried with ⟨-, rfl, start, begins, rfl⟩ | ⟨busy, step, steps, rfl, rfl⟩
    · cases begins
      simp only [tried] at stepped
      cases stepped
      exact ⟨_, _, _, rfl, rfl, rfl, Or.inl ⟨rfl, 0, by simp [PageTable.State.setPc]⟩⟩
    · obtain ⟨d, at_⟩ := running.resolve_left (by simp [busy])
      rw [at_] at steps
      obtain ⟨slots, going | ⟨out, idle⟩ | ⟨b, out, idle, entry⟩⟩ := find_step steps
      · obtain ⟨out, e, still⟩ := going
        rw [out] at tried
        simp only [tried] at stepped
        cases stepped
        exact ⟨_, _, _, rfl, slots, rfl, Or.inl ⟨rfl, e, by simp [still]⟩⟩
      · simp only [tried, out] at stepped
        cases stepped
        exact ⟨_, _, _, rfl, slots, rfl, Or.inr ⟨by simpa using idle, Or.inl rfl⟩⟩
      · simp only [tried, out] at stepped
        cases stepped
        exact ⟨_, _, _, rfl, slots, rfl, Or.inr ⟨by simpa using idle, Or.inr ⟨b, rfl, entry⟩⟩⟩

theorem lookup_cases {p : Nat} {found : Nat → Pc} {missing : Pc} {r : Result n} {fib : Fiber}
    (inv : Inv cfg s)
    (running : (s.shared.table.pcs f).canCall = true ∨ ∃ d, s.shared.table.pcs f = .find p d)
    (undisturbed : Undisturbed cfg.table s.shared.table (.step f false))
    (stepped : lookup cfg s.shared f fib p found missing = some r) :
    ∃ sh pc', r = ⟨sh, { fib with pc := pc' }, .silent⟩ ∧ Calm cfg s f sh ∧
      ((pc' = fib.pc ∧ ∃ d, sh.table.pcs f = .find p d) ∨
       ((sh.table.pcs f).canCall = true ∧
         (pc' = missing ∨ ∃ b, pc' = found b ∧ Mapped cfg s p b))) := by
  obtain ⟨sh, out, pc', tried, slots, rfl, goes⟩ := lookup_moves running stepped
  exact ⟨sh, pc', rfl, tableStep_calm inv undisturbed tried (slots ▸ SameEntries.refl _), goes⟩

/-- `erase_if` goes on, finds an entry that its caller has to check, answers no, or commits. -/
theorem evErase_moves {ev : Eviction} {ph : Phase} {b p : Nat} {rest : List Nat} {r : Result n}
    {fib : Fiber} (carries : (s.shared.table.pcs f).Carries cfg.table)
    (running : Agree (.evErase ev ph b p rest) (s.shared.table.pcs f))
    (stepped : evErase cfg s.shared f fib ev ph b p rest = some r) :
    ∃ sh out, tableStep cfg s.shared f (.eraseIf p) false = some (sh, out) ∧
      (sh.table.pcs f).Carries cfg.table ∧
      ((∃ pc', sh.table.slots = s.shared.table.slots ∧
          r = ⟨sh, { fib with pc := pc' }, .silent⟩ ∧
          ((pc' = fib.pc ∧ ∃ d, sh.table.pcs f = .eraseIf p d) ∨
           (∃ i raw, sh.table.pcs f = .precheck p i raw ∧
             pc' = if Slot.bid raw = b then .preEvicting ev ph b p rest
               else .preAnswer ev ph b p rest false) ∨
           (pc' = ev.next ph rest ∧ (sh.table.pcs f).canCall = true))) ∨
       ∃ i, i < cfg.table.slotCount ∧ Entry s.shared.table.slots i p b ∧
         (s.shared.table.pcs f).tombstones s.shared.table.slots ≠ none ∧
         sh.table.slots = setSlot s.shared.table.slots i Slot.tombstoneSlot ∧
         (sh.table.pcs f).collapses (.eraseIf p) ∧
         r = ⟨sh, { fib with pc := .evCollapse ev ph b p rest }, .erased p b⟩) := by
  unfold evErase at stepped
  cases tried : tableStep cfg s.shared f (.eraseIf p) false with
  | none => simp [tried] at stepped
  | some next =>
    obtain ⟨sh, out⟩ := next
    simp only [tried] at stepped
    refine ⟨sh, out, rfl, ?_⟩
    rcases tableStep_cases tried with ⟨-, rfl, start, begins, rfl⟩ | ⟨busy, step, steps, rfl, moved⟩
    · cases begins
      have here : (s.shared.table.setPc f (.eraseIf p 0)).pcs f = .eraseIf p 0 := by
        simp [PageTable.State.setPc]
      simp only [here] at stepped
      cases stepped
      exact ⟨by rw [here]; trivial, Or.inl ⟨_, rfl, rfl, Or.inl ⟨rfl, 0, here⟩⟩⟩
    · have slotsEq : sh.table.slots = step.slots := by rw [moved]
      have pcEq : sh.table.pcs f = step.pc := by simp [moved]
      rw [slotsEq, pcEq]
      rcases running.resolve_left (by simp [busy]) with ⟨d, probing⟩ | ⟨i, raw, cas, rfl⟩
      · rw [probing] at steps
        obtain ⟨slots, ⟨out, ⟨-, still, -⟩ | ⟨found, holds⟩⟩ | ⟨out, idle, -⟩⟩ := eraseIf_step steps
        · simp only [out, pcEq, still] at stepped
          cases stepped
          exact ⟨by rw [still]; trivial, Or.inl ⟨_, slots, rfl, Or.inl ⟨rfl, _, still⟩⟩⟩
        · simp only [out, pcEq, found] at stepped
          refine ⟨by rw [found]; exact ⟨cfg.table.probe_lt p d, holds⟩,
            Or.inl ⟨_, slots, ?_, Or.inr (Or.inl ⟨_, _, found, rfl⟩)⟩⟩
          split at stepped <;> cases stepped <;> simp [*]
        · simp only [out] at stepped
          cases stepped
          exact ⟨.of_canCall idle, Or.inl ⟨_, slots, rfl, Or.inr (Or.inr ⟨rfl, idle⟩)⟩⟩
      · rw [cas] at steps carries
        obtain ⟨inRange, live, rfl⟩ := carries
        rcases eraseIfCas_step steps with ⟨hit, slots, out, collapses⟩ | ⟨-, slots, out, idle⟩
        · simp only [out] at stepped
          cases stepped
          refine ⟨collapses.carries, Or.inr ⟨i, inRange, ?_, ?_, slots, collapses, rfl⟩⟩
          · rw [← hit] at live ⊢
            exact ⟨⟨live, rfl⟩, rfl⟩
          · simp [cas, PageTable.Pc.tombstones, hit]
        · simp only [out] at stepped
          cases stepped
          exact ⟨.of_canCall idle, Or.inl ⟨_, slots, rfl, Or.inr (Or.inr ⟨rfl, idle⟩)⟩⟩

/-- The answer of the precheck sends `erase_if` to its compare-and-swap or back to its caller. -/
theorem preAnswer_moves {ev : Eviction} {ph : Phase} {b p i raw : Nat} {rest : List Nat}
    {answer : Bool} {r : Result n} {fib : Fiber}
    (waiting : s.shared.table.pcs f = .precheck p i raw)
    (stepped : preAnswer cfg s.shared f fib ev ph b p rest answer = some r) :
    ∃ sh out, tableStep cfg s.shared f (.eraseIf p) answer = some (sh, out) ∧
      sh.table.slots = s.shared.table.slots ∧
      ((answer = true ∧ sh.table.pcs f = .eraseIfCas p i raw ∧
          r = ⟨sh, { fib with pc := .evErase ev ph b p rest }, .silent⟩) ∨
       (answer = false ∧ (sh.table.pcs f).canCall = true ∧
          r = ⟨sh, { fib with pc := ev.next ph rest }, .silent⟩)) := by
  obtain ⟨⟨sh, out⟩, tried, goes⟩ := Option.bind_eq_some_iff.mp stepped
  cases goes
  rcases tableStep_cases tried with ⟨idle, -⟩ | ⟨-, step, steps, -, rfl⟩
  · rw [waiting] at idle
    cases idle
  · rw [waiting] at steps
    obtain ⟨slots, ⟨rfl, -, cas⟩ | ⟨rfl, -, idle⟩⟩ := precheck_step steps
    · exact ⟨_, out, tried, slots, Or.inl ⟨rfl, by simpa using cas, rfl⟩⟩
    · exact ⟨_, out, tried, slots, Or.inr ⟨rfl, by simpa using idle, rfl⟩⟩

/-- Behind the commit `erase_if` goes on or returns, and leaves the entries alone. -/
theorem evCollapse_moves {ev : Eviction} {ph : Phase} {b p : Nat} {rest : List Nat} {r : Result n}
    {fib : Fiber} (running : (s.shared.table.pcs f).collapses (.eraseIf p))
    (stepped : evCollapse cfg s.shared f fib ev ph b p rest = some r) :
    ∃ sh out pc', tableStep cfg s.shared f (.eraseIf p) false = some (sh, out) ∧
      SameEntries s.shared.table.slots sh.table.slots ∧ r = ⟨sh, { fib with pc := pc' }, .silent⟩ ∧
      ((pc' = fib.pc ∧ (sh.table.pcs f).collapses (.eraseIf p)) ∨
       (pc' = .evPost ev ph b p rest ∧ (sh.table.pcs f).canCall = true)) := by
  unfold evCollapse at stepped
  cases tried : tableStep cfg s.shared f (.eraseIf p) false with
  | none => simp [tried] at stepped
  | some next =>
    obtain ⟨sh, out⟩ := next
    simp only [tried] at stepped
    rcases tableStep_cases tried with ⟨idle, -⟩ | ⟨-, step, steps, rfl, moved⟩
    · rw [running.busy] at idle
      cases idle
    · have slotsEq : sh.table.slots = step.slots := by rw [moved]
      have pcEq : sh.table.pcs f = step.pc := by simp [moved]
      obtain ⟨slots, goes⟩ := collapse_step running steps
      have entries : SameEntries s.shared.table.slots sh.table.slots := by
        rw [slotsEq]
        rcases slots with same | ⟨i, tomb, cleared⟩
        · rw [same]
          exact SameEntries.refl _
        · rw [cleared]
          exact SameEntries.clear tomb
      rcases goes with ⟨out, still⟩ | ⟨out, idle⟩
      · simp only [out] at stepped
        cases stepped
        exact ⟨sh, _, _, rfl, entries, rfl, Or.inl ⟨rfl, pcEq ▸ still⟩⟩
      · simp only [out] at stepped
        cases stepped
        exact ⟨sh, _, _, rfl, entries, rfl, Or.inr ⟨rfl, pcEq ▸ idle⟩⟩

end UringDb.BufferMgr
