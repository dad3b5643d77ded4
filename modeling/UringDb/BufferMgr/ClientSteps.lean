import UringDb.BufferMgr.Pools

/-!
# The steps of clients

Every step of `fixS`, `fixX`, `fixO`, `validateO`, `unfixS`, `unfixX`, `allocPage` and
`handleFault` keeps the invariant, with one lemma for each step that does more than move on.
-/
namespace UringDb.BufferMgr

open PageState PageTable

variable {n : Nat} {cfg : Config n} {s : State n} {f : Fin n} {r : Result n}

/-! ### `fixS` and `fixX` -/

section Fix

variable {fx : Fix} {b : Nat} {w : Word}

theorem Inv.step_fixLookup (inv : Inv cfg s) (at_ : (s.fibers f).pc = .fixLookup fx)
    (undisturbed : Undisturbed cfg.table s.shared.table (.step f false))
    (stepped : lookup cfg s.shared f (s.fibers f) fx.pid (.fixPid fx) fx.missing = some r) :
    Inv cfg (s.after f r.shared r.fiber) := by
  obtain ⟨sh, pc', rfl, calm, going | ⟨idle, missed | ⟨b, found, mapped⟩⟩⟩ :=
    lookup_cases inv (inv.agree_at at_) undisturbed stepped
  · obtain ⟨rfl, d, still⟩ := going
    rw [at_]
    exact inv.move at_ calm ⟨rfl, rfl, rfl, rfl⟩ (inv.ok_at at_) (Or.inr ⟨d, still⟩) handed_none not_inEvict
  · rw [missed]
    exact inv.land at_ calm (lands_missing cfg _) idle ⟨rfl, rfl, rfl⟩
  · have byPid : fx.guard = none := inv.ok_at at_
    rw [found]
    refine inv.move at_ calm ⟨rfl, rfl, rfl, rfl⟩ ⟨?_, ?_⟩ idle ?_ not_inEvict
    · simp [Fix.Wf, byPid]
    · unfold Fix.Target
      split
      · exact ⟨inv.mapped _ _ mapped, Or.inl mapped⟩
      next form => simp [Fix.guard, form] at byPid
    · simp [Pc.guard, byPid]

/-- The word just loaded tells what the target, or the guard handed over, says. -/
theorem Inv.seen_loaded (inv : Inv cfg s) (at_ : (s.fibers f).pc = .fixLoad fx b)
    (same : fx.sameVersion (word s b) = true) : Seen cfg s fx.pid b (word s b) false := by
  obtain ⟨wf, target⟩ := inv.ok_at at_
  refine ⟨le_refl _, fun _ => ⟨?_, fun set => ⟨rfl, set⟩⟩⟩
  unfold Fix.Target at target
  split at target
  · exact target
  next g policy form =>
    have handed : fx.guard = some g := by simp [Fix.guard, form]
    have known := (inv.fibers f).guards g (inv.handed_at at_ g handed)
    have current : g.word.version = version s g.bid := by
      simp only [Fix.sameVersion, form, beq_iff_eq] at same
      rw [target]
      exact same.symm
    obtain ⟨pid, place⟩ := known.2 current
    rw [← target, ← wf g handed]
    exact ⟨pid, place.imp_left And.left⟩

/-- A frame seen unprotected is not locked under a word that was protected. -/
theorem Seen.check (seen : Seen cfg s fx.pid b w false) (clear : (word s b).evicting = false) :
    Seen cfg s fx.pid b w true := by
  refine ⟨seen.1, fun current => ⟨(seen.2 current).1, fun set => ?_⟩⟩
  have := ((seen.2 current).2 set).2
  rw [clear] at this
  cases this

theorem Inv.step_fixLock (inv : Inv cfg s) (at_ : (s.fibers f).pc = .fixLock fx b w)
    (stepped : fixLock s.shared (s.fibers f) fx b w = some r) :
    Inv cfg (s.after f r.shared r.fiber) := by
  have again : Inv cfg (s.after f s.shared { s.fibers f with pc := fx.conflict }) :=
    inv.land at_ inv.still (lands_conflict cfg (inv.ok_at at_).1) (inv.agree_at at_) ⟨rfl, rfl, rfl⟩
  unfold fixLock at stepped
  split at stepped
  · cases stepped
    exact again
  next w' lockable =>
    split at stepped <;> cases stepped
    next here => exact inv.lock at_ lockable here
    next => exact again

theorem Inv.step_fixPidLocked (inv : Inv cfg s) (at_ : (s.fibers f).pc = .fixPidLocked fx b)
    (stepped : fixPidLocked s.shared (s.fibers f) fx b = some r) :
    Inv cfg (s.after f r.shared r.fiber) := by
  have mapped : Mapped cfg s fx.pid b := inv.locks_at at_ (fx.lock b) (by simp [Pc.locks])
  have pid : (s.shared.frames b).pid = fx.pid := inv.mapped _ _ mapped
  have locks : (⟨.idle, fx.lock b :: (s.fibers f).held, fx.guardsLeft (s.fibers f).guards⟩ : Fiber).locks
      = (s.fibers f).locks := by
    simp [Fiber.locks, Pc.locks, at_]
  have sets : Pc.idle.setsUp = (s.fibers f).pc.setsUp := by rw [at_]; rfl
  simp only [fixPidLocked, pid, if_true] at stepped
  cases stepped
  have still := inv.still (f := f)
  have agree := inv.agree_at at_
  refine inv.quiet still.table still.pcs still.entries still.frames still.sections
    (fun c => ?_) (fun c => ?_) (fun c => ?_) ?_ trivial agree handed_none not_inEvict
    (fun g member => ?_) ?_
  · rw [at_]
    exact le_refl _
  · simp only [Fiber.exclusives, locks, sets]
  · simp only [Fiber.shareds, locks]
  · rw [at_]
    rfl
  · refine (inv.fibers f).guards g ?_
    dsimp only [Fix.guardsLeft] at member
    split at member
    · exact member
    · exact List.mem_of_mem_erase member
  · rw [locks]
    exact (inv.fibers f).locks

end Fix

/-! ### `fixO` -/

section Optimistic

variable {p b : Nat} {w : Word}

theorem Inv.step_optLookup (inv : Inv cfg s) (at_ : (s.fibers f).pc = .optLookup p)
    (undisturbed : Undisturbed cfg.table s.shared.table (.step f false))
    (stepped : lookup cfg s.shared f (s.fibers f) p (.optPid p) (.faultLookup p (.optimistic p)) =
      some r) : Inv cfg (s.after f r.shared r.fiber) := by
  obtain ⟨sh, pc', rfl, calm, going | ⟨idle, missed | ⟨b, found, mapped⟩⟩⟩ :=
    lookup_cases inv (inv.agree_at at_) undisturbed stepped
  · obtain ⟨rfl, d, still⟩ := going
    rw [at_]
    exact inv.move at_ calm ⟨rfl, rfl, rfl, rfl⟩ trivial (Or.inr ⟨d, still⟩) handed_none not_inEvict
  · rw [missed]
    exact inv.land at_ calm (lands_faultLookup _ _ _) idle ⟨rfl, rfl, rfl⟩
  · rw [found]
    exact inv.move at_ calm ⟨rfl, rfl, rfl, rfl⟩ ⟨inv.mapped _ _ mapped, Or.inl mapped⟩ idle
      handed_none not_inEvict

theorem Ref.captured (ref : Ref cfg s p b) (version : w.version = version s b) :
    GuardOk cfg s ⟨p, b, w, s.shared.sections p⟩ :=
  ⟨version.le, fun _ => ⟨ref.1, ref.2.imp_left fun mapped => ⟨mapped, rfl⟩⟩⟩

theorem Inv.step_optLoad (inv : Inv cfg s) (at_ : (s.fibers f).pc = .optLoad p b)
    (stepped : optLoad s.shared (s.fibers f) p b = some r) :
    Inv cfg (s.after f r.shared r.fiber) := by
  have ok := inv.ok_at at_
  have agree := inv.agree_at at_
  unfold optLoad at stepped
  dsimp only at stepped
  split at stepped
  · cases stepped
    exact inv.land at_ inv.still (lands_optLookup _ _) agree ⟨rfl, rfl, rfl⟩
  · split at stepped
    next mode =>
      cases stepped
      exact inv.move at_ inv.still ⟨rfl, rfl, rfl, rfl⟩ ⟨ok, mode⟩ agree handed_none not_inEvict
    next =>
      cases stepped
      exact inv.move at_ inv.still ⟨rfl, rfl, rfl, rfl⟩ (Ref.captured ok rfl) agree handed_none not_inEvict

theorem Inv.step_optMark (inv : Inv cfg s) (at_ : (s.fibers f).pc = .optMark p b w)
    (stepped : optMark s.shared (s.fibers f) p b w = some r) :
    Inv cfg (s.after f r.shared r.fiber) := by
  obtain ⟨known, mode⟩ := inv.ok_at at_
  have agree := inv.agree_at at_
  unfold optMark at stepped
  split at stepped
  next here =>
    have current : word s b = w := here
    have evicting : (word s b).evicting = true → (w.sameVersion marked).evicting = true := by
      rw [current]
      exact id
    cases stepped
    refine inv.touch (by rw [← current]; rfl) evicting (Or.inr ⟨?_, ?_⟩) (by rw [at_]; rfl)
      (by simp [Fiber.locks, Pc.locks, at_]) (by rw [at_]; rfl) (by rw [at_]; rfl) ?_
      agree handed_none not_inEvict fun g member => member
    · exact (free_iff _).mpr (Or.inr rfl)
    · rw [free_iff, current]
      exact Or.inl mode
    · have keep : Kept cfg s (s.after f (s.shared.setState b (w.sameVersion marked))
          { s.fibers f with pc := .optPidAgain ⟨p, b, w.sameVersion marked, s.shared.sections p⟩ }) b :=
        kept_setState (by rw [at_]; rfl) (fun _ => evicting) b
      exact Ref.captured (known.stable keep) (by rw [version_setState])
  next =>
    cases stepped
    exact inv.move at_ inv.still ⟨rfl, rfl, rfl, rfl⟩ known agree handed_none not_inEvict

theorem Inv.step_optPidAgain {g : Guard} (inv : Inv cfg s)
    (at_ : (s.fibers f).pc = .optPidAgain g)
    (stepped : optPidAgain s.shared (s.fibers f) g = some r) :
    Inv cfg (s.after f r.shared r.fiber) := by
  unfold optPidAgain at stepped
  split at stepped <;> cases stepped
  next =>
    have still := inv.still (f := f)
    have locks : (⟨.idle, (s.fibers f).held, g :: (s.fibers f).guards⟩ : Fiber).locks
        = (s.fibers f).locks := by
      simp [Fiber.locks, Pc.locks, at_]
    have sets : Pc.idle.setsUp = (s.fibers f).pc.setsUp := by rw [at_]; rfl
    have agree := inv.agree_at at_
    refine inv.quiet still.table still.pcs still.entries still.frames still.sections
      (fun c => ?_) (fun c => ?_) (fun c => ?_) ?_ trivial agree handed_none not_inEvict
      (fun g' member => ?_) ?_
    · rw [at_]
      exact le_refl _
    · simp only [Fiber.exclusives, locks, sets]
    · simp only [Fiber.shareds, locks]
    · rw [at_]
      rfl
    · rcases List.mem_cons.mp member with rfl | old
      · exact inv.ok_at at_
      · exact (inv.fibers f).guards g' old
    · rw [locks]
      exact (inv.fibers f).locks
  next => exact inv.land at_ inv.still (lands_optLookup _ _) (inv.agree_at at_) ⟨rfl, rfl, rfl⟩

end Optimistic

/-! ### `unfixS` and `unfixX` -/

section Unfix

variable {lock : Held} {w : Word}

theorem Inv.step_unfixSCas (inv : Inv cfg s) (at_ : (s.fibers f).pc = .unfixSCas lock w)
    (stepped : unfixSCas s.shared (s.fibers f) lock w = some r) :
    Inv cfg (s.after f r.shared r.fiber) := by
  have ok := inv.ok_at at_
  have agree := inv.agree_at at_
  unfold unfixSCas at stepped
  split at stepped <;> cases stepped
  next here => exact inv.unlockS at_ here
  next => exact inv.move at_ inv.still ⟨rfl, rfl, rfl, rfl⟩ ok agree handed_none not_inEvict

theorem Inv.flag {pc pc' : Pc} {b : Nat} {w : Word} (inv : Inv cfg s)
    (at_ : (s.fibers f).pc = pc) (like : pc.Like cfg pc')
    (sameVersion : w.version = version s b) (mode : w.mode = (word s b).mode)
    (evicting : (word s b).evicting = true → w.evicting = true)
    (ok : PcOk cfg (s.after f (s.shared.setState b w) { s.fibers f with pc := pc' }) pc')
    (agree : Agree pc' (s.shared.table.pcs f)) (handed : pc'.guard = none)
    (alone : pc'.inEvict = true → pc.inEvict = true) :
    Inv cfg (s.after f (s.shared.setState b w) { s.fibers f with pc := pc' }) := by
  refine inv.touch sameVersion evicting (Or.inl mode) ?_ ?_ ?_ ?_ ok agree ?_ (fun evicts => ?_)
    fun g member => member
  · rw [at_]
    exact like.owned
  · simp only [Fiber.locks, like.locks, at_]
  · rw [at_]
    exact like.setsUp
  · rw [at_]
    exact like.committed
  · rw [handed]
    exact handed_none
  · exact inv.alone_at at_ (alone evicts)

theorem Inv.step_unfixXStore (inv : Inv cfg s) (at_ : (s.fibers f).pc = .unfixXStore lock w)
    (stepped : unfixXStore s.shared (s.fibers f) lock w = some r) :
    Inv cfg (s.after f r.shared r.fiber) := by
  obtain ⟨kind, loaded⟩ := inv.ok_at at_
  have agree := inv.agree_at at_
  unfold unfixXStore at stepped
  cases stepped
  refine inv.storeX lock (w := w) (by simp [Fiber.locks, Pc.locks, at_]) kind loaded rfl ?_
    (fun c ne => ?_) (fun _ => rfl) (fun p ne => ?_) (by rw [at_]; rfl) (by rw [at_]; rfl)
    (by rw [at_]; rfl) trivial agree rfl rfl rfl
  · simp
  · simp [setState_frames_ne _ _ _ ne]
  · simp [ne]

end Unfix

/-! ### `allocPage` and `handleFault` -/

section Fault

variable {setup : Setup} {caller : Caller} {p b : Nat} {w : Word}

theorem Inv.calm_accum (inv : Inv cfg s) (d : Int) :
    Calm cfg s f (accumPhysUsed cfg s.shared f d) := by
  refine inv.calm ?_ (fun c => ?_) ?_ (freeCount_accum d)
  all_goals
    unfold accumPhysUsed
    dsimp only
    split
    · first | exact rfl | exact ⟨rfl, rfl⟩
    · first | exact rfl | exact ⟨rfl, rfl⟩

theorem accumPhysUsed_table (sh : Shared n) (d : Int) :
    (accumPhysUsed cfg sh f d).table = sh.table := by
  unfold accumPhysUsed
  dsimp only
  split <;> rfl

theorem accumPhysUsed_frames (sh : Shared n) (d : Int) :
    (accumPhysUsed cfg sh f d).frames = sh.frames := by
  unfold accumPhysUsed
  dsimp only
  split <;> rfl

theorem Inv.calm_loaded (inv : Inv cfg s) (b : Nat) : Calm cfg s f (s.shared.loaded b) := by
  refine inv.calm rfl (fun c => ?_) rfl fun _ => rfl
  by_cases here : c = b
  · subst here
    simp [Shared.loaded]
  · simp [Shared.loaded, setFrame_ne _ _ _ here]

theorem Inv.calm_refill (inv : Inv cfg s) (step : Nat) :
    Calm cfg s f (refillFromPool cfg s.shared f step) :=
  inv.calm rfl (fun _ => ⟨rfl, rfl⟩) rfl (freeCount_refill step)

theorem Inv.step_refill {need : Need} {why : Refill} {step : Nat} (inv : Inv cfg s)
    (at_ : (s.fibers f).pc = .refill need why step)
    (stepped : refill cfg s.shared f (s.fibers f) need why step = some r) :
    Inv cfg (s.after f r.shared r.fiber) := by
  have agree := inv.agree_at at_
  unfold refill at stepped
  dsimp only at stepped
  split at stepped
  · cases stepped
    exact inv.move at_ (inv.calm_refill step) ⟨rfl, rfl, rfl, rfl⟩ trivial agree handed_none not_inEvict
  · obtain ⟨pc', next, go⟩ := Option.bind_eq_some_iff.mp stepped
    cases go
    exact inv.land at_ (inv.calm_refill step) (lands_afterRefill next) agree ⟨rfl, rfl, rfl⟩

/-- The lookups of `handleFault` find the frame to wait for, or go on at `missing`. -/
theorem Inv.step_faultLookup {pc missing : Pc} (inv : Inv cfg s) (at_ : (s.fibers f).pc = pc)
    (running : (s.shared.table.pcs f).canCall = true ∨ ∃ d, s.shared.table.pcs f = .find p d)
    (agrees : ∀ d, Agree pc (.find p d)) (lands : missing.Lands cfg [] false none)
    (plain : pc.Lands cfg [] false none)
    (undisturbed : Undisturbed cfg.table s.shared.table (.step f false))
    (stepped : lookup cfg s.shared f (s.fibers f) p (fun b => .faultIo b caller) missing = some r) :
    Inv cfg (s.after f r.shared r.fiber) := by
  have noGuard : pc.guard = none := Option.eq_none_iff_forall_not_mem.mpr fun g member =>
    (by cases plain.guard g member)
  have lands' : missing.Lands cfg (pc.owned cfg) pc.inEvict pc.guard := by
    rw [plain.owned, plain.inEvict, noGuard]
    exact lands
  obtain ⟨sh, pc', rfl, calm, going | ⟨idle, missed | ⟨b, found, mapped⟩⟩⟩ :=
    lookup_cases inv running undisturbed stepped
  · obtain ⟨rfl, d, still⟩ := going
    rw [at_]
    refine inv.move at_ calm ⟨rfl, rfl, rfl, rfl⟩ (inv.ok_at at_) ?_ (fun _ member => member) id
    rw [still]
    exact agrees d
  · rw [missed]
    exact inv.land at_ calm lands' idle ⟨plain.locks, plain.setsUp, plain.committed⟩
  · rw [found]
    exact inv.move at_ calm
      ⟨plain.owned.symm, plain.locks.symm, plain.setsUp.symm, plain.committed.symm⟩ trivial idle
      handed_none not_inEvict

theorem Inv.step_rebindStore (inv : Inv cfg s) (at_ : (s.fibers f).pc = .rebindStore setup b w) :
    Inv cfg (s.after f (s.shared.setState b (w.nextVersionNoFlags locked))
      { s.fibers f with pc := .setFlag setup b }) := by
  have loaded : w.version = version s b := inv.ok_at at_
  have agree := inv.agree_at at_
  refine inv.rebind (by simp [at_, Pc.owned]) (by simp [at_, Pc.committed]) ?_ (by rw [at_]; rfl)
    (by simp [Fiber.locks, Pc.locks, at_]) (by rw [at_]; rfl) (Or.inl ⟨rfl, rfl⟩)
    (fun c ne => ?_) trivial agree rfl rfl rfl
  · rw [← loaded]
    exact Nat.lt_succ_self _
  · simp [at_, Pc.setsUp, Ne.symm ne]

theorem Inv.step_loseStore (inv : Inv cfg s) (at_ : (s.fibers f).pc = .loseStore p b caller w) :
    Inv cfg (s.after f (s.shared.setState b (w.nextVersionNoFlags PageState.unlocked))
      { s.fibers f with pc := .loseAccum p b caller }) := by
  have loaded : w.version = version s b := inv.ok_at at_
  have agree := inv.agree_at at_
  refine inv.rebind (by simp [at_, Pc.owned]) (by simp [at_, Pc.committed]) ?_ (by rw [at_]; rfl)
    (by simp [Fiber.locks, Pc.locks, at_]) (by rw [at_]; rfl)
    (Or.inr ⟨rfl, (fun same => by cases same)⟩) (fun c ne => ?_) trivial agree rfl rfl rfl
  · rw [← loaded]
    exact Nat.lt_succ_self _
  · simp [at_, Pc.setsUp, Ne.symm ne]

theorem Inv.step_setFlag (inv : Inv cfg s) (at_ : (s.fibers f).pc = .setFlag setup b)
    (stepped : setFlag s.shared (s.fibers f) setup b = some r) :
    Inv cfg (s.after f r.shared r.fiber) := by
  have agree := inv.agree_at at_
  cases setup <;> cases stepped <;>
    exact inv.flag at_ ⟨rfl, rfl, rfl, rfl⟩ rfl rfl id trivial agree rfl not_inEvict

theorem Inv.step_setFrame (inv : Inv cfg s) (at_ : (s.fibers f).pc = .setFrame setup b) :
    Inv cfg (s.after f (s.shared.setPid b setup.pid)
      { s.fibers f with pc := .insert setup b }) := by
  have agree := inv.agree_at at_
  refine inv.setPid (by simp [at_, Pc.owned]) (by simp [at_, Pc.committed]) (by rw [at_]; rfl)
    (by simp [Fiber.locks, Pc.locks, at_]) (by rw [at_]; rfl) (by rw [at_]; rfl) ?_
    (Or.inl agree) rfl rfl rfl
  simp [PcOk, Shared.setPid]

/-- The frame is mapped when the insert succeeds, stays in hand when it loses the race. -/
theorem Inv.step_insert (inv : Inv cfg s) (at_ : (s.fibers f).pc = .insert setup b)
    (undisturbed : Undisturbed cfg.table s.shared.table (.step f false))
    (stepped : insert cfg s.shared f (s.fibers f) setup b = some r) :
    Inv cfg (s.after f r.shared r.fiber) := by
  have pid : (s.shared.frames b).pid = setup.pid := inv.ok_at at_
  have running : (s.shared.table.pcs f).canCall = true ∨ (s.shared.table.pcs f).inserts setup.pid b :=
    inv.agree_at at_
  unfold insert at stepped
  cases tried : tableStep cfg s.shared f (.insert setup.pid b) false with
  | none => simp [tried] at stepped
  | some next =>
    obtain ⟨sh, out⟩ := next
    have table := tableStep_inv inv.table undisturbed tried
    have calm : s.shared.table.slots = sh.table.slots → Calm cfg s f sh := fun same =>
      tableStep_calm inv undisturbed tried (same ▸ SameEntries.refl _)
    have stays : s.shared.table.slots = sh.table.slots → (sh.table.pcs f).inserts setup.pid b →
        Inv cfg (s.after f sh { s.fibers f with pc := (s.fibers f).pc }) := by
      intro same still
      rw [at_]
      exact inv.move at_ (calm same) ⟨rfl, rfl, rfl, rfl⟩ pid (Or.inr still) handed_none not_inEvict
    simp only [tried] at stepped
    rcases tableStep_cases tried with ⟨-, rfl, start, begins, rfl⟩ | ⟨busy, step, steps, rfl, rfl⟩
    · cases stepped
      refine stays rfl ?_
      simp only [Call.start, Option.map_eq_some_iff] at begins
      obtain ⟨-, -, rfl⟩ := begins
      simp [PageTable.State.setPc, PageTable.Pc.inserts]
    · have at_table := running.resolve_left (by simp [busy])
      rcases insert_step inv.table.reach (inv.table.pcs f) at_table steps with
        ⟨slots, out, still⟩ | ⟨slots, out, idle⟩ | ⟨i, can, slots, out, idle⟩
      · simp only [out] at stepped
        cases stepped
        exact stays slots.symm (by simpa using still)
      · simp only [out] at stepped
        cases setup with
        | alloc q => cases stepped
        | fault q caller =>
          cases stepped
          have agree : (Function.update s.shared.table.pcs f step.pc f).canCall = true := by
            simpa using idle
          exact inv.move at_ (calm slots.symm) ⟨rfl, rfl, rfl, rfl⟩ trivial agree handed_none not_inEvict
      · simp only [out] at stepped
        -- the frame leaves the fiber's hands and is mapped, still locked exclusively
        have mapped : ∀ pc' : Pc, pc'.locks = [⟨.exclusive, setup.pid, b⟩] → pc'.owned cfg = [] →
            pc'.setsUp = none → pc'.committed = none → (∀ t, PcOk cfg t pc') →
            (∀ t : PageTable.Pc, t.canCall = true → Agree pc' t) → pc'.guard = none →
            pc'.inEvict = false → Inv cfg (s.after f { s.shared with
              table := ⟨step.slots, Function.update s.shared.table.pcs f step.pc⟩ }
              { s.fibers f with pc := pc' }) := by
          intro pc' locks owned sets committed ok agree guard alone
          exact inv.inserted table (fun u ne => by simp [ne]) can slots rfl rfl (fun _ => rfl) pid
            (by rw [at_]; rfl) (by rw [at_]; rfl) (by rw [at_]; rfl)
            (by simp only [Fiber.locks, at_, locks]; rfl) owned sets committed ok
            (agree _ (by simpa using idle)) guard alone rfl
        cases setup with
        | alloc q =>
          cases stepped
          exact mapped _ rfl rfl rfl rfl (fun _ => trivial) (fun _ free => free) rfl rfl
        | fault q caller =>
          cases stepped
          exact mapped _ rfl rfl rfl rfl (fun _ => trivial) (fun _ free => free) rfl rfl

theorem Inv.step_memset (inv : Inv cfg s) (at_ : (s.fibers f).pc = .memset p b)
    (stepped : memset s.shared (s.fibers f) p b = some r) : Inv cfg (s.after f r.shared r.fiber) := by
  have agree := inv.agree_at at_
  have locks : (⟨.idle, ⟨.exclusive, p, b⟩ :: (s.fibers f).held, (s.fibers f).guards⟩ : Fiber).locks
      = (s.fibers f).locks := by
    simp [Fiber.locks, Pc.locks, at_]
  have sets : Pc.idle.setsUp = (s.fibers f).pc.setsUp := by rw [at_]; rfl
  cases stepped
  refine inv.quiet inv.table (fun _ _ => rfl) (SameEntries.refl _)
    (fun c => ?_) rfl (fun c => ?_) (fun c => ?_) (fun c => ?_) ?_ trivial agree handed_none not_inEvict
    (inv.fibers f).guards ?_
  · by_cases here : c = b
    · subst here
      simp [Shared.modify]
    · simp [Shared.modify, setFrame_ne _ _ _ here]
  · rw [at_]
    exact le_refl _
  · simp only [Fiber.exclusives, locks, sets]
  · simp only [Fiber.shareds, locks]
  · rw [at_]
    rfl
  · rw [locks]
    exact (inv.fibers f).locks

theorem Inv.step_readStore (inv : Inv cfg s) (at_ : (s.fibers f).pc = .readStore p b caller w) :
    Inv cfg (s.after f (s.shared.setState b (w.nextVersion marked))
      { s.fibers f with pc := caller.resume }) := by
  have loaded : w.version = version s b := inv.ok_at at_
  have agree := inv.agree_at at_
  have lands := lands_resume cfg none caller
  refine inv.storeX ⟨.exclusive, p, b⟩ (w := w) ?_ rfl loaded rfl (by simp)
    (fun c ne => setState_frames_ne _ _ _ ne) (fun _ => rfl) (fun _ _ => rfl) ?_ ?_ ?_ (lands.ok _)
    (lands.agree _ agree) ?_ lands.inEvict rfl
  · simp only [Fiber.locks, at_, lands.locks]
    rfl
  · rw [lands.setsUp, at_]
    rfl
  · rw [lands.owned, at_]
    rfl
  · rw [lands.committed, at_]
    rfl
  · exact Option.eq_none_iff_forall_not_mem.mpr fun g member => (by cases lands.guard g member)

end Fault

end UringDb.BufferMgr
