import UringDb.BufferMgr.Claims
import UringDb.BufferMgr.Current

/-!
# Eviction drops no unwritten data

A frame counts the modifications of its content and how many of them the stored copy is
known to contain. A mapped frame that is neither dirty nor locked exclusively is covered: the
stored copy has everything, or the evictor whose candidate it is still has to issue its write
or has a write in flight that was issued after the last modification. An evictor that erases
a frame has no such write left, so the stored copy is complete.

Two evictors whose partitions overlap while workers start break this: the second one finds
the frame clean because the first one has cleared the DirtyBit, and erases it before the
first one's write.
-/
namespace UringDb.BufferMgr

open PageState PageTable

variable {n : Nat}

section

variable (cfg : Config n) (s : State n)

def Covered (b : Nat) : Prop :=
  (s.shared.frames b).saved = (s.shared.frames b).mods ∨
  ∃ u, b ∈ (jobOf cfg s u).unissued ∨ ∃ wr ∈ (jobOf cfg s u).pending,
    wr.bid = b ∧ wr.pid = (s.shared.frames b).pid ∧ wr.stamp = (s.shared.frames b).mods

structure Written : Prop where
  bounded : ∀ b, (s.shared.frames b).saved ≤ (s.shared.frames b).mods
  stamps : ∀ u, ∀ wr ∈ (jobOf cfg s u).pending, wr.stamp ≤ (s.shared.frames wr.bid).mods
  covered : ∀ p b, Mapped cfg s p b → (word s b).mode ≠ locked → (word s b).dirty = false →
    Covered cfg s b
  ready : ∀ u, Ready s.shared.frames (s.fibers u).pc

end

variable {cfg : Config n} {s : State n} {f : Fin n} {r : Result n}

/-! ### Who can touch a frame that is held exclusively -/

theorem Inv.mode_exclusive (inv : Inv cfg s) {u : Fin n} {b : Nat}
    (holds : 0 < (s.fibers u).exclusives b) : (word s b).mode = locked := by
  have total := holds.trans_le (le_sum (fun u => (s.fibers u).exclusives b) u)
  have old := inv.locks b
  unfold LockOk exclusives at old
  omega

theorem Inv.mode_shared (inv : Inv cfg s) {u : Fin n} {lock : Held}
    (member : lock ∈ (s.fibers u).locks) (kind : lock.kind = .shared) :
    (word s lock.bid).mode ≤ maxShared := by
  have total := (shared_of_lock member kind).trans_le
    (le_sum (fun u => (s.fibers u).shareds lock.bid) u)
  have old := inv.locks lock.bid
  unfold LockOk shareds at old
  omega

theorem ne_locked_of_le {mode : Nat} (shared : mode ≤ maxShared) : mode ≠ locked := by
  simp only [maxShared, locked] at *
  omega

theorem ne_locked_of_free {w : Word} (free : w.free = true) : w.mode ≠ locked := by
  rcases (free_iff w).mp free with mode | mode <;> rw [mode] <;> decide

theorem Inv.mode_setsUp (inv : Inv cfg s) {b : Nat} (sets : (s.fibers f).pc.setsUp = some b) :
    (word s b).mode = locked := by
  refine inv.mode_exclusive (u := f) ?_
  simp [Fiber.exclusives, sets]

theorem Inv.ready_stable (inv : Inv cfg s) {frames : Nat → Frame} (u : Fin n)
    (same : ∀ lock ∈ (s.fibers u).locks, lock.kind = .exclusive →
      (frames lock.bid).state.dirty = (s.shared.frames lock.bid).state.dirty ∧
      ((s.shared.frames lock.bid).saved = (s.shared.frames lock.bid).mods →
        (frames lock.bid).saved = (frames lock.bid).mods))
    (ready : Ready s.shared.frames (s.fibers u).pc) : Ready frames (s.fibers u).pc := by
  have held : ∀ lock ∈ (s.fibers u).pc.locks, lock ∈ (s.fibers u).locks := fun lock member =>
    List.mem_append_left _ member
  cases at_ : (s.fibers u).pc with
  | unfixXLoad lock =>
    have kind := inv.ok_at at_
    rw [at_] at ready held
    exact (same lock (held lock (by simp [Pc.locks])) kind).1.trans ready
  | unfixXStore lock w =>
    rw [at_] at ready
    exact ready
  | readIo p b caller | readLoad p b caller | readStore p b caller w =>
    rw [at_] at ready held
    exact (same ⟨.exclusive, p, b⟩ (held _ (by simp [Pc.locks])) rfl).2 ready
  | _ => trivial

/-! ### Steps -/

theorem Covered.after {b : Nat} (covered : Covered cfg s b)
    (pid : (r.shared.frames b).pid = (s.shared.frames b).pid)
    (mods : (r.shared.frames b).mods = (s.shared.frames b).mods)
    (saved : (r.shared.frames b).saved = (s.shared.frames b).saved)
    (unissued : b ∈ (jobOf cfg s f).unissued → b ∈ (r.fiber.pc.job cfg).unissued)
    (pending : ∀ wr ∈ (jobOf cfg s f).pending, wr.bid = b → wr ∈ (r.fiber.pc.job cfg).pending) :
    Covered cfg (s.after f r.shared r.fiber) b := by
  unfold Covered
  rw [after_shared, pid, mods, saved]
  refine covered.imp_right fun ⟨u, waits⟩ => ⟨u, ?_⟩
  by_cases self : u = f
  · subst self
    rw [jobOf_self]
    refine waits.imp unissued ?_
    rintro ⟨wr, member, here, rest⟩
    exact ⟨wr, pending wr member here, here, rest⟩
  · rw [jobOf_ne _ _ self]
    exact waits

theorem Written.next {c : Nat} {new : Frame} (inv : Inv cfg s) (written : Written cfg s)
    (entries : ∀ p b, Mapped cfg (s.after f r.shared r.fiber) p b → Mapped cfg s p b ∨
      ((s.fibers f).pc.setsUp = some b ∧ r.shared.frames = s.shared.frames))
    (frames : r.shared.frames = (s.shared.setFrame c new).frames)
    (counts : new.saved ≤ new.mods ∧ (s.shared.frames c).mods ≤ new.mods)
    (unissued : ∀ a ∈ (jobOf cfg s f).unissued, a ∈ (r.fiber.pc.job cfg).unissued ∨ a = c)
    (pending : ∀ wr ∈ (jobOf cfg s f).pending, wr ∈ (r.fiber.pc.job cfg).pending ∨ wr.bid = c)
    (stamps : ∀ wr ∈ (r.fiber.pc.job cfg).pending,
      wr ∈ (jobOf cfg s f).pending ∨ (wr.bid = c ∧ wr.stamp ≤ new.mods))
    (covered : ∀ p, Mapped cfg s p c → new.state.mode ≠ locked → new.state.dirty = false →
      Covered cfg (s.after f r.shared r.fiber) c)
    (others : ∀ u, u ≠ f → ∀ lock ∈ (s.fibers u).locks, lock.kind = .exclusive → lock.bid = c →
      new.state.dirty = (word s c).dirty ∧
      ((s.shared.frames c).saved = (s.shared.frames c).mods → new.saved = new.mods))
    (ready : Ready r.shared.frames r.fiber.pc) : Written cfg (s.after f r.shared r.fiber) := by
  have here : r.shared.frames c = new := by rw [frames, setFrame_self]
  have elsewhere : ∀ b, b ≠ c → r.shared.frames b = s.shared.frames b := fun b ne => by
    rw [frames, setFrame_ne _ _ _ ne]
  have grow : ∀ b, (s.shared.frames b).mods ≤ (r.shared.frames b).mods := by
    intro b
    by_cases this : b = c
    · rw [this, here]
      exact counts.2
    · rw [elsewhere b this]
  refine ⟨fun b => ?_, fun u wr member => ?_, fun p b mapped mode clean => ?_, fun u => ?_⟩
  · rw [after_shared]
    by_cases this : b = c
    · rw [this, here]
      exact counts.1
    · rw [elsewhere b this]
      exact written.bounded b
  · rw [after_shared]
    by_cases self : u = f
    · subst self
      rw [jobOf_self] at member
      rcases stamps wr member with old | ⟨this, stamp⟩
      · exact (written.stamps u wr old).trans (grow _)
      · rw [this, here]
        exact stamp
    · rw [jobOf_ne _ _ self] at member
      exact (written.stamps u wr member).trans (grow _)
  · rw [word, after_shared] at mode clean
    rcases entries p b mapped with old | ⟨sets, same⟩
    · by_cases this : b = c
      · subst this
        rw [here] at mode clean
        exact covered p old mode clean
      · rw [elsewhere b this] at mode clean
        refine (written.covered p b old mode clean).after ?_ ?_ ?_ ?_ ?_
        · rw [elsewhere b this]
        · rw [elsewhere b this]
        · rw [elsewhere b this]
        · exact fun member => (unissued b member).resolve_right this
        · exact fun wr member at_ => (pending wr member).resolve_right (at_ ▸ this)
    · -- a new entry is for a frame that stays locked until it is set up
      rw [same] at mode
      exact absurd (inv.mode_setsUp sets) mode
  · by_cases self : u = f
    · subst self
      rw [after_self]
      exact ready
    · rw [after_ne _ _ _ _ self]
      refine inv.ready_stable u (fun lock member kind => ?_) (written.ready u)
      rw [after_shared]
      by_cases this : lock.bid = c
      · rw [this, here]
        exact others u self lock member kind this
      · rw [elsewhere _ this]
        exact ⟨rfl, id⟩

theorem Grows.entries (grows : Grows s f r.shared) {fib : Fiber} (p b : Nat)
    (mapped : Mapped cfg (s.after f r.shared fib) p b) : Mapped cfg s p b ∨
      ((s.fibers f).pc.setsUp = some b ∧ r.shared.frames = s.shared.frames) := by
  obtain ⟨i, inRange, entry⟩ := mapped
  exact (grows.fresh i p b entry).imp_left fun old => ⟨i, inRange, old⟩

theorem setFrame_same (sh : Shared n) (b : Nat) : (sh.setFrame b (sh.frames b)).frames = sh.frames := by
  simp [Shared.setFrame]

/-- The acting fiber has the same writes to issue and to await. -/
def SameWrites (cfg : Config n) (s : State n) (f : Fin n) (pc : Pc) : Prop :=
  (pc.job cfg).unissued = (jobOf cfg s f).unissued ∧ (pc.job cfg).pending = (jobOf cfg s f).pending

theorem Written.touch {c : Nat} {w : Word} (inv : Inv cfg s) (written : Written cfg s)
    (entries : ∀ p b, Mapped cfg (s.after f r.shared r.fiber) p b → Mapped cfg s p b ∨
      ((s.fibers f).pc.setsUp = some b ∧ r.shared.frames = s.shared.frames))
    (frames : r.shared.frames = (s.shared.setState c w).frames)
    (writes : SameWrites cfg s f r.fiber.pc)
    (stays : w.mode ≠ locked → w.dirty = false →
      (word s c).mode ≠ locked ∧ (word s c).dirty = false)
    (others : ∀ u, u ≠ f → ∀ lock ∈ (s.fibers u).locks, lock.kind = .exclusive → lock.bid = c →
      w.dirty = (word s c).dirty)
    (ready : Ready r.shared.frames r.fiber.pc) : Written cfg (s.after f r.shared r.fiber) := by
  obtain ⟨unissued, pending⟩ := writes
  refine written.next inv entries frames ⟨written.bounded c, le_refl _⟩ ?_ ?_ ?_
    (fun p mapped mode clean => ?_) (fun u ne lock member kind here => ?_) ready
  · rw [unissued]
    exact fun _ => Or.inl
  · rw [pending]
    exact fun _ => Or.inl
  · rw [pending]
    exact fun _ => Or.inl
  · obtain ⟨mode', clean'⟩ := stays mode clean
    have here : r.shared.frames c = { s.shared.frames c with state := w } := by
      rw [frames, setState_frames_self]
    refine (written.covered p c mapped mode' clean').after ?_ ?_ ?_ ?_ ?_
    · rw [here]
    · rw [here]
    · rw [here]
    · rw [unissued]
      exact id
    · rw [pending]
      exact fun _ member _ => member
  · exact ⟨others u ne lock member kind here, id⟩

theorem Written.still (inv : Inv cfg s) (written : Written cfg s)
    (entries : ∀ p b, Mapped cfg (s.after f r.shared r.fiber) p b → Mapped cfg s p b ∨
      ((s.fibers f).pc.setsUp = some b ∧ r.shared.frames = s.shared.frames))
    (frames : r.shared.frames = s.shared.frames) (writes : SameWrites cfg s f r.fiber.pc)
    (ready : Ready s.shared.frames r.fiber.pc) : Written cfg (s.after f r.shared r.fiber) :=
  written.touch inv (c := 0) (w := word s 0) entries
    (by rw [frames]; exact (setFrame_same s.shared 0).symm) writes (fun mode clean => ⟨mode, clean⟩)
    (fun _ _ _ _ _ _ => rfl) (by rw [frames]; exact ready)

theorem sameWrites_of (job job' : Job) {pc : Pc} (before : (s.fibers f).pc.job cfg = job)
    (now : pc.job cfg = job') (unissued : job'.unissued = job.unissued)
    (pending : job'.pending = job.pending) : SameWrites cfg s f pc := by
  unfold SameWrites jobOf
  rw [before, now]
  exact ⟨unissued, pending⟩

theorem sameWrites_client {pc : Pc} (client : (s.fibers f).pc.inEvict = false)
    (client' : pc.inEvict = false) : SameWrites cfg s f pc :=
  sameWrites_of _ _ (job_client client) (job_client client') rfl rfl

/-- The end of an exclusive section: what the holder does keeps its frame covered. -/
theorem Written.holder {lock : Held} {new : Frame} (inv : Inv cfg s) (written : Written cfg s)
    (grows : Grows s f r.shared) (member : lock ∈ (s.fibers f).locks) (kind : lock.kind = .exclusive)
    (does : Section (s.fibers f).pc r.fiber.pc lock.bid (s.shared.frames lock.bid) new)
    (frames : r.shared.frames = (s.shared.setFrame lock.bid new).frames)
    (client : (s.fibers f).pc.inEvict = false ∧ r.fiber.pc.inEvict = false) :
    Written cfg (s.after f r.shared r.fiber) := by
  have mine := exclusive_of_lock member kind
  have mode := inv.mode_exclusive mine
  have ready := written.ready f
  have here : r.shared.frames lock.bid = new := by rw [frames, setFrame_self]
  obtain ⟨unissued, pending⟩ : SameWrites cfg s f r.fiber.pc := sameWrites_client client.1 client.2
  have bounded := written.bounded lock.bid
  have done : new.saved = new.mods → Covered cfg (s.after f r.shared r.fiber) lock.bid := by
    intro saved
    left
    rw [after_shared, here]
    exact saved
  have counts : new.saved ≤ new.mods ∧ (s.shared.frames lock.bid).mods ≤ new.mods ∧
      (new.state.mode ≠ locked → new.state.dirty = false → new.saved = new.mods) ∧
      Ready r.shared.frames r.fiber.pc := by
    cases does with
    | modify held =>
      rw [held]
      exact ⟨by dsimp only; omega, by dsimp only; omega, fun free => absurd mode free, trivial⟩
    | setDirty lock' at_bid at_ next =>
      rw [next]
      refine ⟨bounded, le_refl _, (fun _ member => by cases member), ?_⟩
      simp only [Ready, at_bid, here]
    | unlock lock' w at_bid at_ next =>
      rw [at_] at ready
      rw [next]
      refine ⟨bounded, le_refl _, fun _ clean => ?_, trivial⟩
      exact absurd (ready.symm.trans clean) (by decide)
    | load p caller at_ next =>
      rw [next]
      refine ⟨le_refl _, le_refl _, fun _ _ => rfl, ?_⟩
      simp only [Ready, here]
    | clearIo p caller at_ next =>
      rw [at_] at ready
      rw [next]
      refine ⟨bounded, le_refl _, fun _ _ => ready, ?_⟩
      simp only [Ready, here]
      exact ready
    | publish p caller w at_ next =>
      rw [at_] at ready
      rw [next]
      exact ⟨bounded, le_refl _, fun _ _ => ready, ready_of_unlocked (by cases caller <;> rfl)⟩
  refine written.next inv grows.entries frames ⟨counts.1, counts.2.1⟩ ?_ ?_ ?_
    (fun p mapped mode' clean => done (counts.2.2.1 mode' clean))
    (fun u ne lock' member' kind' at_ => ?_) counts.2.2.2
  · rw [unissued]
    exact fun _ => Or.inl
  · rw [pending]
    exact fun _ => Or.inl
  · rw [pending]
    exact fun _ => Or.inl
  · have theirs := exclusive_of_lock member' kind'
    rw [at_] at theirs
    exact absurd (inv.exclusive_unique theirs mine) ne

theorem lockWord_unlocked {fx : Fix} {w w' : Word} (lockable : fx.lockWord w = some w') :
    w.mode ≠ locked := by
  rcases (lockWord_spec lockable).2.2 with ⟨-, ⟨less, -⟩ | ⟨isMarked, -⟩⟩ | ⟨-, free, -⟩
  · exact ne_locked_of_le (Nat.le_of_lt less)
  · rw [isMarked]
    decide
  · exact ne_locked_of_free free

theorem lockWord_dirty {fx : Fix} {w w' : Word} (lockable : fx.lockWord w = some w')
    (mode : w'.mode ≠ locked) : w'.dirty = w.dirty := by
  unfold Fix.lockWord at lockable
  split at lockable
  · unfold Word.lockS at lockable
    split at lockable
    · cases lockable
      rfl
    · split at lockable
      · cases lockable
        rfl
      · cases lockable
  · unfold Word.lockXDirty at lockable
    split at lockable <;> cases lockable
    exact absurd rfl mode

/-- The write of a frame is submitted: it will store what the frame has now. -/
theorem Written.issue {ev : Eviction} {c : Nat} {rest : List Nat} {pending : List Write}
    (inv : Inv cfg s) (written : Written cfg s) (grows : Grows s f r.shared)
    (job : (s.fibers f).pc.job cfg = ev.writing (c :: rest) pending)
    (frames : r.shared.frames = s.shared.frames)
    (job' : r.fiber.pc.job cfg = ev.writing rest
      (pending ++ [⟨c, (s.shared.frames c).pid, (s.shared.frames c).mods⟩]))
    (ready : Ready s.shared.frames r.fiber.pc) : Written cfg (s.after f r.shared r.fiber) := by
  have before : jobOf cfg s f = ev.writing (c :: rest) pending := job
  refine written.next inv (c := c) grows.entries (by rw [frames]; exact (setFrame_same s.shared c).symm)
    ⟨written.bounded c, le_refl _⟩ (fun a member => ?_) (fun wr member => Or.inl ?_)
    (fun wr member => ?_) (fun p _ _ _ => Or.inr ⟨f, Or.inr ?_⟩)
    (fun _ _ _ _ _ _ => ⟨rfl, id⟩) (by rw [frames]; exact ready)
  · rw [before] at member
    rw [job']
    exact (List.mem_cons.mp member).symm
  · rw [before] at member
    rw [job']
    exact List.mem_append_left _ member
  · rw [job'] at member
    rw [before]
    rcases List.mem_append.mp member with old | new
    · exact Or.inl old
    · obtain rfl := List.mem_singleton.mp new
      exact Or.inr ⟨rfl, le_refl _⟩
  · rw [jobOf_self, job', after_shared, frames]
    exact ⟨_, List.mem_append_right _ List.mem_cons_self, rfl, rfl, rfl⟩

theorem Written.complete {ev : Eviction} {pending : List Write} {k : Nat} {wr : Write}
    (inv : Inv cfg s) (written : Written cfg s) (grows : Grows s f r.shared)
    (job : (s.fibers f).pc.job cfg = ev.writing [] pending) (here : pending[k]? = some wr)
    (frames : r.shared.frames = (s.shared.stored wr).frames)
    (job' : r.fiber.pc.job cfg = ev.writing [] (pending.eraseIdx k))
    (ready : Ready (s.shared.stored wr).frames r.fiber.pc) :
    Written cfg (s.after f r.shared r.fiber) := by
  have before : jobOf cfg s f = ev.writing [] pending := job
  have member : wr ∈ (jobOf cfg s f).pending := by
    rw [before]
    exact List.mem_of_getElem? here
  have stamp := written.stamps f wr member
  have bounded := written.bounded wr.bid
  let new : Frame := if (s.shared.frames wr.bid).pid = wr.pid then
      { s.shared.frames wr.bid with saved := max (s.shared.frames wr.bid).saved wr.stamp }
    else s.shared.frames wr.bid
  have frames' : r.shared.frames = (s.shared.setFrame wr.bid new).frames := by
    rw [frames]
    unfold Shared.stored
    by_cases same : (s.shared.frames wr.bid).pid = wr.pid
    · simp only [new, if_pos same]
    · simp only [new, if_neg same]
      exact (setFrame_same s.shared wr.bid).symm
  have now : r.shared.frames wr.bid = new := by rw [frames', setFrame_self]
  have fields : new.state = word s wr.bid ∧ new.pid = (s.shared.frames wr.bid).pid ∧
      new.mods = (s.shared.frames wr.bid).mods ∧ (s.shared.frames wr.bid).saved ≤ new.saved ∧
      new.saved ≤ new.mods ∧
      ((s.shared.frames wr.bid).pid = wr.pid → wr.stamp ≤ new.saved) := by
    by_cases same : (s.shared.frames wr.bid).pid = wr.pid
    · rw [show new = _ from if_pos same]
      exact ⟨rfl, rfl, rfl, le_max_left _ _, max_le bounded stamp, fun _ => le_max_right _ _⟩
    · rw [show new = _ from if_neg same]
      exact ⟨rfl, rfl, rfl, le_refl _, bounded, fun this => absurd this same⟩
  obtain ⟨state, pid, mods, grew, bounded', counted⟩ := fields
  -- a write of another index stays pending
  have stays : ∀ wr' ∈ pending, wr' ≠ wr → wr' ∈ pending.eraseIdx k := by
    intro wr' old ne
    obtain ⟨j, at_⟩ := List.mem_iff_getElem?.mp old
    refine List.mem_eraseIdx_iff_getElem?.mpr ⟨j, ?_, at_⟩
    rintro rfl
    exact ne (Option.some.inj (at_.symm.trans here))
  refine written.next inv grows.entries frames' ⟨bounded', mods.ge⟩ (fun a old => ?_)
    (fun wr' old => ?_) (fun wr' left_ => Or.inl ?_) (fun p mapped mode clean => ?_)
    (fun u ne lock _ _ _ => ⟨by rw [state], fun all => ?_⟩) (by rw [frames]; exact ready)
  · rw [before] at old
    cases old
  · rw [before] at old
    rw [job']
    by_cases this : wr' = wr
    · exact Or.inr (by rw [this])
    · exact Or.inl (stays wr' old this)
  · rw [job'] at left_
    rw [before]
    exact List.mem_of_mem_eraseIdx left_
  · rw [state] at mode clean
    unfold Covered
    rw [after_shared, now, mods, pid]
    rcases written.covered p wr.bid mapped mode clean with all | ⟨u, waits⟩
    · left
      omega
    · by_cases self : u = f
      · subst self
        rw [before] at waits
        rcases waits with unissued | ⟨wr', old, at_, page, last⟩
        · cases unissued
        · by_cases this : wr' = wr
          · subst this
            left
            have := counted page.symm
            omega
          · right
            refine ⟨u, Or.inr ⟨wr', ?_, at_, page, last⟩⟩
            rw [jobOf_self, job']
            exact stays wr' old this
      · right
        refine ⟨u, ?_⟩
        rw [jobOf_ne _ _ self]
        exact waits
  · omega

theorem Written.change (inv : Inv cfg s) (claims : Claims cfg s) (written : Written cfg s)
    (grows : Grows s f r.shared) (change : Change cfg s f r) :
    Written cfg (s.after f r.shared r.fiber) := by
  cases change with
  | quiet frames job ready =>
    exact written.still inv grows.entries frames (sameWrites_of _ _ rfl job rfl rfl)
      (ready (written.ready f))
  | fixed _ _ at_ shared next =>
    exact written.still inv grows.entries (by rw [shared])
      (sameWrites_client (by rw [at_]; rfl) (by rw [next]; rfl)) (by rw [next]; trivial)
  | validated _ _ shared next client =>
    exact written.still inv grows.entries (by rw [shared])
      (sameWrites_client client (by rw [next]; rfl)) (by rw [next]; trivial)
  | lock _ _ _ _ at_ lockable here frames next =>
    refine written.touch inv grows.entries frames
      (sameWrites_client (by rw [at_]; rfl) (by rw [next]; rfl)) (fun mode clean => ?_)
      (fun u ne lock member kind at_b => ?_) (by rw [next]; trivial)
    · rw [here]
      exact ⟨lockWord_unlocked lockable, lockWord_dirty lockable mode ▸ clean⟩
    · have mode := inv.mode_exclusive (exclusive_of_lock member kind)
      rw [at_b, here] at mode
      exact absurd mode (lockWord_unlocked lockable)
  | mark _ _ free _ frames job locks =>
    exact written.touch inv grows.entries frames (sameWrites_of _ _ rfl job rfl rfl)
      (fun _ clean => ⟨ne_locked_of_free free, clean⟩) (fun _ _ _ _ _ _ => rfl)
      (ready_of_unlocked locks)
  | unlockS lock w at_ here frames next =>
    have kind : lock.kind = .shared := inv.ok_at at_
    have member : lock ∈ (s.fibers f).locks := by simp [Fiber.locks, at_, Pc.locks]
    have dirty : w.unlockSMarked.dirty = w.dirty := by
      unfold Word.unlockSMarked
      split <;> rfl
    refine written.touch inv grows.entries frames
      (sameWrites_client (by rw [at_]; rfl) (by rw [next]; rfl)) (fun _ clean => ?_)
      (fun _ _ _ _ _ _ => by rw [dirty, here]) (by rw [next]; trivial)
    rw [dirty] at clean
    exact ⟨ne_locked_of_le (inv.mode_shared member kind), here ▸ clean⟩
  | holder _ _ member kind does frames client =>
    exact written.holder inv grows member kind does frames client
  | owner b _ member _ locks frames counts client =>
    -- the frame is not mapped, so nobody has it locked and nothing is asked of it
    obtain ⟨unissued, pending⟩ : SameWrites cfg s f r.fiber.pc :=
      sameWrites_client client.1 client.2
    refine written.next inv grows.entries frames ?_ ?_ ?_ ?_
      (fun p mapped _ _ => absurd member (inv.mapped_not_owned mapped f))
      (fun u ne lock held kind at_ => ?_) (ready_of_unlocked locks)
    · rw [counts.1, counts.2]
      exact ⟨written.bounded b, le_refl _⟩
    · rw [unissued]
      exact fun _ => Or.inl
    · rw [pending]
      exact fun _ => Or.inl
    · rw [pending]
      exact fun _ => Or.inl
    · have mapped := (inv.fibers u).locks lock held
      rw [at_] at mapped
      exact absurd member (inv.mapped_not_owned mapped f)
  | claim ev _ _ b at_ frames next =>
    exact written.touch inv grows.entries frames
      (sameWrites_of (ev.sweeping []) (ev.sweeping [b]) (by rw [at_]; rfl)
        (by rw [next]; rfl) rfl rfl)
      (fun mode clean => ⟨mode, clean⟩) (fun _ _ _ _ _ _ => rfl) (by rw [next]; trivial)
  | settle _ _ job _ frames job' evicts | giveUp _ _ _ _ job frames job' evicts
  | release _ _ _ _ _ job frames _ job' evicts =>
    exact written.still inv grows.entries frames (sameWrites_of _ _ job job' rfl rfl)
      (ready_of_inEvict evicts)
  | clean ev b job frames job' evicts =>
    have before : jobOf cfg s f = ev.sweeping [b] := job
    have safe := claims.protected_ f b (by rw [before]; exact List.mem_cons_self)
    refine written.next inv grows.entries frames ⟨written.bounded b, le_refl _⟩
      (fun a member => Or.inl ?_) (fun wr member => ?_) (fun wr member => ?_)
      (fun p _ _ _ => Or.inr ⟨f, Or.inl ?_⟩) (fun u ne lock member kind at_ => ?_)
      (ready_of_inEvict evicts)
    · rw [before] at member
      rw [job']
      exact List.mem_append_left _ member
    · rw [before] at member
      cases member
    · rw [job'] at member
      cases member
    · rw [jobOf_self, job']
      exact List.mem_append_right _ List.mem_cons_self
    · have mode := inv.mode_exclusive (exclusive_of_lock member kind)
      rw [at_] at mode
      exact absurd mode (ne_locked_of_free safe.free)
  | issue _ _ _ _ job frames job' evicts =>
    exact written.issue inv grows job frames job' (ready_of_inEvict evicts)
  | complete _ _ _ _ job here frames job' evicts =>
    exact written.complete inv grows job here frames job' (ready_of_inEvict evicts)
  | aim ev ph b rest at_ shared next =>
    exact written.still inv grows.entries (by rw [shared])
      (sameWrites_of (ev.erase ph b rest) ((ev.erase ph b rest).aimed (s.shared.frames b).pid b)
        (by rw [at_]; rfl) (by rw [next]; rfl) rfl rfl)
      (by rw [next]; trivial)
  | retire ev ph b _ rest at_ frames job' evicts =>
    exact written.touch inv grows.entries frames
      (sameWrites_of (ev.erasing (ev.after ph rest) [b] ev.freed) _ (by rw [at_]; rfl) job'
        rfl rfl)
      (fun mode clean => ⟨mode, clean⟩) (fun _ _ _ _ _ _ => rfl) (ready_of_inEvict evicts)
  | done ev at_ frames next =>
    exact written.still inv grows.entries frames
      (sameWrites_of (ev.erasing [] [] []) Job.none (by rw [at_]; rfl)
        (by rw [next]; rfl) rfl rfl)
      (by rw [next]; trivial)

theorem Written.commit {ev : Eviction} {ph : Phase} {b p i : Nat} {rest : List Nat}
    (inv : Inv cfg s) (written : Written cfg s) (commits : Commits cfg s f r ev ph b p rest i) :
    Written cfg (s.after f r.shared r.fiber) := by
  refine written.still inv ?_ commits.frames
    (sameWrites_of ((ev.erase ph b rest).aimed p b)
      (ev.erasing (ev.after ph rest) [b] ev.freed) (by rw [commits.at_]; rfl)
      (by rw [commits.next]; rfl) rfl rfl) (by rw [commits.next]; trivial)
  rintro q c ⟨j, inRange, holds, bid⟩
  rw [after_shared, commits.slots] at holds bid
  obtain ⟨ne, old⟩ := holds.of_tombstoned
  rw [setSlot_ne _ _ ne] at bid
  exact Or.inl ⟨j, inRange, old, bid⟩

/-! ### Runs -/

theorem written_initial (cfg : Config n) : Written cfg (initial cfg) where
  bounded := fun b => by
    simp only [initial]
    split <;> decide
  stamps := fun _ => (fun _ member => by cases member)
  covered := fun p b ⟨i, _, entry⟩ _ clean => by
    -- only the root page is mapped, and it is dirty
    obtain ⟨-, -, rfl⟩ := entry_initial entry
    cases clean
  ready := fun _ => trivial

theorem written_exec {act : Act n} {s' : State n} {out : Out} (inv : Inv cfg s)
    (claims : Claims cfg s) (written : Written cfg s) (careful : Careful cfg s act)
    (execs : exec cfg s act = some (s', out)) : Written cfg s' := by
  rcases exec_change inv careful.undisturbed execs with
    ⟨f, r, -, rfl, -, ⟨grows, change⟩ | ⟨ev, ph, b, p, rest, i, commits⟩⟩ | ⟨frames, table, fibers, -⟩
  · exact written.change inv claims grows change
  · exact written.commit inv commits
  · obtain ⟨sh, fibers'⟩ := s'
    dsimp only at frames table fibers
    subst fibers
    obtain ⟨bounded, stamps, covered, ready⟩ := written
    simp only [Covered, Mapped, word, ← frames, ← table] at bounded stamps covered ready
    exact ⟨bounded, stamps, covered, ready⟩

theorem written_reaches {acts : List (Act n × Out)}
    (reached : (system cfg).Reaches (fun s a => Careful cfg s a.1) acts s) :
    (Inv cfg s ∧ Claims cfg s) ∧ Written cfg s :=
  reached.invariant (P := fun s => (Inv cfg s ∧ Claims cfg s) ∧ Written cfg s)
    (fun s (start : s = initial cfg) =>
      start ▸ ⟨⟨inv_initial cfg, claims_initial cfg⟩, written_initial cfg⟩)
    fun _ _ _ ⟨⟨inv, claims⟩, written⟩ careful step =>
      ⟨⟨inv_exec inv (claims.sound careful) step, claims_exec inv claims careful step⟩,
        written_exec inv claims written careful step⟩

/-- The stored copy of a candidate is complete once its evictor has no write left. -/
theorem Written.complete_of_chosen (claims : Claims cfg s) (written : Written cfg s) {b : Nat}
    (chosen : b ∈ (jobOf cfg s f).chosen) (unissued : (jobOf cfg s f).unissued = [])
    (pending : (jobOf cfg s f).pending = []) :
    (s.shared.frames b).saved = (s.shared.frames b).mods := by
  have safe := claims.protected_ f b (List.mem_append_right _ chosen)
  have mine : b ∈ (jobOf cfg s f).claims := mem_claims.mpr (Or.inr (Or.inl chosen))
  have unique : ∀ u, b ∈ (jobOf cfg s u).chosen → u = f := fun u theirs =>
    claims.unique (mem_claims.mpr (Or.inr (Or.inl theirs))) mine
  obtain ⟨p, mapped⟩ := safe.mapped
  rcases written.covered p b mapped (ne_locked_of_free safe.free) (claims.clean f b chosen) with
    all | ⟨u, todo | ⟨wr, inFlight, rfl, -⟩⟩
  · exact all
  · obtain rfl := unique u ((claims.writes u).1 b todo)
    rw [unissued] at todo
    cases todo
  · obtain rfl := unique u ((claims.writes u).2 wr inFlight)
    rw [pending] at inFlight
    cases inFlight

/-- In every run of steps that meet `ok`, an entry is erased only when a write of the frame
that was issued after its last modification has completed. -/
def NeverDrops (cfg : Config n) (ok : State n → Act n × Out → Prop) : Prop :=
  ∀ (before : List (Act n × Out)) (s s' : State n) (act : Act n) (p b : Nat),
    (system cfg).Reaches ok before s → (system cfg).step s (act, .erased p b) s' →
    ok s (act, .erased p b) → (s.shared.frames b).saved = (s.shared.frames b).mods

/-- **Eviction drops no unwritten data.** -/
theorem evict_writes_back (cfg : Config n) :
    NeverDrops cfg (fun s label => Careful cfg s label.1) := by
  intro before s s' act p b reached step careful
  obtain ⟨⟨inv, claims⟩, written⟩ := written_reaches reached
  rcases exec_change inv careful.undisturbed step with
    ⟨f, r, -, -, out, ⟨-, change⟩ | ⟨ev, ph, c, q, rest, i, commits⟩⟩ | ⟨-, -, -, out⟩
  · exact absurd out.symm (change.out_ne_erased p b)
  · have shows := out.trans commits.out
    cases shows
    have job : jobOf cfg s f = (ev.erase ph b rest).aimed p b := by
      rw [jobOf, commits.at_]
      rfl
    exact written.complete_of_chosen claims (by rw [job]; exact List.mem_cons_self)
      (by rw [job]; rfl) (by rw [job]; rfl)
  · cases out

/-- The evictor of the other worker writes a modified page back and erases it. -/
theorem evict_writes_back_alone :
    ∃ before s s', (system twoWorkers).Reaches (fun s label => Careful twoWorkers s label.1) before s ∧
      (system twoWorkers).step s (.step 1 1, .erased 1 1) s' ∧
      (s.shared.frames 1).saved = (s.shared.frames 1).mods := by
  have passed : (drive (exec twoWorkers) (fun s a => decide (Careful twoWorkers s a))
      (initial twoWorkers)
      (List.flatten [allocated, unmarks, [.call 1 .evict], steps 1 18, [.step 1 0], steps 1 10])).any
      (fun r => decide (Careful twoWorkers r.1 (.step 1 1)) &&
        (exec twoWorkers r.1 (.step 1 1)).any fun t => t.2 = .erased 1 1) = true := by
    decide +kernel
  obtain ⟨s, before, reached, last⟩ := drive_meets (system twoWorkers) rfl rfl passed
  simp only [Bool.and_eq_true, decide_eq_true_eq, Option.any_eq_true] at last
  obtain ⟨careful, ⟨s', out⟩, stepped, rfl⟩ := last
  exact ⟨before, s, s', reached, stepped,
    evict_writes_back twoWorkers before s s' (.step 1 1) 1 1 reached stepped careful⟩

/-! ### Two evictors with overlapping partitions -/

/-- A client and an evictor on worker 1 and an evictor on worker 0. -/
def lateWorker : Config 3 where
  pageCount := 3
  target := 3
  evictBatch := 1
  table := .ofBits 1
  poolBits := 0
  partitionBits := 1
  workers := 2
  wid := fun f => if f = 1 then 0 else 1
  wid_lt := by decide
  evictor := fun f => f != 0

/-- Worker 1 allocates page 1 and stops. Worker 0 is then the only one: its evictor owns the
whole table and takes the mark away. On its next call it is about to set the EvictingBit when
worker 1 starts again and its evictor, which owns half of the table, gets to the same point.
The first evictor clears the DirtyBit, the second one takes the frame for clean. -/
def overlapping : List (Act 3) :=
  List.flatten [[.initWorker 1, .call 0 .allocPage], steps 0 14,
    [.call 0 (.unfix ⟨.exclusive, 1, 1⟩)], steps 0 4, [.shutdownWorker 1, .initWorker 0],
    [.call 1 .evict], steps 1 23, [.call 1 .evict], steps 1 11,
    [.initWorker 1, .call 2 .evict], steps 2 11, steps 1 3, steps 2 13]

/-- The second evictor erases the entry while no write has been issued. -/
theorem evict_drops_unwritten :
    ∃ before s s', (system lateWorker).Reaches System.anyStep before s ∧
      (system lateWorker).step s (.step 2 1, .erased 1 1) s' ∧
      (s.shared.frames 1).saved < (s.shared.frames 1).mods := by
  have passed : (drive (exec lateWorker) (fun _ _ => true) (initial lateWorker) overlapping).any
      (fun r => decide ((r.1.shared.frames 1).saved < (r.1.shared.frames 1).mods) &&
        (exec lateWorker r.1 (.step 2 1)).any fun t => t.2 = .erased 1 1) = true := by
    decide +kernel
  obtain ⟨s, before, reached, last⟩ := drive_anyStep (system lateWorker) rfl rfl passed
  simp only [Bool.and_eq_true, decide_eq_true_eq, Option.any_eq_true] at last
  obtain ⟨unwritten, ⟨s', out⟩, stepped, rfl⟩ := last
  exact ⟨before, s, s', reached, stepped, unwritten⟩

end UringDb.BufferMgr
