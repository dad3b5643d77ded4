import UringDb.BufferMgr.Preserve

/-!
# What one step can do

The work of a running `evict()` is, whatever its program counter, a handful of lists: the
frame it is examining, the candidates it has chosen, the writes it still has to issue or to
await, the frame it is retiring and the frames it has freed. `Change` says once, for every
step of every call, how it moves frames between these lists, which frame it changes and
what it shows. The results about data loss, leftover bits and stale frames read it, and not
the step function.
-/
namespace UringDb.BufferMgr

open PageState PageTable

variable {n : Nat}

/-! ### The work of an evictor -/

structure Job where
  /-- Protected by the EvictingBit and not yet examined for dirt. -/
  fresh : List Nat
  /-- Selected for eviction and not yet erased or given up. -/
  chosen : List Nat
  unissued : List Nat
  pending : List Write
  /-- Erased, with the EvictingBit not yet cleared. -/
  retiring : List Nat
  freed : List Nat
  released : List Nat
  /-- All frames selected so far. -/
  selected : List Nat
  /-- The page and the frame of the running `erase_if`, up to its compare-and-swap. -/
  target : Option (Nat × Nat)
  deriving DecidableEq, Repr

def Job.none : Job := ⟨[], [], [], [], [], [], [], [], .none⟩

def Job.aimed (job : Job) (pid bid : Nat) : Job := { job with target := some (pid, bid) }

/-- The frames on which the job has the EvictingBit set. -/
def Job.claims (job : Job) : List Nat := job.fresh ++ job.chosen ++ job.retiring

namespace Eviction

def selected (ev : Eviction) : List Nat := ev.toEvict ++ ev.toWrite

/-- What remains to be erased after the frames `rest` of the phase. -/
def after (ev : Eviction) (phase : Phase) (rest : List Nat) : List Nat :=
  match phase with
  | .clean => rest ++ ev.toWrite
  | .written => rest

def sweeping (ev : Eviction) (fresh : List Nat) : Job :=
  ⟨fresh, ev.selected, ev.toWrite, [], [], ev.freed, ev.released, ev.selected, none⟩

def writing (ev : Eviction) (unissued : List Nat) (pending : List Write) : Job :=
  ⟨[], ev.selected, unissued, pending, [], ev.freed, ev.released, ev.selected, none⟩

def erasing (ev : Eviction) (chosen retiring freed : List Nat) : Job :=
  ⟨[], chosen, [], [], retiring, freed, ev.released, ev.selected, none⟩

def erase (ev : Eviction) (phase : Phase) (bid : Nat) (rest : List Nat) : Job :=
  ev.erasing (bid :: ev.after phase rest) [] ev.freed

end Eviction

def Pc.job (cfg : Config n) : Pc → Job
  | .evOwners ev | .evSize ev .. | .evPos ev .. | .evScan ev _ | .evPid ev .. | .evMode ev ..
  | .evIo ev .. | .evEvicting ev .. | .evMarkLoad ev .. | .evMarkCas ev ..
  | .evSet ev .. => ev.sweeping []
  | .evDirty ev _ _ bid | .evClean ev _ _ bid => ev.sweeping [bid]
  | .evPosStore ev .. | .evUnreserve ev => ev.sweeping []
  | .evIssue ev todo pending => ev.writing todo pending
  | .evAwait ev pending => ev.writing [] pending
  | .evNowPid ev phase bid rest => ev.erase phase bid rest
  | .evErase ev phase bid pid rest | .preEvicting ev phase bid pid rest
  | .preMode ev phase bid pid rest | .preDirty ev phase bid pid rest | .preIo ev phase bid pid rest
  | .preAnswer ev phase bid pid rest _ => (ev.erase phase bid rest).aimed pid bid
  | .evCollapse ev phase bid _ rest
  | .evPost ev phase bid _ rest => ev.erasing (ev.after phase rest) [bid] ev.freed
  | .evRelease ev phase pool => ev.erasing (ev.after phase []) []
      (ev.freed.filter fun bid => pool ≤ cfg.freePoolIndexForBid bid)
  | .evUsed ev phase => ev.erasing (ev.after phase []) [] []
  | .evDone ev => ev.erasing [] [] []
  | _ => Job.none

theorem job_client {cfg : Config n} {pc : Pc} (client : pc.inEvict = false) :
    pc.job cfg = Job.none := by
  cases pc <;> first | rfl | cases client

section

variable (cfg : Config n) (ev : Eviction)

theorem job_sweepNext (sw : Sweep) : (sw.next cfg ev).job cfg = ev.sweeping [] := by
  unfold Sweep.next
  split <;> rfl

theorem job_chosen (sw : Sweep) : (ev.chosen cfg sw).job cfg = ev.sweeping [] := by
  unfold Eviction.chosen
  split
  · rfl
  · exact job_sweepNext cfg ev sw

theorem job_evRelease (phase : Phase) :
    (Pc.evRelease ev phase 0).job cfg = ev.erasing (ev.after phase []) [] ev.freed := by
  simp [Pc.job]

theorem job_finishWritten : ev.finishWritten.job cfg = ev.erasing [] [] ev.freed := by
  unfold Eviction.finishWritten
  split
  next none => simp [Pc.job, none]
  next => exact job_evRelease cfg ev .written

theorem job_startWritten : ev.startWritten.job cfg = ev.erasing ev.toWrite [] ev.freed := by
  unfold Eviction.startWritten
  split
  next none =>
    rw [none]
    exact job_finishWritten cfg ev
  next bid rest some =>
    rw [some]
    rfl

theorem job_next (phase : Phase) (rest : List Nat) :
    (ev.next phase rest).job cfg = ev.erasing (ev.after phase rest) [] ev.freed := by
  cases rest with
  | cons bid rest => cases phase <;> rfl
  | nil =>
    cases phase with
    | written => exact job_finishWritten cfg ev
    | clean =>
      change ev.finishClean.job cfg = _
      unfold Eviction.finishClean
      split
      · exact job_startWritten cfg ev
      · exact job_evRelease cfg ev .clean

end

/-! ### Changes -/

/-- No entry goes; a new one is for the frame that `f` has set up. The other fibers' calls of
the table stay where they are. -/
structure Grows (s : State n) (f : Fin n) (sh : Shared n) : Prop where
  keeps : ∀ i, Slot.isLive (s.shared.table.slots i) = true →
    sh.table.slots i = s.shared.table.slots i
  fresh : ∀ i p b, Entry sh.table.slots i p b → Entry s.shared.table.slots i p b ∨
    ((s.fibers f).pc.setsUp = some b ∧ sh.frames = s.shared.frames)
  others : ∀ u, u ≠ f → sh.table.pcs u = s.shared.table.pcs u

theorem Grows.entry {s : State n} {f : Fin n} {sh : Shared n} (grows : Grows s f sh) {i p b : Nat}
    (entry : Entry s.shared.table.slots i p b) : Entry sh.table.slots i p b := by
  unfold Entry Holds at *
  rwa [grows.keeps i entry.1.1]

theorem SameEntries.grows {s : State n} {f : Fin n} {sh : Shared n}
    (same : SameEntries s.shared.table.slots sh.table.slots)
    (others : ∀ u, u ≠ f → sh.table.pcs u = s.shared.table.pcs u) : Grows s f sh where
  keeps := fun i => (same i).2
  fresh := fun i p b entry => Or.inl ((same.entry i p b).mp entry)
  others := others

theorem grows_of_eq {s : State n} {f : Fin n} {sh : Shared n}
    (same : sh.table.slots = s.shared.table.slots)
    (others : ∀ u, u ≠ f → sh.table.pcs u = s.shared.table.pcs u) : Grows s f sh :=
  SameEntries.grows (same ▸ SameEntries.refl _) others

theorem insert_grows {tb : Table} {s : State n} {f : Fin n} {sh : Shared n} {p b i : Nat}
    (can : CanInsert tb s.shared.table.slots p b i)
    (set : sh.table.slots = setSlot s.shared.table.slots i (Slot.word p b))
    (setsUp : (s.fibers f).pc.setsUp = some b) (frames : sh.frames = s.shared.frames)
    (others : ∀ u, u ≠ f → sh.table.pcs u = s.shared.table.pcs u) : Grows s f sh where
  keeps := by
    intro j live
    have ne : j ≠ i := by
      rintro rfl
      rw [can.dead] at live
      cases live
    rw [set, setSlot_ne _ _ ne]
  fresh := by
    rintro j q c ⟨holds, bid⟩
    rw [set] at holds bid
    by_cases here : j = i
    · subst here
      rw [setSlot_same, Slot.bid_word p b can.fits] at bid
      exact Or.inr ⟨bid ▸ setsUp, frames⟩
    · rw [holds_setSlot_ne _ here] at holds
      rw [setSlot_ne _ _ here] at bid
      exact Or.inl ⟨holds, bid⟩
  others := others

/-- What the holder of an exclusive lock knows about the content at the end of its section:
`unfixX` has set the DirtyBit, and a page read from storage is as stored. -/
def Ready (frames : Nat → Frame) : Pc → Prop
  | .unfixXLoad lock => (frames lock.bid).state.dirty = true
  | .unfixXStore _ w => w.dirty = true
  | .readIo _ b _ | .readLoad _ b _ | .readStore _ b .. => (frames b).saved = (frames b).mods
  | _ => True

theorem ready_of_unlocked {frames : Nat → Frame} {pc : Pc} (locks : pc.locks = []) :
    Ready frames pc := by
  cases pc <;> trivial

theorem ready_of_inEvict {frames : Nat → Frame} {pc : Pc} (evicts : pc.inEvict = true) :
    Ready frames pc := by
  cases pc <;> trivial

/-- What the holder of an exclusive lock does to its frame. -/
inductive Section (pc pc' : Pc) (b : Nat) (frame : Frame) : Frame → Prop
  | modify (held : pc' = .idle) : Section pc pc' b frame { frame with mods := frame.mods + 1 }
  | setDirty (lock : Held) (here : lock.bid = b) (at_ : pc = .unfixXDirty lock)
      (next : pc' = .unfixXLoad lock) :
      Section pc pc' b frame { frame with state := { frame.state with dirty := true } }
  | unlock (lock : Held) (w : Word) (here : lock.bid = b) (at_ : pc = .unfixXStore lock w)
      (next : pc' = .idle) :
      Section pc pc' b frame { frame with state := w.nextVersion marked }
  | load (p : Nat) (caller : Caller) (at_ : pc = .read p b caller) (next : pc' = .readIo p b caller) :
      Section pc pc' b frame { frame with saved := frame.mods }
  | clearIo (p : Nat) (caller : Caller) (at_ : pc = .readIo p b caller)
      (next : pc' = .readLoad p b caller) :
      Section pc pc' b frame { frame with state := { frame.state with io := false } }
  | publish (p : Nat) (caller : Caller) (w : Word) (at_ : pc = .readStore p b caller w)
      (next : pc' = caller.resume) :
      Section pc pc' b frame { frame with state := w.nextVersion marked }

/-- What a step of fiber `f` does that leaves all entries in the page table. -/
inductive Change (cfg : Config n) (s : State n) (f : Fin n) (r : Result n) : Prop
  | quiet (frames : r.shared.frames = s.shared.frames)
      (job : r.fiber.pc.job cfg = (s.fibers f).pc.job cfg)
      (ready : Ready s.shared.frames (s.fibers f).pc → Ready s.shared.frames r.fiber.pc)
      (out : r.out = .silent ∨ (∃ g, r.out = .captured g) ∨ r.out = .evictIdle)
  | fixed (fx : Fix) (b : Nat) (at_ : (s.fibers f).pc = .fixPidLocked fx b)
      (shared : r.shared = s.shared) (next : r.fiber.pc = .idle) (out : r.out = .fixed (fx.lock b))
  | validated (g : Guard) (ok : Bool) (shared : r.shared = s.shared) (next : r.fiber.pc = .idle)
      (client : (s.fibers f).pc.inEvict = false) (out : r.out = .validated g ok)
      (check : ok = true → (s.fibers f).pc = .valLoad g ∧ g.word.version = version s g.bid)
  | lock (fx : Fix) (b : Nat) (w w' : Word) (at_ : (s.fibers f).pc = .fixLock fx b w)
      (lockable : fx.lockWord w = some w') (here : word s b = w)
      (frames : r.shared.frames = (s.shared.setState b w').frames)
      (next : r.fiber.pc = .fixPidLocked fx b) (out : r.out = .silent)
  | mark (b mode : Nat) (free : (word s b).free = true) (stays : mode = unlocked ∨ mode = marked)
      (frames : r.shared.frames = (s.shared.setState b { word s b with mode := mode }).frames)
      (job : r.fiber.pc.job cfg = (s.fibers f).pc.job cfg) (locks : r.fiber.pc.locks = [])
      (out : r.out = .silent)
  | unlockS (lock : Held) (w : Word) (at_ : (s.fibers f).pc = .unfixSCas lock w)
      (here : word s lock.bid = w)
      (frames : r.shared.frames = (s.shared.setState lock.bid w.unlockSMarked).frames)
      (next : r.fiber.pc = .idle) (out : r.out = .silent)
  | holder (lock : Held) (frame : Frame) (member : lock ∈ (s.fibers f).locks)
      (kind : lock.kind = .exclusive)
      (does : Section (s.fibers f).pc r.fiber.pc lock.bid (s.shared.frames lock.bid) frame)
      (frames : r.shared.frames = (s.shared.setFrame lock.bid frame).frames)
      (client : (s.fibers f).pc.inEvict = false ∧ r.fiber.pc.inEvict = false)
      (out : r.out = .silent)
  | owner (b : Nat) (frame : Frame) (member : b ∈ (s.fibers f).pc.owned cfg)
      (still : b ∈ r.fiber.pc.owned cfg) (locks : r.fiber.pc.locks = [])
      (frames : r.shared.frames = (s.shared.setFrame b frame).frames)
      (counts : frame.mods = (s.shared.frames b).mods ∧ frame.saved = (s.shared.frames b).saved)
      (client : (s.fibers f).pc.inEvict = false ∧ r.fiber.pc.inEvict = false)
      (out : r.out = .silent)
  | claim (ev : Eviction) (sw : Sweep) (p b : Nat) (at_ : (s.fibers f).pc = .evSet ev sw p b)
      (frames : r.shared.frames = (s.shared.setState b { word s b with evicting := true }).frames)
      (next : r.fiber.pc = .evDirty ev sw p b) (out : r.out = .silent)
  | settle (ev : Eviction) (b : Nat) (job : (s.fibers f).pc.job cfg = ev.sweeping [b])
      (clean : (word s b).dirty = false) (frames : r.shared.frames = s.shared.frames)
      (job' : r.fiber.pc.job cfg = { ev with toEvict := ev.toEvict ++ [b] }.sweeping [])
      (evicts : r.fiber.pc.inEvict = true) (out : r.out = .silent)
  | clean (ev : Eviction) (b : Nat) (job : (s.fibers f).pc.job cfg = ev.sweeping [b])
      (frames : r.shared.frames = (s.shared.setState b { word s b with dirty := false }).frames)
      (job' : r.fiber.pc.job cfg = { ev with toWrite := ev.toWrite ++ [b] }.sweeping [])
      (evicts : r.fiber.pc.inEvict = true) (out : r.out = .silent)
  | issue (ev : Eviction) (b : Nat) (rest : List Nat) (pending : List Write)
      (job : (s.fibers f).pc.job cfg = ev.writing (b :: rest) pending)
      (frames : r.shared.frames = s.shared.frames)
      (job' : r.fiber.pc.job cfg = ev.writing rest
        (pending ++ [⟨b, (s.shared.frames b).pid, (s.shared.frames b).mods⟩]))
      (evicts : r.fiber.pc.inEvict = true) (out : r.out = .silent)
  | complete (ev : Eviction) (pending : List Write) (k : Nat) (wr : Write)
      (job : (s.fibers f).pc.job cfg = ev.writing [] pending) (here : pending[k]? = some wr)
      (frames : r.shared.frames = (s.shared.stored wr).frames)
      (job' : r.fiber.pc.job cfg = ev.writing [] (pending.eraseIdx k))
      (evicts : r.fiber.pc.inEvict = true) (out : r.out = .silent)
  | aim (ev : Eviction) (phase : Phase) (b : Nat) (rest : List Nat)
      (at_ : (s.fibers f).pc = .evNowPid ev phase b rest) (shared : r.shared = s.shared)
      (next : r.fiber.pc = .evErase ev phase b (s.shared.frames b).pid rest)
      (out : r.out = .silent)
  | giveUp (ev : Eviction) (b p : Nat) (rest : List Nat)
      (job : (s.fibers f).pc.job cfg = (ev.erasing (b :: rest) [] ev.freed).aimed p b)
      (frames : r.shared.frames = s.shared.frames)
      (job' : r.fiber.pc.job cfg = ev.erasing rest [] ev.freed)
      (evicts : r.fiber.pc.inEvict = true) (out : r.out = .silent)
  | retire (ev : Eviction) (phase : Phase) (b p : Nat) (rest : List Nat)
      (at_ : (s.fibers f).pc = .evPost ev phase b p rest)
      (frames : r.shared.frames = (s.shared.setState b { word s b with evicting := false }).frames)
      (job' : r.fiber.pc.job cfg = ev.erasing (ev.after phase rest) [] (ev.freed ++ [b]))
      (evicts : r.fiber.pc.inEvict = true) (out : r.out = .silent)
  | release (ev : Eviction) (chosen freed freed' batch : List Nat)
      (job : (s.fibers f).pc.job cfg = ev.erasing chosen [] freed)
      (frames : r.shared.frames = s.shared.frames)
      (parts : ∀ b ∈ freed, b ∈ freed' ∨ b ∈ batch)
      (job' : r.fiber.pc.job cfg =
        { ev with released := ev.released ++ batch }.erasing chosen [] freed')
      (evicts : r.fiber.pc.inEvict = true) (out : r.out = .silent)
  | done (ev : Eviction) (at_ : (s.fibers f).pc = .evDone ev)
      (frames : r.shared.frames = s.shared.frames) (next : r.fiber.pc = .idle)
      (out : r.out = .evictDone ev)

/-- The compare-and-swap of `erase_if` succeeded. -/
structure Commits (cfg : Config n) (s : State n) (f : Fin n) (r : Result n) (ev : Eviction)
    (phase : Phase) (b p : Nat) (rest : List Nat) (i : Nat) : Prop where
  at_ : (s.fibers f).pc = .evErase ev phase b p rest
  inRange : i < cfg.table.slotCount
  entry : Entry s.shared.table.slots i p b
  slots : r.shared.table.slots = setSlot s.shared.table.slots i Slot.tombstoneSlot
  frames : r.shared.frames = s.shared.frames
  others : ∀ u, u ≠ f → r.shared.table.pcs u = s.shared.table.pcs u
  next : r.fiber.pc = .evCollapse ev phase b p rest
  out : r.out = .erased p b

variable {cfg : Config n} {s : State n} {f : Fin n} {r : Result n}

/-- A change that keeps the entries, or a commit. -/
def Changes (cfg : Config n) (s : State n) (f : Fin n) (r : Result n) : Prop :=
  (Grows s f r.shared ∧ Change cfg s f r) ∨
    ∃ ev phase b p rest i, Commits cfg s f r ev phase b p rest i

theorem Change.out_ne_erased (change : Change cfg s f r) (p b : Nat) : r.out ≠ .erased p b := by
  intro shows
  cases change with
  | quiet frames job ready out =>
    rw [shows] at out
    rcases out with out | ⟨g, out⟩ | out <;> cases out
  | _ =>
    have other := shows.symm.trans ‹r.out = _›
    cases other

theorem Change.changes (change : Change cfg s f r) (table : r.shared.table = s.shared.table) :
    Changes cfg s f r := by
  exact Or.inl ⟨grows_of_eq (by rw [table]) (fun _ _ => by rw [table]), change⟩

section Cases

variable {pc : Pc} {sh : Shared n} {pc' : Pc}

theorem changes_go (at_ : (s.fibers f).pc = pc) (frames : sh.frames = s.shared.frames)
    (table : sh.table = s.shared.table) (job : pc'.job cfg = pc.job cfg)
    (ready : Ready s.shared.frames pc → Ready s.shared.frames pc') :
    Changes cfg s f ⟨sh, { s.fibers f with pc := pc' }, .silent⟩ :=
  Change.changes (.quiet frames (at_ ▸ job) (at_ ▸ ready) (Or.inl rfl)) table

theorem changes_land {owned : List Nat} {handed : Option Guard} (at_ : (s.fibers f).pc = pc)
    (frames : sh.frames = s.shared.frames) (table : sh.table = s.shared.table)
    (client : pc.inEvict = false) (lands : pc'.Lands cfg owned false handed) :
    Changes cfg s f ⟨sh, { s.fibers f with pc := pc' }, .silent⟩ :=
  changes_go at_ frames table ((job_client lands.inEvict).trans (job_client client).symm)
    fun _ => ready_of_unlocked lands.locks

theorem changes_sweep {ev : Eviction} {sw : Sweep} (at_ : (s.fibers f).pc = pc)
    (job : pc.job cfg = ev.sweeping []) :
    Changes cfg s f ⟨s.shared, { s.fibers f with pc := sw.next cfg ev }, .silent⟩ :=
  changes_go at_ rfl rfl ((job_sweepNext cfg _ _).trans job.symm)
    fun _ => ready_of_unlocked (lands_sweepNext cfg _ _).locks

theorem changes_lookup {p : Nat} {found : Nat → Pc} {missing : Pc} (inv : Inv cfg s)
    (running : (s.shared.table.pcs f).canCall = true ∨ ∃ d, s.shared.table.pcs f = .find p d)
    (undisturbed : Undisturbed cfg.table s.shared.table (.step f false))
    (client : (s.fibers f).pc.inEvict = false ∧ (s.fibers f).pc.locks = [])
    (onFound : ∀ b, (found b).inEvict = false ∧ (found b).locks = [])
    (onMissing : missing.inEvict = false ∧ missing.locks = [])
    (stepped : lookup cfg s.shared f (s.fibers f) p found missing = some r) :
    Changes cfg s f r := by
  have frames : r.shared.frames = s.shared.frames := by
    unfold lookup at stepped
    split at stepped
    · cases stepped
    all_goals
      next tried =>
        cases stepped
        rcases tableStep_cases tried with ⟨-, -, _, -, rfl⟩ | ⟨-, _, -, -, rfl⟩ <;> rfl
  obtain ⟨sh, pc', rfl, calm, landed⟩ := lookup_cases inv running undisturbed stepped
  have client' : pc'.inEvict = false ∧ pc'.locks = [] := by
    rcases landed with ⟨rfl, -⟩ | ⟨-, rfl | ⟨b, rfl, -⟩⟩
    · exact client
    · exact onMissing
    · exact onFound b
  exact Or.inl ⟨calm.entries.grows calm.pcs,
    .quiet frames ((job_client client'.1).trans (job_client client.1).symm)
      (fun _ => ready_of_unlocked client'.2) (Or.inl rfl)⟩

theorem changes_insert {setup : Setup} {b : Nat} (inv : Inv cfg s)
    (at_ : (s.fibers f).pc = .insert setup b)
    (stepped : insert cfg s.shared f (s.fibers f) setup b = some r) : Changes cfg s f r := by
  have running : (s.shared.table.pcs f).canCall = true ∨ (s.shared.table.pcs f).inserts setup.pid b :=
    inv.agree_at at_
  have client : (s.fibers f).pc.inEvict = false := by rw [at_]; rfl
  unfold insert at stepped
  cases tried : tableStep cfg s.shared f (.insert setup.pid b) false with
  | none => simp [tried] at stepped
  | some next =>
    obtain ⟨sh, out⟩ := next
    simp only [tried] at stepped
    have others := tableStep_others tried
    have grows : Grows s f sh ∧ sh.frames = s.shared.frames := by
      rcases tableStep_cases tried with ⟨-, rfl, start, begins, rfl⟩ | ⟨busy, step, steps, rfl, rfl⟩
      · exact ⟨grows_of_eq rfl others, rfl⟩
      · refine ⟨?_, rfl⟩
        rcases insert_step inv.table.reach (inv.table.pcs f) (running.resolve_left (by simp [busy]))
          steps with ⟨same, -⟩ | ⟨same, -⟩ | ⟨i, can, set, -⟩
        · exact grows_of_eq same others
        · exact grows_of_eq same others
        · exact insert_grows can set (by rw [at_]; rfl) rfl others
    have lands : ∀ pc' : Pc, pc'.inEvict = false →
        (Ready s.shared.frames (s.fibers f).pc → Ready s.shared.frames pc') →
        Changes cfg s f ⟨sh, { s.fibers f with pc := pc' }, .silent⟩ := fun pc' client' ready =>
      Or.inl ⟨grows.1, .quiet grows.2 ((job_client client').trans (job_client client).symm) ready
        (Or.inl rfl)⟩
    split at stepped
    · cases stepped
    · rename_i same
      cases same
      cases setup <;> cases stepped <;> exact lands _ rfl fun _ => trivial
    · rename_i same
      cases same
      cases setup
      · cases stepped
      · cases stepped
        exact lands _ rfl fun _ => trivial
    · rename_i same
      cases same
      cases stepped
      exact lands _ client id

theorem changes_evErase {ev : Eviction} {phase : Phase} {b p : Nat} {rest : List Nat}
    (inv : Inv cfg s) (at_ : (s.fibers f).pc = .evErase ev phase b p rest)
    (stepped : evErase cfg s.shared f (s.fibers f) ev phase b p rest = some r) :
    Changes cfg s f r := by
  have job : (s.fibers f).pc.job cfg = (ev.erase phase b rest).aimed p b := by
    rw [at_]
    rfl
  obtain ⟨sh, out, tried, -, goes | commits⟩ :=
    evErase_moves (inv.table.pcs f).carries (inv.agree_at at_) stepped
  all_goals
    have others := tableStep_others tried
    have frames : sh.frames = s.shared.frames := by rw [tableStep_table tried]
  · obtain ⟨pc', slots, rfl, goes⟩ := goes
    have grows := grows_of_eq slots others
    rcases goes with ⟨rfl, -⟩ | ⟨i, raw, -, rfl⟩ | ⟨rfl, -⟩
    · exact Or.inl ⟨grows, .quiet frames rfl id (Or.inl rfl)⟩
    · split <;> exact Or.inl ⟨grows, .quiet frames job.symm (fun _ => trivial) (Or.inl rfl)⟩
    · exact Or.inl ⟨grows, .giveUp ev b p _ job frames (job_next cfg ev phase rest)
        (lands_next cfg ev phase rest).inEvict rfl⟩
  · obtain ⟨i, inRange, entry, -, slots, -, rfl⟩ := commits
    exact Or.inr ⟨ev, phase, b, p, rest, i, at_, inRange, entry, slots, frames, others, rfl, rfl⟩

theorem changes_preAnswer {ev : Eviction} {phase : Phase} {b p : Nat} {rest : List Nat}
    {answer : Bool} (inv : Inv cfg s) (at_ : (s.fibers f).pc = .preAnswer ev phase b p rest answer)
    (stepped : preAnswer cfg s.shared f (s.fibers f) ev phase b p rest answer = some r) :
    Changes cfg s f r := by
  obtain ⟨i, raw, waiting, -⟩ := inv.agree_at at_
  have job : (s.fibers f).pc.job cfg = (ev.erase phase b rest).aimed p b := by
    rw [at_]
    rfl
  obtain ⟨sh, out, tried, slots, goes⟩ := preAnswer_moves waiting stepped
  have grows := grows_of_eq slots (tableStep_others tried)
  have frames : sh.frames = s.shared.frames := by rw [tableStep_table tried]
  rcases goes with ⟨rfl, -, rfl⟩ | ⟨rfl, -, rfl⟩
  · exact Or.inl ⟨grows, .quiet frames job.symm (fun _ => trivial) (Or.inl rfl)⟩
  · exact Or.inl ⟨grows, .giveUp ev b p _ job frames (job_next cfg ev phase rest)
      (lands_next cfg ev phase rest).inEvict rfl⟩

theorem changes_evCollapse {ev : Eviction} {phase : Phase} {b p : Nat} {rest : List Nat}
    (inv : Inv cfg s) (at_ : (s.fibers f).pc = .evCollapse ev phase b p rest)
    (stepped : evCollapse cfg s.shared f (s.fibers f) ev phase b p rest = some r) :
    Changes cfg s f r := by
  obtain ⟨sh, out, pc', tried, entries, rfl, goes⟩ := evCollapse_moves (inv.agree_at at_) stepped
  have grows := SameEntries.grows entries (tableStep_others tried)
  have frames : sh.frames = s.shared.frames := by rw [tableStep_table tried]
  rcases goes with ⟨rfl, -⟩ | ⟨rfl, -⟩
  · exact Or.inl ⟨grows, .quiet frames rfl id (Or.inl rfl)⟩
  · exact Or.inl ⟨grows, .quiet frames (by rw [at_]; rfl) (fun _ => trivial) (Or.inl rfl)⟩

end Cases

theorem changes_holder {sh : Shared n} {pc pc' : Pc} {frame : Frame} {fib : Fiber} (lock : Held)
    (at_ : (s.fibers f).pc = pc) (member : lock ∈ pc.locks) (kind : lock.kind = .exclusive)
    (does : Section pc pc' lock.bid (s.shared.frames lock.bid) frame)
    (frames : sh.frames = (s.shared.setFrame lock.bid frame).frames)
    (table : sh.table = s.shared.table) (client : pc.inEvict = false ∧ pc'.inEvict = false)
    (next : fib.pc = pc') : Changes cfg s f ⟨sh, fib, .silent⟩ := by
  subst next at_
  exact Change.changes (.holder lock frame (List.mem_append_left _ member) kind does frames client rfl)
    table

theorem changes_owner {sh : Shared n} {pc pc' : Pc} {b : Nat} {frame : Frame}
    (at_ : (s.fibers f).pc = pc) (member : b ∈ pc.owned cfg) (still : b ∈ pc'.owned cfg)
    (locks : pc'.locks = []) (frames : sh.frames = (s.shared.setFrame b frame).frames)
    (counts : frame.mods = (s.shared.frames b).mods ∧ frame.saved = (s.shared.frames b).saved)
    (table : sh.table = s.shared.table) (client : pc.inEvict = false ∧ pc'.inEvict = false) :
    Changes cfg s f ⟨sh, { s.fibers f with pc := pc' }, .silent⟩ := by
  subst at_
  exact Change.changes (.owner b frame member still locks frames counts client rfl) table

/-! ### One step -/

section Steps

variable {choice : Nat} (inv : Inv cfg s)
  (undisturbed : Undisturbed cfg.table s.shared.table (.step f false))
  (stepped : stepFiber cfg s.shared f (s.fibers f) choice = some r)

include inv stepped

include undisturbed in
theorem changes_fixing (part : (s.fibers f).pc.part = .fixing) : Changes cfg s f r := by
  cases at_ : (s.fibers f).pc <;> rw [at_] at part <;> try cases part
  all_goals
    have ok := inv.ok_at at_
    simp only [stepFiber, at_] at stepped
  case fixLookup =>
    exact changes_lookup inv (inv.agree_at at_) undisturbed (by rw [at_]; exact ⟨rfl, rfl⟩)
      (fun _ => ⟨rfl, rfl⟩) ⟨(lands_missing cfg none).inEvict, (lands_missing cfg none).locks⟩ stepped
  case fixLock fx b w =>
    have again : Changes cfg s f ⟨s.shared, { s.fibers f with pc := fx.conflict }, .silent⟩ :=
      changes_land at_ rfl rfl rfl (lands_conflict cfg ok.1)
    simp only [fixLock] at stepped
    split at stepped
    · cases stepped
      exact again
    next w' lockable =>
      split at stepped <;> cases stepped
      next here => exact Change.changes (.lock fx b w w' at_ lockable here rfl rfl rfl) rfl
      next => exact again
  case fixPidLocked fx b =>
    have pid : (s.shared.frames b).pid = fx.pid :=
      inv.mapped _ _ (inv.locks_at at_ (fx.lock b) (by simp [Pc.locks]))
    simp only [fixPidLocked, pid, if_true] at stepped
    cases stepped
    exact Change.changes (.fixed fx b at_ rfl rfl rfl) rfl
  case undoLoad | undoStore => exact ok.elim
  -- the remaining steps read and do not change a frame
  all_goals
    try simp only [go] at stepped
    split at stepped <;> cases stepped
    all_goals first
      | exact changes_go at_ rfl rfl rfl fun _ => trivial
      | exact changes_land at_ rfl rfl rfl (lands_start cfg ok)
      | exact changes_land at_ rfl rfl rfl (lands_mismatch cfg)
      | exact changes_land at_ rfl rfl rfl (lands_conflict cfg ok.1)

include undisturbed in
theorem changes_guarding (part : (s.fibers f).pc.part = .guarding) : Changes cfg s f r := by
  cases at_ : (s.fibers f).pc <;> rw [at_] at part <;> try cases part
  all_goals
    have ok := inv.ok_at at_
    simp only [stepFiber, at_] at stepped
  case optLookup =>
    exact changes_lookup inv (inv.agree_at at_) undisturbed (by rw [at_]; exact ⟨rfl, rfl⟩)
      (fun _ => ⟨rfl, rfl⟩) ⟨rfl, rfl⟩ stepped
  case optMark p b w =>
    simp only [optMark] at stepped
    split at stepped <;> cases stepped
    next here =>
      have mode : (word s b).mode = unlocked := by
        rw [word, here]
        exact ok.2
      refine Change.changes (.mark b marked ?_ (Or.inr rfl) ?_ (by rw [at_]; rfl) rfl rfl) rfl
      · exact (free_iff _).mpr (Or.inl mode)
      · rw [word, here]
        rfl
    next => exact changes_go at_ rfl rfl rfl fun _ => trivial
  case optPidAgain g =>
    simp only [optPidAgain] at stepped
    split at stepped <;> cases stepped
    · exact Change.changes (.quiet rfl (by rw [at_]; rfl) (fun _ => trivial)
        (Or.inr (Or.inl ⟨g, rfl⟩))) rfl
    · exact changes_go at_ rfl rfl rfl fun _ => trivial
  case valPid g | valIo g | valEvicting g =>
    split at stepped <;> cases stepped
    all_goals first
      | exact changes_go at_ rfl rfl rfl fun _ => trivial
      | exact Change.changes (.validated g false rfl rfl (by rw [at_]; rfl) rfl (fun same => by cases same)) rfl
  case valLoad g =>
    simp only [valLoad] at stepped
    cases stepped
    refine Change.changes (.validated g _ rfl rfl (by rw [at_]; rfl) rfl fun ok => ⟨at_, ?_⟩) rfl
    simp only [Bool.or_eq_true, Bool.and_eq_true, beq_iff_eq] at ok
    rcases ok with same | ⟨same, -⟩
    · rw [version, word, same]
    · exact same.symm
  all_goals
    try simp only [go, optLoad] at stepped
    split_ifs at stepped <;> cases stepped <;> exact changes_go at_ rfl rfl rfl fun _ => trivial

theorem changes_unfixing (part : (s.fibers f).pc.part = .unfixing) : Changes cfg s f r := by
  cases at_ : (s.fibers f).pc <;> rw [at_] at part <;> try cases part
  all_goals
    have ok := inv.ok_at at_
    simp only [stepFiber, at_] at stepped
  case unfixSMode | unfixXMode | unfixSLoad | unfixXLoad =>
    try split at stepped
    all_goals cases stepped
    all_goals first
      | exact changes_go at_ rfl rfl rfl fun _ => trivial
      | exact changes_go at_ rfl rfl rfl id
  case unfixSCas lock w =>
    simp only [unfixSCas] at stepped
    split at stepped <;> cases stepped
    next here => exact Change.changes (.unlockS lock w at_ here rfl rfl rfl) rfl
    next => exact changes_go at_ rfl rfl rfl fun _ => trivial
  case unfixXDirty lock =>
    cases stepped
    exact changes_holder lock at_ (by simp [Pc.locks]) ok
      (.setDirty lock rfl rfl rfl) rfl rfl ⟨rfl, rfl⟩ rfl
  case unfixXStore lock w =>
    simp only [unfixXStore] at stepped
    cases stepped
    exact changes_holder lock at_ (by simp [Pc.locks]) ok.1
      (.unlock lock w rfl rfl rfl) rfl rfl ⟨rfl, rfl⟩ rfl

include undisturbed in
theorem changes_acquiring (part : (s.fibers f).pc.part = .acquiring) : Changes cfg s f r := by
  cases at_ : (s.fibers f).pc <;> rw [at_] at part <;> try cases part
  all_goals simp only [stepFiber, at_] at stepped
  case refill =>
    simp only [refill] at stepped
    split at stepped
    · cases stepped
      exact changes_go at_ rfl rfl rfl fun _ => trivial
    · obtain ⟨pc', next, goes⟩ := Option.bind_eq_some_iff.mp stepped
      cases goes
      exact changes_land at_ rfl rfl rfl (lands_afterRefill next)
  case allocAccum | faultAccum =>
    cases stepped
    exact changes_go at_ (accumPhysUsed_frames s.shared _) (accumPhysUsed_table s.shared _) rfl
      fun _ => trivial
  case faultLookup =>
    exact changes_lookup inv (inv.agree_at at_) undisturbed (by rw [at_]; exact ⟨rfl, rfl⟩)
      (fun _ => ⟨rfl, rfl⟩)
      ⟨(lands_faultRefill cfg _ _ _ _).inEvict, (lands_faultRefill cfg _ _ _ _).locks⟩ stepped
  all_goals
    try simp only [go, acquire, pop] at stepped
    repeat' split at stepped
    all_goals cases stepped
    all_goals first
      | exact changes_go at_ rfl rfl rfl fun _ => trivial
      | exact changes_land at_ rfl rfl rfl (lands_checkWatermark cfg _ _)
      | exact changes_land at_ rfl rfl rfl (lands_resume cfg none _)

include undisturbed in
theorem changes_loading (part : (s.fibers f).pc.part = .loading) : Changes cfg s f r := by
  cases at_ : (s.fibers f).pc <;> rw [at_] at part <;> try cases part
  all_goals simp only [stepFiber, at_] at stepped
  case rebindLoad | loseLoad | readLoad =>
    cases stepped
    first
      | exact changes_go at_ rfl rfl rfl fun _ => trivial
      | exact changes_go at_ rfl rfl rfl id
  case loseAccum =>
    cases stepped
    exact changes_go at_ (accumPhysUsed_frames s.shared _) (accumPhysUsed_table s.shared _) rfl
      fun _ => trivial
  case loseLookup p caller =>
    exact changes_lookup inv (inv.agree_at at_) undisturbed (by rw [at_]; exact ⟨rfl, rfl⟩)
      (fun _ => ⟨rfl, rfl⟩)
      ⟨(lands_resume cfg none caller).inEvict, (lands_resume cfg none caller).locks⟩ stepped
  case rebindStore setup b w | setFrame setup b | loseStore p b caller w =>
    cases stepped
    exact changes_owner (b := b) at_ (by simp [Pc.owned]) (by simp [Pc.owned]) rfl rfl
      ⟨rfl, rfl⟩ rfl ⟨rfl, rfl⟩
  case setFlag setup b =>
    simp only [setFlag] at stepped
    cases setup <;> cases stepped <;>
      exact changes_owner (b := b) at_ (by simp [Pc.owned]) (by simp [Pc.owned]) rfl rfl
      ⟨rfl, rfl⟩ rfl ⟨rfl, rfl⟩
  case insert => exact changes_insert inv at_ stepped
  case memset p b =>
    simp only [memset] at stepped
    cases stepped
    exact changes_holder ⟨.exclusive, p, b⟩ at_ (by simp [Pc.locks]) rfl (.modify rfl)
      rfl rfl ⟨rfl, rfl⟩ rfl
  case read p b caller =>
    cases stepped
    exact changes_holder ⟨.exclusive, p, b⟩ at_ (by simp [Pc.locks]) rfl
      (.load p caller rfl rfl) rfl rfl ⟨rfl, rfl⟩ rfl
  case readIo p b caller =>
    cases stepped
    exact changes_holder ⟨.exclusive, p, b⟩ at_ (by simp [Pc.locks]) rfl
      (.clearIo p caller rfl rfl) rfl rfl ⟨rfl, rfl⟩ rfl
  case readStore p b caller w =>
    cases stepped
    exact changes_holder ⟨.exclusive, p, b⟩ at_ (by simp [Pc.locks]) rfl
      (.publish p caller w rfl rfl) rfl rfl ⟨rfl, (lands_resume cfg none caller).inEvict⟩ rfl
  case loseRelease =>
    cases stepped
    refine changes_go at_ ?_ ?_ rfl fun _ => trivial
    all_goals
      unfold releaseFreeBid
      dsimp only
      split <;> rfl

omit inv in
theorem changes_sweeping (part : (s.fibers f).pc.part = .sweeping) : Changes cfg s f r := by
  cases at_ : (s.fibers f).pc <;> rw [at_] at part <;> try cases part
  all_goals simp only [stepFiber, at_] at stepped
  case evMarkCas ev sw p b w =>
    split at stepped <;> cases stepped
    · exact changes_sweep at_ rfl
    next w' cleared =>
      split
      next here =>
        obtain ⟨mode, rfl⟩ := clearMark_spec cleared
        refine Change.changes (.mark b unlocked ?_ (Or.inl rfl) ?_ ?_ (lands_sweepNext cfg ev sw).locks
          rfl) rfl
        · rw [free_iff, word, here]
          exact Or.inr mode
        · rw [word, here]
          rfl
        · rw [at_]
          exact job_sweepNext cfg ev sw
      next => exact changes_sweep at_ rfl
  case evSet ev sw p b =>
    cases stepped
    exact Change.changes (.claim ev sw p b at_ rfl rfl rfl) rfl
  case evDirty ev sw p b =>
    simp only [evDirty] at stepped
    split at stepped <;> cases stepped
    next => exact changes_go at_ rfl rfl rfl fun _ => trivial
    next clean =>
      exact Change.changes (.settle ev b (by rw [at_]; rfl) (by simpa [word] using clean) rfl
        (job_chosen cfg _ sw) (lands_chosen cfg _ sw).inEvict rfl) rfl
  case evClean ev sw p b =>
    simp only [evClean] at stepped
    cases stepped
    exact Change.changes (.clean ev b (by rw [at_]; rfl) rfl (job_chosen cfg _ sw)
        (lands_chosen cfg _ sw).inEvict rfl) rfl
  case evUnreserve =>
    simp only [evUnreserve] at stepped
    cases stepped
    refine changes_go at_ (by split <;> rfl) (by split <;> rfl) ?_ fun _ => ?_
    · split
      next empty =>
        rw [job_next]
        simp [Pc.job, Eviction.sweeping, Eviction.erasing, Eviction.after, Eviction.selected, empty]
      next => rfl
    · split
      · exact ready_of_unlocked (lands_next cfg _ _ _).locks
      · trivial
  -- the others read, pass a frame over, or find nothing to do
  all_goals
    try simp only [go, evLoadInflight, evReserve, evSize, evScan] at stepped
    repeat' split at stepped
    all_goals cases stepped
    all_goals first
      | exact changes_go at_ rfl rfl rfl fun _ => trivial
      | exact changes_sweep at_ rfl
      | exact Change.changes (.quiet rfl (by rw [at_]; rfl) (fun _ => trivial) (.inr (.inr rfl))) rfl

theorem changes_erasing (part : (s.fibers f).pc.part = .erasing) : Changes cfg s f r := by
  cases at_ : (s.fibers f).pc <;> rw [at_] at part <;> try cases part
  all_goals simp only [stepFiber, at_] at stepped
  case preEvicting | preMode | preDirty | preIo =>
    try simp only [go] at stepped
    split at stepped <;> cases stepped <;> exact changes_go at_ rfl rfl rfl fun _ => trivial
  case evNowPid ev ph b rest =>
    cases stepped
    exact Change.changes (.aim ev ph b rest at_ rfl rfl rfl) rfl
  case evIssue ev todo pending =>
    simp only [evIssue] at stepped
    split at stepped <;> cases stepped
    · exact changes_go at_ rfl rfl rfl fun _ => trivial
    · exact Change.changes (.issue ev _ _ pending (by rw [at_]; rfl) rfl rfl rfl rfl) rfl
  case evAwait ev pending =>
    simp only [evAwait] at stepped
    split at stepped
    · split at stepped <;> cases stepped
      next empty =>
        refine changes_go at_ rfl rfl ?_ fun _ => ready_of_unlocked (lands_next cfg _ _ _).locks
        rw [job_next, empty]
        rfl
    next wr here =>
      cases stepped
      exact Change.changes (.complete ev pending choice wr (by rw [at_]; rfl) here rfl rfl rfl
        rfl)
        (stored_table _ _)
  case evErase => exact changes_evErase inv at_ stepped
  case preAnswer => exact changes_preAnswer inv at_ stepped
  case evCollapse => exact changes_evCollapse inv at_ stepped
  case evPost ev ph b p rest =>
    simp only [evPost] at stepped
    cases stepped
    exact Change.changes (.retire ev ph b p rest at_ rfl (job_next cfg _ ph rest)
      (lands_next cfg _ ph rest).inEvict rfl) rfl
  case evRelease ev ph pool =>
    simp only [evRelease] at stepped
    cases stepped
    refine Change.changes (.release ev (ev.after ph []) _
      (ev.freed.filter fun bid => pool + 1 ≤ cfg.freePoolIndexForBid bid)
      (ev.freed.filter fun bid => cfg.freePoolIndexForBid bid == pool)
      (by rw [at_]; rfl) rfl (fun b member => ?_) ?_ (by dsimp only; split <;> rfl) rfl) rfl
    · simp only [List.mem_filter, decide_eq_true_eq, beq_iff_eq] at member ⊢
      have := member.2
      by_cases here : cfg.freePoolIndexForBid b = pool
      · exact Or.inr ⟨member.1, here⟩
      · exact Or.inl ⟨member.1, by omega⟩
    · split
      next => rfl
      next last =>
        have empty : ev.freed.filter (fun bid => pool + 1 ≤ cfg.freePoolIndexForBid bid) = [] := by
          refine List.filter_eq_nil_iff.mpr fun b _ => ?_
          have lt : cfg.freePoolIndexForBid b < cfg.poolCount := pool_lt cfg b
          have beyond : ¬ pool + 1 ≤ cfg.freePoolIndexForBid b := by omega
          simpa using beyond
        rw [empty]
        rfl
  case evUsed ev ph =>
    simp only [evUsed] at stepped
    cases stepped
    cases ph with
    | clean =>
      exact changes_go at_ rfl rfl (job_startWritten cfg _) fun _ =>
        ready_of_unlocked (lands_startWritten cfg _).locks
    | written => exact changes_go at_ rfl rfl rfl fun _ => trivial
  case evDone ev =>
    simp only [evDone] at stepped
    cases stepped
    exact Change.changes (.done ev at_ rfl rfl rfl) rfl

include undisturbed

/-- **Every step makes one of these changes.** -/
theorem step_change : Changes cfg s f r := by
  cases part : (s.fibers f).pc.part with
  | idle => exact absurd part (part_ne_idle stepped)
  | fixing => exact changes_fixing inv undisturbed stepped part
  | guarding => exact changes_guarding inv undisturbed stepped part
  | unfixing => exact changes_unfixing inv stepped part
  | acquiring => exact changes_acquiring inv undisturbed stepped part
  | loading => exact changes_loading inv undisturbed stepped part
  | sweeping => exact changes_sweeping stepped part
  | erasing => exact changes_erasing inv stepped part

end Steps

theorem call_change {op : Op} (idle : (s.fibers f).pc = .idle)
    (called : call cfg s.shared f (s.fibers f) op = some r) : Changes cfg s f r := by
  have quiet : ∀ {fib : Fiber}, fib.pc.job cfg = Job.none → Ready s.shared.frames fib.pc →
      Changes cfg s f ⟨s.shared, fib, .silent⟩ := fun job ready => Change.changes (.quiet rfl (by rw [job, idle]; rfl) (fun _ => ready) (Or.inl rfl)) rfl
  cases op with
  | fixS p | fixX p policy | fixO p | release g | allocPage | handleFault p =>
    cases called
    exact quiet rfl trivial
  | fixSFrom g | fixXFrom g policy | validateO g | evict =>
    simp only [BufferMgr.call] at called
    split at called <;> cases called
    exact quiet rfl trivial
  | unfix lock =>
    simp only [BufferMgr.call] at called
    split at called <;> cases called
    cases kind : lock.kind <;> exact quiet rfl trivial
  | modify lock =>
    simp only [BufferMgr.call] at called
    split at called <;> cases called
    next mine =>
      have held : lock ∈ (s.fibers f).locks := List.mem_append_right _ mine.1
      exact Change.changes (.holder lock _ held mine.2 (.modify rfl) rfl
        ⟨by rw [idle]; rfl, rfl⟩ rfl) rfl

def Act.fiber : Act n → Option (Fin n)
  | .call f _ => some f
  | .step f _ => some f
  | _ => none

/-- An action is a change by one fiber, or the start or stop of a worker. -/
theorem exec_change {s' : State n} {out : Out} {act : Act n} (inv : Inv cfg s)
    (undisturbed : ∀ f choice, act = .step f choice →
      Undisturbed cfg.table s.shared.table (.step f false))
    (execs : exec cfg s act = some (s', out)) :
    (∃ f r, act.fiber = some f ∧ s' = s.after f r.shared r.fiber ∧ out = r.out ∧
      Changes cfg s f r) ∨
    (s'.shared.frames = s.shared.frames ∧ s'.shared.table = s.shared.table ∧
      s'.fibers = s.fibers ∧ out = .silent) := by
  cases act with
  | call f op =>
    simp only [exec] at execs
    split at execs
    next allowed =>
      obtain ⟨r, called, put⟩ := Option.map_eq_some_iff.mp execs
      cases put
      exact Or.inl ⟨f, r, rfl, rfl, rfl, call_change (isIdle_iff.mp allowed.1) called⟩
    next => cases execs
  | step f choice =>
    obtain ⟨r, stepped, put⟩ := Option.map_eq_some_iff.mp execs
    cases put
    exact Or.inl ⟨f, r, rfl, rfl, rfl, step_change inv (undisturbed f choice rfl) stepped⟩
  | initWorker w | shutdownWorker w =>
    simp only [exec] at execs
    split at execs <;> cases execs
    exact Or.inr ⟨rfl, rfl, rfl, rfl⟩

end UringDb.BufferMgr
