import UringDb.BufferMgr.Effects

/-!
# Changes of one frame

One lemma for each way a step changes a frame's word or page id: a flag or mark within
the same version, a lock taken, a lock given back, a version bump by the frame's holder, a
new page id by its owner, and the clearing of the EvictingBit.
-/
namespace UringDb.BufferMgr

open PageState PageTable

variable {n : Nat} {cfg : Config n} {s : State n} {f : Fin n} {fib : Fiber}

@[simp]
theorem setState_frames_self (sh : Shared n) (b : Nat) (w : Word) :
    (sh.setState b w).frames b = { sh.frames b with state := w } := by
  simp [Shared.setState]

theorem setState_frames_ne (sh : Shared n) (b : Nat) (w : Word) {c : Nat} (ne : c ≠ b) :
    (sh.setState b w).frames c = sh.frames c := by
  simp [Shared.setState, setFrame_ne _ _ _ ne]

theorem word_setState (f : Fin n) (fib : Fiber) (b : Nat) (w : Word) :
    word (s.after f (s.shared.setState b w) fib) b = w := by
  simp [word]

theorem version_setState (f : Fin n) (fib : Fiber) (b : Nat) (w : Word) :
    version (s.after f (s.shared.setState b w) fib) b = w.version := by
  simp [version, word_setState]

theorem kept_setState {b : Nat} {w : Word} (committed : fib.pc.committed = (s.fibers f).pc.committed)
    (evicting : w.version = version s b → (word s b).evicting = true → w.evicting = true) (c : Nat) :
    Kept cfg s (s.after f (s.shared.setState b w) fib) c where
  pid := by
    by_cases same : c = b
    · subst same
      simp
    · rw [after_shared, setState_frames_ne _ _ _ same]
  mapped := fun p mapped => Or.inl mapped
  committed := fun p at_ => (committed_after s f _ fib committed).mpr at_
  evicting := by
    by_cases same : c = b
    · subst same
      rw [version_setState, word_setState]
      exact evicting
    · simp only [word, after_shared, setState_frames_ne _ _ _ same]
      exact fun _ set => set
  sections := fun _ _ _ _ => rfl

theorem later_setState {b : Nat} {w : Word} (later : version s b ≤ w.version) (c : Nat) :
    version s c ≤ version (s.after f (s.shared.setState b w) fib) c := by
  by_cases same : c = b
  · subst same
    rwa [version_setState]
  · simp only [version, word, after_shared, setState_frames_ne _ _ _ same, le_refl]

theorem exclusives_congr {fib fib' : Fiber} (locks : fib'.locks = fib.locks)
    (setsUp : fib'.pc.setsUp = fib.pc.setsUp) (c : Nat) : fib'.exclusives c = fib.exclusives c := by
  simp only [Fiber.exclusives, locks, setsUp]

theorem shareds_congr {fib fib' : Fiber} (locks : fib'.locks = fib.locks) (c : Nat) :
    fib'.shareds c = fib.shareds c := by
  simp only [Fiber.shareds, locks]

/-- Guards survive a change of one word that no current guard is hurt by. -/
theorem guards_setState {b : Nat} {w : Word} (later : version s b ≤ w.version)
    (committed : fib.pc.committed = (s.fibers f).pc.committed)
    (evicting : w.version = version s b → (word s b).evicting = true → w.evicting = true)
    {g : Guard} (ok : GuardOk cfg s g) : GuardOk cfg (s.after f (s.shared.setState b w) fib) g :=
  ok.stable (later_setState later g.bid) fun _ => kept_setState committed evicting g.bid

theorem own_setState {b : Nat} {w : Word} (inv : Inv cfg s) (later : version s b ≤ w.version)
    (committed : fib.pc.committed = (s.fibers f).pc.committed)
    (evicting : w.version = version s b → (word s b).evicting = true → w.evicting = true)
    (pc : PcOk cfg (s.after f (s.shared.setState b w) fib) fib.pc)
    (agree : Agree fib.pc (s.shared.table.pcs f))
    (handed : ∀ g ∈ fib.pc.guard, g ∈ fib.guards) (alone : fib.pc.inEvict = true → fib.guards = [])
    (guards : ∀ g ∈ fib.guards, g ∈ (s.fibers f).guards)
    (locks : ∀ lock ∈ fib.locks, Mapped cfg s lock.pid lock.bid) :
    FiberOk cfg (s.after f (s.shared.setState b w) fib) f :=
  fiberOk_after pc agree handed alone (fun g member =>
    guards_setState later committed evicting ((inv.fibers f).guards g (guards g member))) locks

theorem free_iff (w : Word) : w.free = true ↔ w.mode = unlocked ∨ w.mode = marked := by
  simp [Word.free]

theorem Inv.touch {b : Nat} {w : Word} (inv : Inv cfg s) (sameVersion : w.version = version s b)
    (evicting : (word s b).evicting = true → w.evicting = true)
    (mode : w.mode = (word s b).mode ∨ (w.free = true ∧ (word s b).free = true))
    (owned : fib.pc.owned cfg = (s.fibers f).pc.owned cfg)
    (locks : fib.locks = (s.fibers f).locks) (setsUp : fib.pc.setsUp = (s.fibers f).pc.setsUp)
    (committed : fib.pc.committed = (s.fibers f).pc.committed)
    (pc : PcOk cfg (s.after f (s.shared.setState b w) fib) fib.pc)
    (agree : Agree fib.pc (s.shared.table.pcs f))
    (handed : ∀ g ∈ fib.pc.guard, g ∈ fib.guards) (alone : fib.pc.inEvict = true → fib.guards = [])
    (guards : ∀ g ∈ fib.guards, g ∈ (s.fibers f).guards) :
    Inv cfg (s.after f (s.shared.setState b w) fib) := by
  have exclusives := exclusives_congr locks setsUp
  have shareds := shareds_congr locks
  have kept : ∀ c, Kept cfg s (s.after f (s.shared.setState b w) fib) c :=
    kept_setState committed fun _ => evicting
  refine inv.frame b rfl (fun c ne => setState_frames_ne _ _ _ ne) (fun _ => rfl) (fun p here => ?_)
    (fun c => by rw [owned]) ?_ (fun c _ => exclusives c) (fun c _ => shareds c) (fun u ne => ?_)
    (own_setState inv sameVersion.ge committed (fun _ => evicting) pc agree handed alone guards
      (locks ▸ (inv.fibers f).locks))
  · simpa using inv.mapped p b here
  · have x := sum_after s f (s.shared.setState b w) fib fun fib => fib.exclusives b
    have y := sum_after s f (s.shared.setState b w) fib fun fib => fib.shareds b
    have old := inv.locks b
    rw [exclusives b] at x
    rw [shareds b] at y
    simp only [free_iff, unlocked, marked] at mode
    unfold LockOk BufferMgr.exclusives BufferMgr.shareds at old ⊢
    rw [word_setState]
    simp only [locked, marked, maxShared] at old ⊢
    omega
  · refine inv.rely_frame b ne rfl (fun p c _ at_ => (kept c).committed p at_)
      (fun c ne => setState_frames_ne _ _ _ ne) (fun _ _ _ _ => rfl) (later_setState sameVersion.ge b)
      (fun _ => kept b) (fun _ => ?_) (fun p at_ => ?_)
    · rw [version_setState]
      exact ⟨sameVersion, by simp⟩
    · obtain ⟨-, bit, free⟩ := (inv.fibers u).pc.committed at_
      simp only [setState_frames_self]
      refine ⟨evicting bit, ?_⟩
      rcases mode with same | ⟨free', -⟩
      · rw [free_iff] at free ⊢
        rwa [same]
      · exact free'

/-! ### Locks -/

theorem exclusives_cons {fib fib' : Fiber} {lock : Held} (locks : fib'.locks = lock :: fib.locks)
    (sets : fib'.pc.setsUp = fib.pc.setsUp) (c : Nat) :
    fib'.exclusives c =
      fib.exclusives c + if lock.kind = .exclusive ∧ lock.bid = c then 1 else 0 := by
  simp only [Fiber.exclusives, locks, sets, List.countP_cons, Bool.and_eq_true, beq_iff_eq]
  omega

theorem shareds_cons {fib fib' : Fiber} {lock : Held} (locks : fib'.locks = lock :: fib.locks)
    (c : Nat) :
    fib'.shareds c = fib.shareds c + if lock.kind = .shared ∧ lock.bid = c then 1 else 0 := by
  simp only [Fiber.shareds, locks, List.countP_cons, Bool.and_eq_true, beq_iff_eq]

theorem lockWord_spec {fx : Fix} {w w' : Word} (lockable : fx.lockWord w = some w') :
    w'.version = w.version ∧ w'.evicting = w.evicting ∧
    ((fx.kind = .shared ∧ ((w.mode < maxShared ∧ w'.mode = w.mode + 1) ∨
        (w.mode = marked ∧ w'.mode = 1))) ∨
     (fx.kind = .exclusive ∧ w.free = true ∧ w'.mode = locked)) := by
  unfold Fix.lockWord at lockable
  split at lockable
  next kind =>
    unfold Word.lockS at lockable
    split at lockable
    next below => cases lockable; exact ⟨rfl, rfl, Or.inl ⟨kind, Or.inl ⟨below, rfl⟩⟩⟩
    next =>
      split at lockable
      next mark => cases lockable; exact ⟨rfl, rfl, Or.inl ⟨kind, Or.inr ⟨mark, rfl⟩⟩⟩
      next => cases lockable
  next kind =>
    unfold Word.lockXDirty at lockable
    split at lockable
    next free => cases lockable; exact ⟨rfl, rfl, Or.inr ⟨kind, free, rfl⟩⟩
    next => cases lockable

theorem Inv.not_committed (inv : Inv cfg s) {p b : Nat} (clear : (word s b).evicting = false) :
    ¬ Committed s p b := by
  rintro ⟨u, at_⟩
  have := ((inv.fibers u).pc.committed at_).2.1
  rw [clear] at this
  cases this

theorem Inv.lock {fx : Fix} {b : Nat} {w w' : Word} (inv : Inv cfg s)
    (at_ : (s.fibers f).pc = .fixLock fx b w) (lockable : fx.lockWord w = some w')
    (here : word s b = w) :
    Inv cfg (s.after f (s.shared.setState b w') { s.fibers f with pc := .fixPidLocked fx b }) := by
  have ok := inv.fibers f
  have known : PcOk cfg s (.fixLock fx b w) := at_ ▸ ok.pc
  have current : w.version = version s b := by rw [← here]; rfl
  obtain ⟨ref, bit⟩ := known.2.2 current
  have clear : w.evicting = false := by
    by_contra set
    rw [Bool.not_eq_false] at set
    exact Bool.noConfusion (bit set).1
  have mapped : Mapped cfg s fx.pid b :=
    ref.2.resolve_right (inv.not_committed (here ▸ clear))
  obtain ⟨version', evicting', kinds⟩ := lockWord_spec lockable
  have committed : (Pc.fixPidLocked fx b).committed = (s.fibers f).pc.committed := by rw [at_]; rfl
  have stays : w'.version = version s b → (word s b).evicting = true → w'.evicting = true := by
    rw [here, clear]
    exact fun _ h => (by cases h)
  have locks : ({ s.fibers f with pc := .fixPidLocked fx b } : Fiber).locks =
      fx.lock b :: (s.fibers f).locks := by
    simp [Fiber.locks, Pc.locks, at_]
  have later : version s b ≤ w'.version := by omega
  have xs := exclusives_cons locks (by rw [at_]; rfl)
  have ss := shareds_cons locks
  simp only [Fix.lock] at xs ss
  have kept : ∀ c, Kept cfg s (s.after f (s.shared.setState b w')
      { s.fibers f with pc := .fixPidLocked fx b }) c := kept_setState committed stays
  refine inv.frame b rfl (fun c ne => setState_frames_ne _ _ _ ne) (fun _ => rfl) (fun p at' => ?_)
    (fun c => by rw [at_]; rfl) ?_ (fun c ne => ?_) (fun c ne => ?_) (fun u ne => ?_)
    (own_setState inv later committed stays trivial ?_ (fun g h => (by cases h)) (fun h => (by cases h))
      (fun g member => member) ?_)
  · simpa using inv.mapped p b at'
  · have x := sum_after s f (s.shared.setState b w')
      { s.fibers f with pc := .fixPidLocked fx b } fun fib => fib.exclusives b
    have y := sum_after s f (s.shared.setState b w')
      { s.fibers f with pc := .fixPidLocked fx b } fun fib => fib.shareds b
    have old := inv.locks b
    rw [xs b] at x
    rw [ss b] at y
    unfold LockOk BufferMgr.exclusives BufferMgr.shareds at old ⊢
    rw [word_setState]
    rw [here] at old
    simp only [free_iff, locked, marked, maxShared, unlocked] at old kinds ⊢
    rcases kinds with ⟨kind, modes⟩ | ⟨kind, modes⟩
    · simp only [kind, reduceCtorEq, false_and, if_false, true_and, if_true] at x y
      omega
    · simp only [kind, reduceCtorEq, false_and, if_false, true_and, if_true] at x y
      omega
  · simp [xs c, ne.symm]
  · simp [ss c, ne.symm]
  · refine inv.rely_frame b ne rfl (fun p c _ at' => (kept c).committed p at')
      (fun c ne => setState_frames_ne _ _ _ ne) (fun _ _ _ _ => rfl) (later_setState later b)
      (fun _ => kept b) (fun _ => ?_) (fun p at' => ?_)
    · rw [version_setState]
      exact ⟨by omega, by simp⟩
    · exact absurd ⟨u, at'⟩ (inv.not_committed (p := p) (here ▸ clear))
  · have agree := ok.agree
    rw [at_] at agree
    exact agree
  · intro lock member
    rw [locks] at member
    rcases List.mem_cons.mp member with rfl | member
    · exact mapped
    · exact ok.locks lock member

theorem Inv.unlockS {lock : Held} {w : Word} (inv : Inv cfg s)
    (at_ : (s.fibers f).pc = .unfixSCas lock w) (here : word s lock.bid = w) :
    Inv cfg (s.after f (s.shared.setState lock.bid w.unlockSMarked)
      { s.fibers f with pc := .idle }) := by
  have ok := inv.fibers f
  have kind : lock.kind = .shared := by
    have known := ok.pc
    rw [at_] at known
    exact known
  have locks : (s.fibers f).locks = lock :: ({ s.fibers f with pc := .idle } : Fiber).locks := by
    simp [Fiber.locks, Pc.locks, at_]
  have member : lock ∈ (s.fibers f).locks := by simp [locks]
  have mapped := ok.locks lock member
  have holds := (shared_of_lock member kind).trans_le (le_sum (fun u => (s.fibers u).shareds lock.bid) f)
  have committed : (Pc.idle).committed = (s.fibers f).pc.committed := by rw [at_]; rfl
  have sameVersion : w.unlockSMarked.version = version s lock.bid := by
    rw [version, here, Word.unlockSMarked]
    split <;> rfl
  have evicting : w.unlockSMarked.evicting = w.evicting := by
    rw [Word.unlockSMarked]
    split <;> rfl
  have modes : (w.mode = 1 ∧ w.unlockSMarked.mode = marked) ∨
      (w.mode ≠ 1 ∧ w.unlockSMarked.mode = w.mode - 1) := by
    rw [Word.unlockSMarked]
    split
    next last => exact Or.inl ⟨last, rfl⟩
    next more => exact Or.inr ⟨more, rfl⟩
  have stays : w.unlockSMarked.version = version s lock.bid → (word s lock.bid).evicting = true →
      w.unlockSMarked.evicting = true := by
    rw [here, evicting]
    exact fun _ set => set
  have xs := exclusives_cons locks (by rw [at_]; rfl)
  have ss := shareds_cons locks
  have kept : ∀ c, Kept cfg s (s.after f (s.shared.setState lock.bid w.unlockSMarked)
      { s.fibers f with pc := .idle }) c := kept_setState committed stays
  refine inv.frame lock.bid rfl (fun c ne => setState_frames_ne _ _ _ ne) (fun _ => rfl)
    (fun p at' => ?_) (fun c => by rw [at_]; rfl) ?_ (fun c ne => ?_) (fun c ne => ?_)
    (fun u ne => ?_)
    (own_setState inv sameVersion.ge committed stays trivial ?_ (fun g h => (by cases h))
      (fun h => (by cases h)) (fun g member => member) ?_)
  · simpa using inv.mapped p _ at'
  · have x := sum_after s f (s.shared.setState lock.bid w.unlockSMarked)
      { s.fibers f with pc := .idle } fun fib => fib.exclusives lock.bid
    have y := sum_after s f (s.shared.setState lock.bid w.unlockSMarked)
      { s.fibers f with pc := .idle } fun fib => fib.shareds lock.bid
    have old := inv.locks lock.bid
    rw [xs lock.bid] at x
    rw [ss lock.bid] at y
    simp only [kind, reduceCtorEq, false_and, if_false, true_and, if_true] at x y
    unfold LockOk BufferMgr.exclusives BufferMgr.shareds at old ⊢
    rw [word_setState]
    rw [here] at old
    simp only [locked, marked, maxShared] at old modes ⊢
    omega
  · have := xs c
    simp only [ne.symm, and_false, if_false, Nat.add_zero] at this
    exact this.symm
  · have := ss c
    simp only [ne.symm, and_false, if_false, Nat.add_zero] at this
    exact this.symm
  · refine inv.rely_frame lock.bid ne rfl (fun p c _ at' => (kept c).committed p at')
      (fun c ne => setState_frames_ne _ _ _ ne) (fun _ _ _ _ => rfl)
      (later_setState sameVersion.ge _) (fun _ => kept _) (fun _ => ?_) (fun p at' => ?_)
    · rw [version_setState]
      exact ⟨sameVersion, by simp⟩
    · exact absurd mapped (inv.committed_not_mapped ⟨u, at'⟩)
  · have agree := ok.agree
    rw [at_] at agree
    exact agree
  · intro other member
    exact ok.locks other (by simp [locks, member])

/-! ### Version bumps -/

theorem Inv.bump {b : Nat} {w : Word} {sh : Shared n} (inv : Inv cfg s)
    (table : sh.table = s.shared.table)
    (here : sh.frames b = { s.shared.frames b with state := w })
    (elsewhere : ∀ c, c ≠ b → sh.frames c = s.shared.frames c)
    (free : ∀ c, freeCount cfg sh c = freeCount cfg s.shared c)
    (sections : ∀ p c, c ≠ b → Mapped cfg s p c → sh.sections p = s.shared.sections p)
    (newer : version s b < w.version)
    (private_ : ∀ u, u ≠ f → (s.fibers u).exclusives b = 0 ∧ b ∉ (s.fibers u).pc.owned cfg)
    (owned : fib.pc.owned cfg = (s.fibers f).pc.owned cfg)
    (committed : fib.pc.committed = (s.fibers f).pc.committed)
    (locksAt : LockOk (s.after f sh fib) b)
    (exclusives : ∀ c, c ≠ b → fib.exclusives c = (s.fibers f).exclusives c)
    (shareds : ∀ c, c ≠ b → fib.shareds c = (s.fibers f).shareds c)
    (pc : PcOk cfg (s.after f sh fib) fib.pc) (agree : Agree fib.pc (s.shared.table.pcs f))
    (handed : fib.pc.guard = none) (alone : fib.pc.inEvict = false)
    (guards : fib.guards = (s.fibers f).guards)
    (locks : ∀ lock ∈ fib.locks, lock ∈ (s.fibers f).locks) :
    Inv cfg (s.after f sh fib) := by
  have mapped : ∀ p c, Mapped cfg (s.after f sh fib) p c ↔ Mapped cfg s p c := fun p c => by
    simp only [Mapped, after_shared, table]
  have bumped : version (s.after f sh fib) b = w.version := by simp [version, word, here]
  have later : ∀ c, version s c ≤ version (s.after f sh fib) c := fun c => by
    by_cases same : c = b
    · subst same
      omega
    · simp only [version, word, after_shared, elsewhere c same, le_refl]
  have kept : ∀ c, Kept cfg s (s.after f sh fib) c := fun c =>
    { pid := by
        by_cases same : c = b
        · subst same
          simp [here]
        · rw [after_shared, elsewhere c same]
      mapped := fun p at_ => Or.inl ((mapped p c).mpr at_)
      committed := fun p at_ => (committed_after s f sh fib committed).mpr at_
      evicting := fun still set => by
        by_cases same : c = b
        · subst same
          omega
        · simpa only [word, after_shared, elsewhere c same] using set
      sections := fun still p at_ _ => by
        by_cases same : c = b
        · subst same
          omega
        · exact sections p c same at_ }
  refine inv.frame b table elsewhere free (fun p at_ => ?_) (fun c => by rw [owned]) locksAt
    exclusives shareds (fun u ne => ?_) ?_
  · rw [here]
    exact inv.mapped p b at_
  · refine inv.rely_frame b ne table (fun p c _ at_ => (kept c).committed p at_) elsewhere sections
      (later b) (fun _ => kept b) (fun mine => ?_) (fun p at_ => ?_)
    · rcases mine with holds | member
      · have := (private_ u ne).1
        omega
      · exact absurd member (private_ u ne).2
    · exact absurd (committed_owned at_) (private_ u ne).2
  · exact fiberOk_after pc (table ▸ agree) (by simp [handed]) (by simp [alone])
      (fun g member =>
        ((inv.fibers f).guards g (guards ▸ member)).stable (later g.bid) (fun _ => kept g.bid))
      (fun lock member => (mapped _ _).mpr ((inv.fibers f).locks lock (locks lock member)))

theorem Inv.mapped_unique (inv : Inv cfg s) {p b c : Nat} (first : Mapped cfg s p b)
    (second : Mapped cfg s p c) : b = c := by
  obtain ⟨i, hi, holds, rfl⟩ := first
  obtain ⟨j, hj, holds', rfl⟩ := second
  obtain ⟨d, hd, rfl⟩ := cfg.table.probe_surj p i hi
  obtain ⟨e, he, rfl⟩ := cfg.table.probe_surj p j hj
  rw [inv.table.unique p d e hd he holds holds']

/-- Only the holder of an exclusive lock has anything to say about the frame. -/
theorem Inv.holder_private (inv : Inv cfg s) {lock : Held} (member : lock ∈ (s.fibers f).locks)
    (kind : lock.kind = .exclusive) (u : Fin n) (ne : u ≠ f) :
    (s.fibers u).exclusives lock.bid = 0 ∧ lock.bid ∉ (s.fibers u).pc.owned cfg := by
  refine ⟨?_, inv.mapped_not_owned ((inv.fibers f).locks lock member) u⟩
  by_contra holds
  exact ne (inv.exclusive_unique (Nat.pos_of_ne_zero holds) (exclusive_of_lock member kind))

theorem Inv.locks_unlockX {lock : Held} {sh : Shared n} (inv : Inv cfg s)
    (locks : (s.fibers f).locks = lock :: fib.locks) (kind : lock.kind = .exclusive)
    (sets : (s.fibers f).pc.setsUp = fib.pc.setsUp)
    (mode : (sh.frames lock.bid).state.mode = marked) : LockOk (s.after f sh fib) lock.bid := by
  have xs := exclusives_cons locks sets lock.bid
  have ss := shareds_cons locks lock.bid
  simp only [kind, reduceCtorEq, false_and, if_false, true_and, if_true] at xs ss
  have x := sum_after s f sh fib fun fib => fib.exclusives lock.bid
  have y := sum_after s f sh fib fun fib => fib.shareds lock.bid
  have old := inv.locks lock.bid
  have holds := (exclusive_of_lock (by simp [locks] : lock ∈ (s.fibers f).locks) kind).trans_le
    (le_sum (fun u => (s.fibers u).exclusives lock.bid) f)
  right; left
  unfold LockOk BufferMgr.exclusives BufferMgr.shareds at old
  refine ⟨mode, ?_, ?_⟩
  · unfold BufferMgr.exclusives
    omega
  · unfold BufferMgr.shareds
    omega

/-- The holder of an exclusive lock stores the next version and goes on without the lock. -/
theorem Inv.storeX {w : Word} {sh : Shared n} (inv : Inv cfg s) (lock : Held)
    (locks : (s.fibers f).locks = lock :: fib.locks) (kind : lock.kind = .exclusive)
    (loaded : w.version = version s lock.bid) (table : sh.table = s.shared.table)
    (here : sh.frames lock.bid = { s.shared.frames lock.bid with state := w.nextVersion marked })
    (elsewhere : ∀ c, c ≠ lock.bid → sh.frames c = s.shared.frames c)
    (free : ∀ c, freeCount cfg sh c = freeCount cfg s.shared c)
    (sections : ∀ p, p ≠ lock.pid → sh.sections p = s.shared.sections p)
    (sets : (s.fibers f).pc.setsUp = fib.pc.setsUp)
    (owned : fib.pc.owned cfg = (s.fibers f).pc.owned cfg)
    (committed : fib.pc.committed = (s.fibers f).pc.committed)
    (pc : PcOk cfg (s.after f sh fib) fib.pc) (agree : Agree fib.pc (s.shared.table.pcs f))
    (handed : fib.pc.guard = none) (alone : fib.pc.inEvict = false)
    (guards : fib.guards = (s.fibers f).guards) : Inv cfg (s.after f sh fib) := by
  have member : lock ∈ (s.fibers f).locks := by simp [locks]
  have mapped := (inv.fibers f).locks lock member
  refine inv.bump (b := lock.bid) (w := w.nextVersion marked) table here elsewhere free
    (fun p c ne at_ => sections p ?_) ?_ (inv.holder_private member kind) owned committed
    (inv.locks_unlockX locks kind sets (by rw [here]; rfl)) (fun c ne => ?_) (fun c ne => ?_)
    pc agree handed alone guards (fun other member => by simp [locks, member])
  · rintro rfl
    exact ne (inv.mapped_unique at_ mapped)
  · rw [← loaded, Word.nextVersion]
    exact Nat.lt_succ_self _
  · have := exclusives_cons locks sets c
    simp only [ne.symm, and_false, if_false, Nat.add_zero] at this
    exact this.symm
  · have := shareds_cons locks c
    simp only [ne.symm, and_false, if_false, Nat.add_zero] at this
    exact this.symm

/-! ### Frames in hand -/

theorem Inv.owned_unlocked (inv : Inv cfg s) {b : Nat} (member : b ∈ (s.fibers f).pc.owned cfg)
    (u : Fin n) {lock : Held} (held : lock ∈ (s.fibers u).locks) : lock.bid ≠ b := by
  rintro rfl
  exact inv.mapped_not_owned ((inv.fibers u).locks lock held) f member

theorem Inv.owned_counts (inv : Inv cfg s) {b : Nat} (member : b ∈ (s.fibers f).pc.owned cfg)
    (fresh : ∀ p, (s.fibers f).pc.committed ≠ some (p, b)) :
    shareds s b = 0 ∧ exclusives s b = (s.fibers f).exclusives b ∧
      (s.fibers f).exclusives b = if (s.fibers f).pc.setsUp = some b then 1 else 0 := by
  refine ⟨Finset.sum_eq_zero fun u _ => ?_, ?_, ?_⟩
  · refine List.countP_eq_zero.mpr fun lock held => ?_
    simp [inv.owned_unlocked member u held]
  · refine Finset.sum_eq_single f (fun u _ ne => ?_) (fun out => absurd (Finset.mem_univ f) out)
    exact (inv.owner_private ne member fresh).2.1
  · have none : (s.fibers f).locks.countP
        (fun lock => lock.kind == .exclusive && lock.bid == b) = 0 :=
      List.countP_eq_zero.mpr fun lock held => by simp [inv.owned_unlocked member f held]
    simp [Fiber.exclusives, none]

/-- The owner stores a fresh word: `rebind_locked` and `rebind_unlocked`. -/
theorem Inv.rebind {b : Nat} {w : Word} (inv : Inv cfg s)
    (member : b ∈ (s.fibers f).pc.owned cfg) (fresh : ∀ p, (s.fibers f).pc.committed ≠ some (p, b))
    (newer : version s b < w.version)
    (owned : fib.pc.owned cfg = (s.fibers f).pc.owned cfg)
    (locks : fib.locks = (s.fibers f).locks)
    (committed : fib.pc.committed = (s.fibers f).pc.committed)
    (mode : (w.mode = locked ∧ fib.pc.setsUp = some b) ∨ (w.mode = unlocked ∧ fib.pc.setsUp ≠ some b))
    (sets : ∀ c, c ≠ b → fib.pc.setsUp ≠ some c ∧ (s.fibers f).pc.setsUp ≠ some c)
    (pc : PcOk cfg (s.after f (s.shared.setState b w) fib) fib.pc)
    (agree : Agree fib.pc (s.shared.table.pcs f)) (handed : fib.pc.guard = none)
    (alone : fib.pc.inEvict = false) (guards : fib.guards = (s.fibers f).guards) :
    Inv cfg (s.after f (s.shared.setState b w) fib) := by
  obtain ⟨noShared, total, mine⟩ := inv.owned_counts member fresh
  have here : fib.exclusives b = if fib.pc.setsUp = some b then 1 else 0 := by
    have none : fib.locks.countP (fun lock => lock.kind == .exclusive && lock.bid == b) = 0 := by
      rw [locks]
      exact List.countP_eq_zero.mpr fun lock held => by simp [inv.owned_unlocked member f held]
    simp [Fiber.exclusives, none]
  have shareds := shareds_congr locks
  refine inv.bump (b := b) (w := w) rfl (by simp) (fun c ne => setState_frames_ne _ _ _ ne)
    (fun _ => rfl) (fun _ _ _ _ => rfl) newer (fun u ne => (inv.owner_private ne member fresh).2)
    owned committed ?_ (fun c ne => ?_) (fun c _ => shareds c) pc agree handed alone guards
    (fun lock held => locks ▸ held)
  · have x := sum_after s f (s.shared.setState b w) fib fun fib => fib.exclusives b
    have y := sum_after s f (s.shared.setState b w) fib fun fib => fib.shareds b
    rw [here] at x
    rw [shareds b] at y
    unfold LockOk
    rw [word_setState]
    unfold BufferMgr.shareds at noShared ⊢
    unfold BufferMgr.exclusives at total ⊢
    simp only [locked, unlocked, marked, maxShared] at mode ⊢
    rcases mode with ⟨mode, at_⟩ | ⟨mode, at_⟩
    · rw [if_pos at_] at x
      omega
    · rw [if_neg at_] at x
      omega
  · simp only [Fiber.exclusives, locks, if_neg (sets c ne).1, if_neg (sets c ne).2]

theorem Inv.setPid {b p : Nat} (inv : Inv cfg s) (member : b ∈ (s.fibers f).pc.owned cfg)
    (fresh : ∀ p, (s.fibers f).pc.committed ≠ some (p, b))
    (owned : fib.pc.owned cfg = (s.fibers f).pc.owned cfg)
    (locks : fib.locks = (s.fibers f).locks) (setsUp : fib.pc.setsUp = (s.fibers f).pc.setsUp)
    (committed : fib.pc.committed = (s.fibers f).pc.committed)
    (pc : PcOk cfg (s.after f (s.shared.setPid b p) fib) fib.pc)
    (agree : Agree fib.pc (s.shared.table.pcs f)) (handed : fib.pc.guard = none)
    (alone : fib.pc.inEvict = false) (guards : fib.guards = (s.fibers f).guards) :
    Inv cfg (s.after f (s.shared.setPid b p) fib) := by
  have same : ∀ c, (word (s.after f (s.shared.setPid b p) fib) c) = word s c := fun c => by
    by_cases here : c = b
    · subst here
      simp [word, Shared.setPid]
    · simp [word, Shared.setPid, setFrame_ne _ _ _ here]
  have elsewhere : ∀ c, c ≠ b → (s.shared.setPid b p).frames c = s.shared.frames c :=
    fun c ne => setFrame_ne _ _ _ ne
  have exclusives := exclusives_congr locks setsUp
  have shareds := shareds_congr locks
  have kept : ∀ c, c ≠ b → Kept cfg s (s.after f (s.shared.setPid b p) fib) c := fun c ne =>
    { pid := by rw [after_shared, elsewhere c ne]
      mapped := fun q at_ => Or.inl at_
      committed := fun q at_ => (committed_after s f _ fib committed).mpr at_
      evicting := fun _ set => by rwa [same]
      sections := fun _ _ _ _ => rfl }
  refine inv.frame b rfl elsewhere (fun _ => rfl) (fun q at_ => ?_) (fun c => by rw [owned]) ?_
    (fun c _ => exclusives c) (fun c _ => shareds c) (fun u ne => ?_) ?_
  · exact absurd member (inv.mapped_not_owned at_ f)
  · exact inv.lockOk_after (by rw [same]) (exclusives b) (shareds b)
  · obtain ⟨refers, holds, apart⟩ := inv.owner_private ne member fresh
    refine inv.rely_frame b ne rfl (fun q c other at_ => (kept c other).committed q at_) elsewhere
      (fun _ _ _ _ => rfl) (by rw [version, version, same]) (fun here => ?_) (fun mine => ?_)
      (fun q at_ => absurd (committed_owned at_) apart)
    · rw [refers] at here
      cases here
    · rcases mine with some | mine
      · omega
      · exact absurd mine apart
  · refine fiberOk_after pc agree (by simp [handed]) (by simp [alone]) (fun g held => ?_)
      (locks ▸ (inv.fibers f).locks)
    have ok := (inv.fibers f).guards g (guards ▸ held)
    refine ok.stable (by rw [version, version, same]) fun current => kept g.bid ?_
    rintro rfl
    rcases (ok.2 current).2 with ⟨mapped, -⟩ | ⟨v, at_⟩
    · exact inv.mapped_not_owned mapped f member
    · obtain rfl := inv.owner_unique (committed_owned at_) member
      exact fresh _ at_

/-- `postcommit`: the EvictingBit of a committed frame is cleared while nobody refers to it. -/
theorem Inv.post {b p : Nat} {w : Word} (inv : Inv cfg s)
    (at_ : (s.fibers f).pc.committed = some (p, b))
    (unreferred : ∀ u, u ≠ f → (s.fibers u).refersTo (version s b) b = false)
    (sameVersion : w.version = version s b) (mode : w.mode = (word s b).mode)
    (owned : ∀ c, (fib.pc.owned cfg).count c = ((s.fibers f).pc.owned cfg).count c)
    (locks : fib.locks = (s.fibers f).locks) (setsUp : fib.pc.setsUp = (s.fibers f).pc.setsUp)
    (pc : PcOk cfg (s.after f (s.shared.setState b w) fib) fib.pc)
    (agree : Agree fib.pc (s.shared.table.pcs f)) (handed : fib.pc.guard = none)
    (guards : fib.guards = []) :
    Inv cfg (s.after f (s.shared.setState b w) fib) := by
  have member : b ∈ (s.fibers f).pc.owned cfg := committed_owned at_
  have exclusives := exclusives_congr locks setsUp
  have shareds := shareds_congr locks
  refine inv.frame b rfl (fun c ne => setState_frames_ne _ _ _ ne) (fun _ => rfl) (fun q here => ?_)
    owned ?_ (fun c _ => exclusives c) (fun c _ => shareds c) (fun u ne => ?_) ?_
  · exact absurd member (inv.mapped_not_owned here f)
  · exact inv.lockOk_after (by rw [word_setState, mode]) (exclusives b) (shareds b)
  · have apart : b ∉ (s.fibers u).pc.owned cfg := fun mine => ne (inv.owner_unique mine member)
    refine inv.rely_frame b ne rfl (fun q c other ⟨v, committed⟩ => ⟨v, ?_⟩)
      (fun c ne => setState_frames_ne _ _ _ ne) (fun _ _ _ _ => rfl) (later_setState sameVersion.ge b)
      (fun refers => ?_) (fun mine => ?_) (fun q committed => absurd (committed_owned committed) apart)
    · have notSelf : v ≠ f := by
        rintro rfl
        rw [at_] at committed
        cases committed
        exact other rfl
      rwa [after_ne _ _ _ _ notSelf]
    · rw [unreferred u ne] at refers
      cases refers
    · rw [version_setState]
      exact ⟨sameVersion, by simp⟩
  · exact fiberOk_after pc agree (by simp [handed]) (fun _ => guards) (by simp [guards])
      (locks ▸ (inv.fibers f).locks)

end UringDb.BufferMgr
