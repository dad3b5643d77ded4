import UringDb.Bm.Books

/-!
# Frame accounting of the single-threaded buffer manager

Every call of a client and every step of the evictor keeps the books, whatever the clients do: a
call that would break them runs into an `ensure`. Between the sweep of `evict` and its end other
fibers run; they leave the chosen entries in the table.
-/
namespace UringDb.Bm

open RobinHood RHBSU64Map

variable {cfg : Config} {n : Nat} {s s' : State n}

/-! ### Calls of clients -/

section

variable {c : Fin n} {pid : UInt64} {bid : Nat}

theorem Books.id_ofBid {rest : List Nat} (books : Books cfg s 0) (free : s.freeList = bid :: rest) :
    (BufTagged.ofBid bid).id = bid := by
  have inside := books.free_lt bid (by rw [free]; exact List.mem_cons_self)
  exact BufTagged.id_ofBid (lt_of_lt_of_le inside (cfg.fits.trans (by decide)))

theorem Inv.allocPage (inv : Inv cfg s) (done : s.allocPage cfg = .ok s') : Inv cfg s' := by
  have woken := inv.of_same (same_ensureFreePages cfg s)
  unfold State.allocPage at done
  dsimp only at done
  split at done
  next =>
    cases done
    exact woken.of_same ⟨rfl, rfl, rfl, rfl, rfl, rfl, rfl, rfl, rfl⟩
  next bid rest free =>
    obtain ⟨u, called, ends⟩ := bind_ok.mp done
    cases ends
    obtain ⟨t, inserted, rfl⟩ := insertPage_ok called
    have entered := woken.enter (w := []) free (woken.books.extends inserted)
      (by simp [woken.books.id_ofBid free]) (by simp)
    exact entered.of_same ⟨rfl, rfl, rfl, rfl, rfl, rfl, rfl, rfl, rfl⟩

theorem Inv.handleFault (inv : Inv cfg s) (done : s.handleFault cfg c pid = .ok s') :
    Inv cfg s' := by
  have woken := inv.of_same (same_ensureFreePages cfg s)
  unfold State.handleFault at done
  dsimp only at done
  split at done
  next =>
    cases done
    exact woken.of_same (same_yield _ _)
  next bid rest free =>
    obtain ⟨u, called, ends⟩ := bind_ok.mp done
    obtain ⟨t, inserted, rfl⟩ := insertPage_ok called
    have grows := woken.books.extends inserted
    have same := woken.books.id_ofBid free
    split at ends
    next =>
      -- the lock is cleared before anyone sees the entry
      obtain ⟨i, found, ends⟩ := bind_ok.mp ends
      cases ends
      obtain ⟨occupied, key⟩ := grows.ordered.slotOf (findPage_ok.mp found)
      obtain ⟨ordered, find⟩ := grows.ordered.write (v := (t.entries i).val.setIoLock false)
        occupied
      have value : (t.entries i).val = ((BufTagged.ofBid bid).setIoLock true).setMarked true := by
        have here := grows.ordered.find_slot occupied
        change t.find RHBSU64Map.hash (t.entries i).key = some (t.entries i).val at here
        have stored : (t.entries i).key = pid := key
        rw [stored, grows.find, Function.update_self] at here
        exact (Option.some.inj here).symm
      have settled : Extends (s.ensureFreePages cfg).table
          (t.write i ((t.entries i).val.setIoLock false)) pid
          ((t.entries i).val.setIoLock false) := by
        refine ⟨ordered, grows.bits, grows.size, grows.fresh, ?_⟩
        rw [find, show (t.entries i).key = pid from key, grows.find, Function.update_idem]
      have entered := woken.enter (w := []) free settled
        (by simp [value, same]) (by simp)
      exact entered.of_same ⟨rfl, rfl, rfl, rfl, rfl, rfl, rfl, rfl, rfl⟩
    next =>
      cases ends
      have entered := woken.enter (w := [c]) free grows
        (by simp [same])
        (fun _ => List.cons_ne_nil c [])
      refine (entered.goto c (.reading pid bid) fun q x here => ?_).of_same
        ⟨rfl, rfl, rfl, rfl, rfl, rfl, rfl, rfl, rfl⟩
      cases here
      refine ⟨⟨((BufTagged.ofBid bid).setIoLock true).setMarked true, ?_, by simp [same],
        by simp⟩, ?_⟩
      · change t.find RHBSU64Map.hash pid = _
        rw [grows.find, Function.update_self]
      · change (((s.ensureFreePages cfg).setFrame bid ⟨pid, [c]⟩).frames bid).waiting.head? = some c
        rw [setFrame_self]
        rfl

theorem Inv.finishFault (inv : Inv cfg s) (reads : s.clients c = .reading pid bid)
    (done : s.finishFault c pid bid = .ok s') : Inv cfg s' := by
  obtain ⟨-, -, ends⟩ := bind_ok.mp done
  obtain ⟨u, finished, ends⟩ := bind_ok.mp ends
  cases ends
  obtain ⟨i, found, ends⟩ := bind_ok.mp finished
  cases ends
  have woken := same_wakeAll (s.frames bid).waiting.tail s
  rw [← woken.clients] at reads
  have opened := (inv.of_same woken).opened reads (findPage_ok.mp found)
  rw [woken.frames] at opened
  exact opened

theorem Inv.handleWait (inv : Inv cfg s) (done : s.handleWait c bid = .ok s') : Inv cfg s' := by
  unfold State.handleWait at done
  split at done
  next => cases done
  next first others list =>
    obtain ⟨i, -, ends⟩ := bind_ok.mp done
    obtain ⟨-, -, ends⟩ := bind_ok.mp ends
    cases ends
    have queued := inv.setWaiting bid (first :: c :: others)
      (fun _ _ _ _ _ => List.cons_ne_nil _ _) fun d pid reads => by
        have head := (inv.books.reading d pid bid reads).2
        rw [list] at head
        exact head
    exact (queued.goto c .waiting fun _ _ same => by cases same).of_same (same_park _ _)

theorem Inv.fix {touch : BufTagged → BufTagged} (inv : Inv cfg s)
    (id_ : ∀ b, (touch b).id = b.id) (locked : ∀ b, (touch b).ioLock = b.ioLock)
    (keeps : ∀ b, (touch b).evicting = b.evicting) (done : s.fix pid touch = .ok s') :
    Inv cfg s' := by
  unfold State.fix at done
  split at done
  next =>
    cases done
    exact inv.of_same ⟨rfl, rfl, rfl, rfl, rfl, rfl, rfl, rfl, rfl⟩
  next i found =>
    split at done
    next =>
      cases done
      exact inv.of_same ⟨rfl, rfl, rfl, rfl, rfl, rfl, rfl, rfl, rfl⟩
    next =>
      obtain ⟨-, -, ends⟩ := bind_ok.mp done
      cases ends
      exact inv.touch (inv.books.ordered.slotOf found).1 (id_ _) (locked _) (keeps _)

theorem Inv.fixS (inv : Inv cfg s) (done : s.fixS pid = .ok s') : Inv cfg s' :=
  inv.fix (by simp) (by simp) (by simp) done

theorem Inv.fixX (inv : Inv cfg s) (done : s.fixX pid = .ok s') : Inv cfg s' :=
  inv.fix (by simp) (by simp) (by simp) done

theorem Inv.unfixS (inv : Inv cfg s) (done : s.unfixS pid = .ok s') : Inv cfg s' := by
  obtain ⟨i, found, ends⟩ := bind_ok.mp done
  obtain ⟨-, -, ends⟩ := bind_ok.mp ends
  cases ends
  exact inv.touch (inv.books.ordered.slotOf (findPage_ok.mp found)).1 (by simp) (by simp) (by simp)

theorem Inv.unfixX (inv : Inv cfg s) (done : s.unfixX pid = .ok s') : Inv cfg s' := by
  obtain ⟨i, found, ends⟩ := bind_ok.mp done
  obtain ⟨-, -, ends⟩ := bind_ok.mp ends
  obtain ⟨-, -, ends⟩ := bind_ok.mp ends
  cases ends
  exact inv.touch (inv.books.ordered.slotOf (findPage_ok.mp found)).1 (by simp) (by simp) (by simp)

end

/-! ### Eviction -/

section

variable {count i : Nat} {bids : List Nat}

theorem Chosen.perm {other : List Nat} (chosen : Chosen s bids) (perm : bids.Perm other) :
    Chosen s other :=
  ⟨perm.nodup_iff.mp chosen.nodup, fun bid member => chosen.entry bid (perm.mem_iff.mpr member)⟩

theorem Chosen.not_mem (chosen : Chosen s bids) (books : Books cfg s count)
    (occupied : i ∈ s.table.slots) (idle : (s.buf i).evicting ≠ true) : (s.buf i).id ∉ bids := by
  intro member
  obtain ⟨b, found, -, evicts⟩ := chosen.entry _ member
  rw [books.frame _ _ (books.key_page occupied), books.key_page occupied] at found
  cases found
  exact idle evicts

theorem Chosen.add (chosen : Chosen s bids) (books : Books cfg s count)
    (occupied : i ∈ s.table.slots) (idle : (s.buf i).evicting ≠ true) {b : BufTagged}
    (same : b.id = (s.buf i).id) (evicts : b.evicting = true) :
    Chosen (s.setBuf i b) (b.id :: bids) := by
  have fresh := chosen.not_mem books occupied idle
  have kept := chosen.touch books occupied same fun member => absurd member fresh
  refine ⟨List.nodup_cons.mpr ⟨same ▸ fresh, chosen.nodup⟩, fun bid member => ?_⟩
  rcases List.mem_cons.mp member with rfl | member
  · refine ⟨b, ?_, rfl, evicts⟩
    change (s.setBuf i b).page (s.frames b.id).pid = some b
    rw [same, books.frame _ _ (books.key_page occupied), books.page_setBuf occupied,
      Function.update_self]
  · exact kept.entry bid member

/-- What the sweep keeps. -/
structure Sweeps (cfg : Config) (s : State n) : Prop where
  books : Books cfg s 0
  chosen : Chosen s (s.toEvict ++ s.toWrite)

theorem Sweeps.choose (sweeps : Sweeps cfg s) (occupied : i ∈ s.table.slots)
    (idle : (s.buf i).evicting ≠ true) : Sweeps cfg (s.choose i) := by
  have books := sweeps.books
  unfold State.choose
  dsimp only
  split
  next =>
    have added := sweeps.chosen.add books occupied idle
      (b := ((s.buf i).setEvicting true).setDirty false) (by simp) (by simp)
    have kept := books.touch_same occupied (b := ((s.buf i).setEvicting true).setDirty false)
      (by simp) (by simp)
    have perm : ((((s.buf i).setEvicting true).setDirty false).id :: (s.toEvict ++ s.toWrite)).Perm
        (s.toEvict ++ (s.toWrite ++ [((s.buf i).setEvicting true).id])) := by
      simp only [BufTagged.setEvicting, BufTagged.setDirty, BufTagged.id_setFlag]
      rw [← List.append_assoc]
      exact (List.perm_append_singleton _ _).symm
    exact ⟨kept.congr rfl rfl rfl rfl rfl rfl, (added.perm perm).congr rfl rfl⟩
  next =>
    have added := sweeps.chosen.add books occupied idle (b := (s.buf i).setEvicting true)
      (by simp) (by simp)
    have kept := books.touch_same occupied (b := (s.buf i).setEvicting true) (by simp) (by simp)
    have perm : (((s.buf i).setEvicting true).id :: (s.toEvict ++ s.toWrite)).Perm
        ((s.toEvict ++ [((s.buf i).setEvicting true).id]) ++ s.toWrite) := by
      rw [List.append_assoc]
      exact List.perm_middle.symm
    exact ⟨kept.congr rfl rfl rfl rfl rfl rfl, (added.perm perm).congr rfl rfl⟩

theorem visit_ok {done : Bool} (ok : s.visit cfg i = .ok (s', done)) :
    (s' = s ∧ done = false) ∨
    (s' = s.setBuf i ((s.buf i).setMarked false) ∧ done = false) ∨
    (s' = s.choose i ∧ (s.buf i).evicting ≠ true ∧
      done = ((s.choose i).toEvict.length + (s.choose i).toWrite.length == cfg.evictBatch)) := by
  obtain ⟨-, -, rest⟩ := bind_ok.mp ok
  split at rest
  next =>
    cases rest
    exact Or.inl ⟨rfl, rfl⟩
  next =>
    split at rest
    next =>
      cases rest
      exact Or.inl ⟨rfl, rfl⟩
    next =>
      split at rest
      next =>
        cases rest
        exact Or.inl ⟨rfl, rfl⟩
      next idle =>
        split at rest
        next =>
          cases rest
          exact Or.inr (Or.inl ⟨rfl, rfl⟩)
        next =>
          obtain ⟨-, -, rest⟩ := bind_ok.mp rest
          cases rest
          exact Or.inr (Or.inr ⟨rfl, idle, rfl⟩)

theorem Sweeps.visit (sweeps : Sweeps cfg s) (occupied : i ∈ s.table.slots) {done : Bool}
    (ok : s.visit cfg i = .ok (s', done)) : Sweeps cfg s' := by
  obtain ⟨rfl, -⟩ | ⟨rfl, -⟩ | ⟨rfl, idle, -⟩ := visit_ok ok
  · exact sweeps
  · refine ⟨sweeps.books.touch_same occupied (by simp) (by simp),
      sweeps.chosen.touch sweeps.books occupied (by simp) fun member => ?_⟩
    by_contra idle
    exact sweeps.chosen.not_mem sweeps.books occupied (by simpa using idle) member
  · exact sweeps.choose occupied idle

theorem Sweeps.advance (sweeps : Sweeps cfg s) : Sweeps cfg s.advance :=
  ⟨{ sweeps.books with hand := s.table.next_lt s.sweep }, sweeps.chosen.congr rfl rfl⟩

theorem Sweeps.clockSweep {left : Nat} (sweeps : Sweeps cfg s)
    (ok : State.clockSweep cfg left s = .ok s') : Sweeps cfg s' := by
  induction left generalizing s with
  | zero =>
    cases ok
    exact sweeps
  | succ left ih =>
    simp only [State.clockSweep] at ok
    split at ok
    next => exact ih sweeps.advance ok
    next occupied =>
      split at ok
      next => cases ok
      next u done visited =>
        have kept : Sweeps cfg u :=
          sweeps.advance.visit (mem_slots.mpr ⟨sweeps.books.hand, occupied⟩) visited
        split at ok
        next =>
          cases ok
          exact kept
        next => exact ih kept ok

theorem Sweeps.clockSweepNext (sweeps : Sweeps cfg s) (ok : s.clockSweepNext cfg = .ok s') :
    Sweeps cfg s' := by
  unfold State.clockSweepNext at ok
  split at ok
  next =>
    cases ok
    exact sweeps
  next => exact sweeps.clockSweep ok

theorem Books.erase (books : Books cfg s count) {pid : UInt64} {b : BufTagged}
    (found : s.page pid = some b) (open_ : b.ioLock = false) {t : RHBSU64Map BufTagged}
    (erased : s.table.erase RHBSU64Map.hash pid = some (true, t)) :
    Books cfg { s with table := t, freeList := b.id :: s.freeList } (count + 1) := by
  obtain ⟨t', erased', ordered, bits, size, find⟩ := books.ordered.erase found
  rw [erased] at erased'
  cases erased'
  have old : ∀ {q b'}, t.find RHBSU64Map.hash q = some b' → q ≠ pid ∧ s.page q = some b' := by
    intro q b' here
    rw [find] at here
    by_cases same : q = pid
    · subst same
      rw [Function.update_self] at here
      cases here
    · rw [Function.update_of_ne same] at here
      exact ⟨same, here⟩
  have kept : ∀ {q b'}, s.page q = some b' → q ≠ pid → t.find RHBSU64Map.hash q = some b' := by
    intro q b' here apart
    rw [find, Function.update_of_ne apart]
    exact here
  refine ⟨ordered, ?_, List.nodup_cons.mpr ⟨books.mapped _ _ found, books.free_nodup⟩,
    fun bid member => ?_, fun q b' here => books.id_lt _ _ (old here).2, fun q b' here => ?_,
    fun q b' here => books.frame _ _ (old here).2,
    fun q b' here => books.waiting _ _ (old here).2, fun bid small => ?_, ?_,
    fun c q bid reads => ?_⟩
  · change s.sweep < t.n
    rw [RHBSU64Map.n, bits]
    exact books.hand
  · rcases List.mem_cons.mp member with rfl | member
    · exact books.id_lt _ _ found
    · exact books.free_lt bid member
  · obtain ⟨apart, here⟩ := old here
    rw [List.mem_cons, not_or]
    refine ⟨fun same => apart ?_, books.mapped _ _ here⟩
    rw [← books.frame _ _ here, ← books.frame _ _ found, same]
  · by_cases mine : bid = b.id
    · exact Or.inl (mine ▸ List.mem_cons_self)
    · rcases books.covered bid small with member | ⟨q, b', here, same⟩
      · exact Or.inl (List.mem_cons_of_mem _ member)
      · refine Or.inr ⟨q, b', kept here ?_, same⟩
        rintro rfl
        rw [found] at here
        cases here
        exact mine same.symm
  · change s.physUsedCount = UInt64.ofNat (t.sz + (count + 1))
    rw [books.used, ← size]
    congr 1
    omega
  · obtain ⟨⟨b', here, same, io⟩, head⟩ := books.reading c q bid reads
    refine ⟨⟨b', kept here ?_, same, io⟩, head⟩
    rintro rfl
    rw [found] at here
    cases here
    rw [open_] at io
    cases io

theorem Chosen.erase (chosen : Chosen s bids) (books : Books cfg s count) {pid : UInt64}
    {b : BufTagged} (found : s.page pid = some b) (apart : b.id ∉ bids)
    {t : RHBSU64Map BufTagged} {free : List Nat}
    (erased : s.table.erase RHBSU64Map.hash pid = some (true, t)) :
    Chosen { s with table := t, freeList := free } bids := by
  obtain ⟨t', erased', -, -, -, find⟩ := books.ordered.erase found
  rw [erased] at erased'
  cases erased'
  refine ⟨chosen.nodup, fun bid member => ?_⟩
  obtain ⟨b', here, same, evicts⟩ := chosen.entry bid member
  refine ⟨b', ?_, same, evicts⟩
  change t.find RHBSU64Map.hash (s.frames bid).pid = some b'
  rw [find, Function.update_of_ne]
  · exact here
  · intro clash
    rw [clash, found] at here
    cases here
    exact apart (same ▸ member)

theorem Books.evictNow (books : Books cfg s count) {bid count' : Nat}
    (chosen : Chosen s (bid :: bids)) (ok : s.evictNow bid count = .ok (s', count')) :
    Books cfg s' count' ∧ Chosen s' bids := by
  obtain ⟨fresh, nodup⟩ := List.nodup_cons.mp chosen.nodup
  obtain ⟨b, here, rfl, -⟩ := chosen.entry bid List.mem_cons_self
  have rest : Chosen s bids := ⟨nodup, fun x member =>
    chosen.entry x (List.mem_cons_of_mem _ member)⟩
  obtain ⟨i, found, ok⟩ := bind_ok.mp ok
  obtain ⟨occupied, key⟩ := books.ordered.slotOf (findPage_ok.mp found)
  rw [← key, books.key_page occupied] at here
  cases here
  obtain ⟨-, -, ok⟩ := bind_ok.mp ok
  have books' : Books cfg (s.setBuf i ((s.buf i).setEvicting false)) count :=
    books.touch_same occupied (by simp) (by simp)
  have rest' : Chosen (s.setBuf i ((s.buf i).setEvicting false)) bids :=
    rest.touch books occupied (by simp) fun member => absurd member fresh
  split at ok
  next =>
    cases ok
    exact ⟨books', rest'⟩
  next =>
    split at ok
    next =>
      cases ok
      exact ⟨books', rest'⟩
    next =>
      obtain ⟨_, closed, ok⟩ := bind_ok.mp ok
      have now : (s.setBuf i ((s.buf i).setEvicting false)).page (s.frames (s.buf i).id).pid =
          some ((s.buf i).setEvicting false) := by
        rw [books.page_setBuf occupied, ← key, Function.update_self]
      split at ok
      next t erased =>
        cases ok
        have gone := books'.erase now (by simpa using ensure_ok.mp closed) erased
        rw [show ((s.buf i).setEvicting false).id = (s.buf i).id by simp] at gone
        exact ⟨gone, rest'.erase books' now (by simpa using fresh) erased⟩
      next => cases ok
      next => cases ok

theorem Books.evictAll (books : Books cfg s count) (chosen : Chosen s bids)
    (ok : State.evictAll bids s count = .ok s') : Books cfg s' 0 := by
  induction bids generalizing s count with
  | nil =>
    cases ok
    refine { books with used := ?_ }
    change s.physUsedCount - UInt64.ofNat count = UInt64.ofNat (s.table.sz + 0)
    rw [books.used, UInt64.ofNat_add]
    simp
  | cons bid rest ih =>
    simp only [State.evictAll] at ok
    split at ok
    next => cases ok
    next u count' evicted =>
      obtain ⟨books, chosen⟩ := books.evictNow chosen evicted
      exact ih books chosen ok

theorem Sweeps.finishEvict (sweeps : Sweeps cfg s) (ok : s.finishEvict = .ok s') :
    Inv cfg s' := by
  obtain ⟨u, evicted, ends⟩ := bind_ok.mp ok
  cases ends
  exact ⟨(sweeps.books.evictAll sweeps.chosen evicted).congr rfl rfl rfl rfl rfl rfl,
    fun writing => by cases writing⟩

theorem Inv.sweeps_start (inv : Inv cfg s) : Sweeps cfg { s with toEvict := [], toWrite := [] } :=
  ⟨inv.books.congr rfl rfl rfl rfl rfl rfl, List.nodup_nil, fun _ member => by cases member⟩

theorem Inv.evict (inv : Inv cfg s) (ok : s.evict cfg = .ok s') : Inv cfg s' := by
  obtain ⟨u, swept, ends⟩ := bind_ok.mp ok
  have sweeps := inv.sweeps_start.clockSweepNext swept
  split at ends
  next => exact sweeps.finishEvict ends
  next =>
    cases ends
    exact ⟨sweeps.books.congr rfl rfl rfl rfl rfl rfl, fun _ => sweeps.chosen.congr rfl rfl⟩

end

/-! ### Runs -/

theorem Inv.execCall (inv : Inv cfg s) {c : Fin n} {call : Call}
    (done : execCall cfg s c call = .ok s') : Inv cfg s' := by
  cases call with
  | fixS pid => exact inv.fixS done
  | fixX pid => exact inv.fixX done
  | unfixS pid => exact inv.unfixS done
  | unfixX pid => exact inv.unfixX done
  | allocPage => exact inv.allocPage done
  | handleRestart =>
    simp only [Bm.execCall, State.handleRestart] at done
    split at done
    next => exact inv.handleFault done
    next => exact inv.handleWait done
    next =>
      cases done
      exact inv.of_same (same_yield _ _)
  | yield =>
    cases done
    exact inv.of_same (same_yield _ _)

theorem Inv.proceedClient (inv : Inv cfg s) {c : Fin n} (done : proceedClient s c = .ok s') :
    Inv cfg s' := by
  unfold Bm.proceedClient at done
  split at done
  next => cases done
  next pid bid reads => exact inv.finishFault reads done
  next =>
    cases done
    exact inv.goto c .code fun _ _ same => by cases same

theorem Inv.proceedEvictor (inv : Inv cfg s) (done : proceedEvictor cfg s = .ok s') :
    Inv cfg s' := by
  unfold Bm.proceedEvictor at done
  split at done
  next =>
    cases done
    exact ⟨inv.books.congr rfl rfl rfl rfl rfl rfl, fun writing => by cases writing⟩
  next =>
    split at done
    next => exact inv.evict done
    next =>
      cases done
      exact ⟨inv.books.congr rfl rfl rfl rfl rfl rfl, fun writing => by cases writing⟩
  next writing => exact Sweeps.finishEvict ⟨inv.books, inv.chosen writing⟩ done
  next =>
    cases done
    exact ⟨inv.books.congr rfl rfl rfl rfl rfl rfl, fun writing => by cases writing⟩

theorem Inv.exec (inv : Inv cfg s) {act : Act n} (done : exec cfg s act = .ok s') :
    Inv cfg s' := by
  cases act with simp only [Bm.exec] at done
  | resume f =>
    split at done <;> cases done
    exact inv.of_same ⟨rfl, rfl, rfl, rfl, rfl, rfl, rfl, rfl, rfl⟩
  | complete f =>
    split at done <;> cases done
    exact inv.of_same (same_wake _ _)
  | call c call =>
    split at done
    next => exact inv.execCall done
    next => cases done
  | proceed f =>
    split at done
    next =>
      cases f with
      | client c => exact inv.proceedClient done
      | evictor => exact inv.proceedEvictor done
    next => cases done

theorem mem_tail_range {bid m : Nat} : bid ∈ (List.range m).tail ↔ 0 < bid ∧ bid < m := by
  cases m with
  | zero => simp
  | succ m =>
    rw [List.range_succ_eq_map, List.tail_cons, List.mem_map]
    constructor
    · rintro ⟨x, member, rfl⟩
      exact ⟨Nat.succ_pos x, Nat.succ_lt_succ (List.mem_range.mp member)⟩
    · rintro ⟨pos, small⟩
      exact ⟨bid - 1, List.mem_range.mpr (by omega), by omega⟩

theorem inv_init (start : init cfg = .ok s) : Inv cfg s := by
  obtain ⟨u, called, ends⟩ := bind_ok.mp start
  cases ends
  obtain ⟨t, inserted, rfl⟩ := insertPage_ok called
  obtain ⟨ordered, bits, size, -, find⟩ := (ordered_new cfg.tableBits).insert inserted
  have zero : (((BufTagged.ofBid 0).setDirty true).setMarked true).id = 0 := by
    simp [BufTagged.id_ofBid]
  have only : ∀ {pid b}, t.find RHBSU64Map.hash pid = some b →
      pid = 0 ∧ b = ((BufTagged.ofBid 0).setDirty true).setMarked true := by
    intro pid b found
    rw [find] at found
    by_cases same : pid = 0
    · subst same
      rw [Function.update_self] at found
      exact ⟨rfl, (Option.some.inj found).symm⟩
    · rw [Function.update_of_ne same, find_new] at found
      cases found
  refine ⟨⟨ordered, t.n_pos, List.nodup_range.sublist (List.tail_sublist _),
    fun bid member => (mem_tail_range.mp member).2, fun pid b found => ?_, fun pid b found => ?_,
    fun pid b found => ?_, fun pid b found io => ?_, fun bid small => ?_, ?_,
    fun c pid bid reads => by cases reads⟩, fun writing => by cases writing⟩
  · rw [(only found).2, zero]
    exact cfg.positive
  · rw [(only found).2, zero]
    exact fun member => absurd (mem_tail_range.mp member).1 (Nat.lt_irrefl 0)
  · rw [(only found).2, zero, (only found).1, setFrame_self]
  · rw [(only found).2] at io
    simp at io
  · rcases Nat.eq_zero_or_pos bid with rfl | pos
    · refine Or.inr ⟨0, _, ?_, zero⟩
      change t.find RHBSU64Map.hash 0 = _
      rw [find, Function.update_self]
    · exact Or.inl (mem_tail_range.mpr ⟨pos, small⟩)
  · change (1 : UInt64) = UInt64.ofNat (t.sz + 0)
    rw [size]
    rfl

theorem inv_of_reaches {acts : List (Act n)}
    (reached : (system cfg n).Reaches System.anyStep acts s) : Inv cfg s :=
  reached.invariant (P := Inv cfg) (fun _ start => inv_init start)
    fun _ _ _ inv _ done => inv.exec done

def State.mappedBids (s : State n) : List Nat := s.table.slots.map fun i => (s.buf i).id

theorem Books.nodup_mappedBids (books : Books cfg s 0) : s.mappedBids.Nodup := by
  refine List.Nodup.map_on (fun i mine j other same => ?_) (List.nodup_range.filter _)
  apply books.ordered.slot_unique mine other
  rw [← books.frame _ _ (books.key_page mine), ← books.frame _ _ (books.key_page other), same]

theorem Books.perm (books : Books cfg s 0) :
    (s.freeList ++ s.mappedBids).Perm (List.range cfg.pageCount) := by
  have apart : s.freeList.Disjoint s.mappedBids := by
    intro bid free mapped
    obtain ⟨i, occupied, rfl⟩ := List.mem_map.mp mapped
    exact books.mapped _ _ (books.key_page occupied) free
  rw [List.perm_ext_iff_of_nodup
    (List.Nodup.append books.free_nodup books.nodup_mappedBids apart) List.nodup_range]
  intro bid
  rw [List.mem_append, List.mem_range]
  constructor
  · rintro (free | mapped)
    · exact books.free_lt bid free
    · obtain ⟨i, occupied, rfl⟩ := List.mem_map.mp mapped
      exact books.id_lt _ _ (books.key_page occupied)
  · intro inside
    refine (books.covered bid inside).imp_right ?_
    rintro ⟨pid, b, found, rfl⟩
    obtain ⟨i, occupied, entry⟩ := books.ordered.slot_of_find found
    exact List.mem_map.mpr ⟨i, occupied, by rw [State.buf, entry]⟩

/-- **Frame accounting.** Whatever the fibers do and in whatever order they run: the free frames
and the frames of the entries are the frames 0 to `page_count - 1`, each once; the frame of an
entry names its page; an entry under I/O has a list of waiting fibers; and `physUsedCount` is the
number of entries. -/
theorem frames_accounted {acts : List (Act n)}
    (reached : (system cfg n).Reaches System.anyStep acts s) :
    (s.freeList ++ s.mappedBids).Perm (List.range cfg.pageCount) ∧
    (∀ i ∈ s.table.slots, (s.frames (s.buf i).id).pid = (s.table.entries i).key) ∧
    (∀ i ∈ s.table.slots, (s.buf i).ioLock = true → (s.frames (s.buf i).id).waiting ≠ []) ∧
    s.physUsedCount.toNat = s.table.slots.length := by
  have books := (inv_of_reaches reached).books
  refine ⟨books.perm, fun i occupied => books.frame _ _ (books.key_page occupied),
    fun i occupied => books.waiting _ _ (books.key_page occupied), ?_⟩
  have few : s.table.slots.length ≤ cfg.pageCount := by
    have length := books.perm.length_eq
    rw [List.length_append, State.mappedBids, List.length_map, List.length_range] at length
    omega
  have fits := cfg.fits
  rw [books.used, Nat.add_zero, ← books.ordered.length_slots, UInt64.toNat_ofNat']
  exact Nat.mod_eq_of_lt (by omega)

/-- Execute a list of actions from the initial state. -/
def run (cfg : Config) (acts : List (Act n)) : Option (State n) :=
  (init cfg).toOption.bind fun s => perform (fun s act => (exec cfg s act).toOption) s acts

theorem run_reaches {acts : List (Act n)} (ran : run cfg acts = some s) :
    (system cfg n).Reaches System.anyStep acts s := by
  have ok_of_toOption : ∀ {x : Except Stop (State n)} {u}, x.toOption = some u → x = .ok u := by
    intro x u same
    cases x with
    | error stop => cases same
    | ok v =>
      cases same
      rfl
  obtain ⟨s₀, start, performed⟩ := Option.bind_eq_some_iff.mp ran
  refine ⟨s₀, ok_of_toOption start, ?_⟩
  exact perform_path (fun _ _ _ stepped => ⟨ok_of_toOption stepped, trivial⟩) performed

def smallConfig : Config where
  pageCount := 3
  positive := by decide
  fits := by decide
  evictBatch := 1
  atTarget := fun free => 10 * free ≤ 3
  tableBits := 2
  syncVariant := false

/-- Client 0 fills the buffer and makes the evictor write and evict page 1. Client 1 reads the
page again, and client 0 waits for it. -/
def refault : List (Act 2) :=
  [.resume .evictor, .proceed .evictor, .proceed .evictor,
    .resume (.client 0), .call 0 .allocPage, .call 0 (.unfixX 1), .call 0 .allocPage,
    .call 0 (.unfixX 2), .call 0 .allocPage, .call 0 .handleRestart,
    .resume .evictor, .proceed .evictor, .proceed .evictor, .proceed .evictor,
    .complete .evictor, .resume .evictor, .proceed .evictor, .proceed .evictor,
    .resume (.client 1), .call 1 (.fixS 1), .call 1 .handleRestart,
    .resume (.client 0), .call 0 (.fixS 1), .call 0 .handleRestart]

theorem frames_accounted_refault : ∃ s : State 2,
    (system smallConfig 2).Reaches System.anyStep refault s ∧
    (s.frames 1).waiting = [1, 0] ∧ s.physUsedCount.toNat = s.table.slots.length ∧
    (s.freeList ++ s.mappedBids).Perm (List.range 3) := by
  have passed : (run smallConfig refault).any
      (fun s : State 2 => decide ((s.frames 1).waiting = [1, 0])) = true := by decide +kernel
  obtain ⟨s, ran, waits⟩ := (Option.any_eq_true _ _).mp passed
  have reached := run_reaches ran
  obtain ⟨perm, -, -, used⟩ := frames_accounted reached
  exact ⟨s, reached, of_decide_eq_true waits, used, perm⟩

end UringDb.Bm
