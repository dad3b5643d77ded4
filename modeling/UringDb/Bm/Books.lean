import UringDb.Bm.Model
import UringDb.Lib.Guard

/-!
# Books of the frames

A frame is in the free list or behind a page-table entry, never in both. This is the invariant of
the single-threaded buffer manager, with what the suspended fibers rely on: the entry and the list
of a page that is being read, and the entries that a sweep has chosen for eviction. Each kind of
change of the state has one lemma that says when it keeps the books.
-/
namespace UringDb.Bm

open RobinHood RHBSU64Map

variable {cfg : Config} {n : Nat} {s s' : State n}

/-! ### Inversion of the checks -/

theorem ensure_ok {holds : Bool} {check : Check} {u : Unit} :
    ensure holds check = .ok u ↔ holds = true := by
  cases holds <;> simp [ensure]

theorem findPage_ok {pid : UInt64} {i : Nat} :
    s.findPage pid = .ok i ↔ s.table.slotOf RHBSU64Map.hash pid = some i := by
  unfold State.findPage
  split <;> simp_all

theorem insertPage_ok {pid : UInt64} {b : BufTagged} (done : s.insertPage pid b = .ok s') :
    ∃ t, s.table.insert RHBSU64Map.hash pid b = some (.inserted, t) ∧
      s' = { s with table := t } := by
  unfold State.insertPage at done
  split at done <;> cases done
  next t inserted => exact ⟨t, inserted, rfl⟩

/-! ### Invariant -/

def State.page (s : State n) (pid : UInt64) : Option BufTagged := s.table.find RHBSU64Map.hash pid

/-- The frames, while `count` pages are erased that `physUsedCount` still counts. -/
structure Books (cfg : Config) (s : State n) (count : Nat) : Prop where
  ordered : Ordered RHBSU64Map.hash s.table
  hand : s.sweep < s.table.n
  free_nodup : s.freeList.Nodup
  free_lt : ∀ bid ∈ s.freeList, bid < cfg.pageCount
  id_lt : ∀ pid b, s.page pid = some b → b.id < cfg.pageCount
  mapped : ∀ pid b, s.page pid = some b → b.id ∉ s.freeList
  frame : ∀ pid b, s.page pid = some b → (s.frames b.id).pid = pid
  waiting : ∀ pid b, s.page pid = some b → b.ioLock = true → (s.frames b.id).waiting ≠ []
  covered : ∀ bid < cfg.pageCount, bid ∈ s.freeList ∨ ∃ pid b, s.page pid = some b ∧ b.id = bid
  used : s.physUsedCount = UInt64.ofNat (s.table.sz + count)
  reading : ∀ c pid bid, s.clients c = .reading pid bid →
    (∃ b, s.page pid = some b ∧ b.id = bid ∧ b.ioLock = true) ∧
      (s.frames bid).waiting.head? = some c

/-- The pages of these frames are chosen for eviction. -/
structure Chosen (s : State n) (bids : List Nat) : Prop where
  nodup : bids.Nodup
  entry : ∀ bid ∈ bids, ∃ b, s.page (s.frames bid).pid = some b ∧ b.id = bid ∧ b.evicting = true

structure Inv (cfg : Config) (s : State n) : Prop where
  books : Books cfg s 0
  chosen : s.evictor = .writing → Chosen s (s.toEvict ++ s.toWrite)

/-- Two states that differ in the scheduling of fibers and in counters. -/
structure Same (s s' : State n) : Prop where
  table : s'.table = s.table
  sweep : s'.sweep = s.sweep
  frames : s'.frames = s.frames
  freeList : s'.freeList = s.freeList
  physUsedCount : s'.physUsedCount = s.physUsedCount
  toEvict : s'.toEvict = s.toEvict
  toWrite : s'.toWrite = s.toWrite
  clients : s'.clients = s.clients
  evictor : s'.evictor = s.evictor

theorem Same.refl (s : State n) : Same s s := ⟨rfl, rfl, rfl, rfl, rfl, rfl, rfl, rfl, rfl⟩

theorem Same.trans {s'' : State n} (first : Same s s') (second : Same s' s'') : Same s s'' :=
  ⟨second.table.trans first.table, second.sweep.trans first.sweep,
    second.frames.trans first.frames, second.freeList.trans first.freeList,
    second.physUsedCount.trans first.physUsedCount, second.toEvict.trans first.toEvict,
    second.toWrite.trans first.toWrite, second.clients.trans first.clients,
    second.evictor.trans first.evictor⟩

theorem Books.congr {count : Nat} (books : Books cfg s count) (table : s'.table = s.table)
    (sweep : s'.sweep = s.sweep) (frames : s'.frames = s.frames)
    (freeList : s'.freeList = s.freeList) (used : s'.physUsedCount = s.physUsedCount)
    (clients : s'.clients = s.clients) : Books cfg s' count := by
  have page : ∀ pid, s'.page pid = s.page pid := fun pid => by rw [State.page, table, State.page]
  refine ⟨?_, ?_, ?_, ?_, ?_, ?_, ?_, ?_, ?_, ?_, ?_⟩
  · rw [table]; exact books.ordered
  · rw [table, sweep]; exact books.hand
  · rw [freeList]; exact books.free_nodup
  · rw [freeList]; exact books.free_lt
  · simpa only [page] using books.id_lt
  · simpa only [page, freeList] using books.mapped
  · simpa only [page, frames] using books.frame
  · simpa only [page, frames] using books.waiting
  · simpa only [page, freeList] using books.covered
  · rw [table, used]; exact books.used
  · simpa only [page, frames, clients] using books.reading

theorem Chosen.congr {bids : List Nat} (chosen : Chosen s bids) (table : s'.table = s.table)
    (frames : s'.frames = s.frames) : Chosen s' bids := by
  have page : ∀ pid, s'.page pid = s.page pid := fun pid => by rw [State.page, table, State.page]
  exact ⟨chosen.nodup, by simpa only [page, frames] using chosen.entry⟩

theorem Inv.of_same (inv : Inv cfg s) (same : Same s s') : Inv cfg s' := by
  refine ⟨inv.books.congr same.table same.sweep same.frames same.freeList same.physUsedCount
    same.clients, fun writing => ?_⟩
  rw [same.evictor] at writing
  rw [same.toEvict, same.toWrite]
  exact (inv.chosen writing).congr same.table same.frames

/-! ### Scheduling -/

theorem same_wake (s : State n) (f : Fiber n) : Same s (s.wake f) := by
  unfold State.wake
  split
  · exact ⟨rfl, rfl, rfl, rfl, rfl, rfl, rfl, rfl, rfl⟩
  · exact Same.refl s

theorem same_wakeAll (cs : List (Fin n)) (s : State n) : Same s (State.wakeAll cs s) := by
  induction cs generalizing s with
  | nil => exact Same.refl s
  | cons c rest ih => exact (same_wake s _).trans (ih _)

theorem same_wakeup (s : State n) : Same s s.wakeup := by
  unfold State.wakeup
  split
  · exact Same.refl s
  · have marks : Same s { s with awake := true } := ⟨rfl, rfl, rfl, rfl, rfl, rfl, rfl, rfl, rfl⟩
    exact marks.trans (same_wake _ _)

theorem same_ensureFreePages (cfg : Config) (s : State n) : Same s (s.ensureFreePages cfg) := by
  unfold State.ensureFreePages
  split
  · exact same_wakeup s
  · exact Same.refl s

theorem same_yield (s : State n) (f : Fiber n) : Same s (s.yield f) :=
  ⟨rfl, rfl, rfl, rfl, rfl, rfl, rfl, rfl, rfl⟩

theorem same_park (s : State n) (f : Fiber n) : Same s (s.park f) :=
  ⟨rfl, rfl, rfl, rfl, rfl, rfl, rfl, rfl, rfl⟩

/-! ### Changes of an entry -/

section

variable {count i : Nat} {b : BufTagged} {bids : List Nat}

theorem Books.key_page (books : Books cfg s count) (occupied : i ∈ s.table.slots) :
    s.page (s.table.entries i).key = some (s.buf i) := books.ordered.find_slot occupied

theorem Books.page_setBuf (books : Books cfg s count) (occupied : i ∈ s.table.slots) :
    (s.setBuf i b).page = Function.update s.page (s.table.entries i).key (some b) :=
  (books.ordered.write occupied).2

theorem Books.page_setBuf_cases (books : Books cfg s count) (occupied : i ∈ s.table.slots)
    {pid : UInt64} {b' : BufTagged} (found : (s.setBuf i b).page pid = some b') :
    (pid = (s.table.entries i).key ∧ b' = b) ∨
      (pid ≠ (s.table.entries i).key ∧ s.page pid = some b') := by
  rw [books.page_setBuf occupied] at found
  by_cases same : pid = (s.table.entries i).key
  · subst same
    rw [Function.update_self] at found
    exact Or.inl ⟨rfl, (Option.some.inj found).symm⟩
  · rw [Function.update_of_ne same] at found
    exact Or.inr ⟨same, found⟩

/-- A change of flags. The lock may only be taken from an entry that nobody reads. -/
theorem Books.touch (books : Books cfg s count) (occupied : i ∈ s.table.slots)
    (same : b.id = (s.buf i).id) (locked : b.ioLock = true → (s.buf i).ioLock = true)
    (read : ∀ c bid, s.clients c = .reading (s.table.entries i).key bid → b.ioLock = true) :
    Books cfg (s.setBuf i b) count := by
  have old := books.key_page occupied
  refine ⟨(books.ordered.write occupied).1, books.hand, books.free_nodup, books.free_lt,
    fun pid b' found => ?_, fun pid b' found => ?_, fun pid b' found => ?_,
    fun pid b' found io => ?_, fun bid inside => ?_, books.used, fun c pid bid reads => ?_⟩
  · obtain ⟨rfl, rfl⟩ | ⟨-, found⟩ := books.page_setBuf_cases occupied found
    · rw [same]; exact books.id_lt _ _ old
    · exact books.id_lt _ _ found
  · obtain ⟨rfl, rfl⟩ | ⟨-, found⟩ := books.page_setBuf_cases occupied found
    · rw [same]; exact books.mapped _ _ old
    · exact books.mapped _ _ found
  · obtain ⟨rfl, rfl⟩ | ⟨-, found⟩ := books.page_setBuf_cases occupied found
    · rw [same]; exact books.frame _ _ old
    · exact books.frame _ _ found
  · obtain ⟨rfl, rfl⟩ | ⟨-, found⟩ := books.page_setBuf_cases occupied found
    · rw [same]; exact books.waiting _ _ old (locked io)
    · exact books.waiting _ _ found io
  · refine (books.covered bid inside).imp_right ?_
    rintro ⟨pid, b', found, here⟩
    rw [books.page_setBuf occupied]
    by_cases hit : pid = (s.table.entries i).key
    · subst hit
      rw [old] at found
      cases found
      exact ⟨_, b, Function.update_self .., same.trans here⟩
    · exact ⟨pid, b', by rw [Function.update_of_ne hit, found], here⟩
  · obtain ⟨⟨b', found, here, io⟩, head⟩ := books.reading c pid bid reads
    refine ⟨?_, head⟩
    rw [books.page_setBuf occupied]
    by_cases hit : pid = (s.table.entries i).key
    · subst hit
      rw [old] at found
      cases found
      exact ⟨b, Function.update_self .., same.trans here, read c bid reads⟩
    · exact ⟨b', by rw [Function.update_of_ne hit, found], here, io⟩

theorem Books.touch_same (books : Books cfg s count) (occupied : i ∈ s.table.slots)
    (same : b.id = (s.buf i).id) (locked : b.ioLock = (s.buf i).ioLock) :
    Books cfg (s.setBuf i b) count := by
  refine books.touch occupied same (fun io => locked.symm.trans io) fun c bid reads => ?_
  obtain ⟨⟨b', found, -, io⟩, -⟩ := books.reading c _ bid reads
  rw [books.key_page occupied] at found
  cases found
  exact locked.trans io

theorem Chosen.touch (chosen : Chosen s bids) (books : Books cfg s count)
    (occupied : i ∈ s.table.slots) (same : b.id = (s.buf i).id)
    (keeps : (s.buf i).id ∈ bids → b.evicting = true) : Chosen (s.setBuf i b) bids := by
  refine ⟨chosen.nodup, fun bid member => ?_⟩
  obtain ⟨b', found, here, evicts⟩ := chosen.entry bid member
  change ∃ b', (s.setBuf i b).page (s.frames bid).pid = some b' ∧ _
  rw [books.page_setBuf occupied]
  by_cases hit : (s.frames bid).pid = (s.table.entries i).key
  · rw [hit, books.key_page occupied] at found
    cases found
    rw [hit, Function.update_self]
    exact ⟨b, rfl, same.trans here, keeps (here ▸ member)⟩
  · exact ⟨b', by rw [Function.update_of_ne hit, found], here, evicts⟩

theorem Inv.chosen_touch (inv : Inv cfg s) (occupied : i ∈ s.table.slots)
    (same : b.id = (s.buf i).id) (keeps : b.evicting = (s.buf i).evicting)
    (writing : s.evictor = .writing) : Chosen (s.setBuf i b) (s.toEvict ++ s.toWrite) := by
  have chosen := inv.chosen writing
  refine chosen.touch inv.books occupied same fun member => ?_
  obtain ⟨b', found, -, evicts⟩ := chosen.entry _ member
  rw [inv.books.frame _ _ (inv.books.key_page occupied), inv.books.key_page occupied] at found
  cases found
  exact keeps.trans evicts

theorem Inv.touch (inv : Inv cfg s) (occupied : i ∈ s.table.slots) (same : b.id = (s.buf i).id)
    (locked : b.ioLock = (s.buf i).ioLock) (keeps : b.evicting = (s.buf i).evicting) :
    Inv cfg (s.setBuf i b) :=
  ⟨inv.books.touch_same occupied same locked, inv.chosen_touch occupied same keeps⟩

end

/-! ### A frame gets a page -/

section

variable {bid : Nat} {rest : List Nat} {pid : UInt64} {b : BufTagged} {t : RHBSU64Map BufTagged}
  {w : List (Fin n)}

/-- The first free frame behind a new entry. -/
def State.enter (s : State n) (t : RHBSU64Map BufTagged) (rest : List Nat) (bid : Nat)
    (frame : BufferFrame n) : State n :=
  { s with
    table := t
    freeList := rest
    physUsedCount := s.physUsedCount + 1
    frames := Function.update s.frames bid frame }

/-- A table with one more entry. -/
structure Extends (m t : RHBSU64Map BufTagged) (pid : UInt64) (b : BufTagged) : Prop where
  ordered : Ordered RHBSU64Map.hash t
  bits : t.bits = m.bits
  size : t.sz = m.sz + 1
  fresh : m.find RHBSU64Map.hash pid = none
  find : t.find RHBSU64Map.hash = Function.update (m.find RHBSU64Map.hash) pid (some b)

theorem Books.extends (books : Books cfg s 0)
    (inserted : s.table.insert RHBSU64Map.hash pid b = some (.inserted, t)) :
    Extends s.table t pid b := by
  obtain ⟨ordered, bits, size, fresh, find⟩ := books.ordered.insert inserted
  exact ⟨ordered, bits, size, fresh, find⟩

theorem Extends.page_cases (grows : Extends s.table t pid b) {q : UInt64} {b' : BufTagged}
    (found : t.find RHBSU64Map.hash q = some b') :
    (q = pid ∧ b' = b) ∨ (q ≠ pid ∧ s.page q = some b') := by
  rw [grows.find] at found
  by_cases same : q = pid
  · subst same
    rw [Function.update_self] at found
    exact Or.inl ⟨rfl, (Option.some.inj found).symm⟩
  · rw [Function.update_of_ne same] at found
    exact Or.inr ⟨same, found⟩

theorem Extends.page_old (grows : Extends s.table t pid b) {q : UInt64} {b' : BufTagged}
    (found : s.page q = some b') : t.find RHBSU64Map.hash q = some b' := by
  rw [grows.find, Function.update_of_ne, ← found]
  · rfl
  · rintro rfl
    rw [State.page, grows.fresh] at found
    cases found

theorem Books.enter (books : Books cfg s 0) (free : s.freeList = bid :: rest)
    (grows : Extends s.table t pid b) (same : b.id = bid) (locked : b.ioLock = true → w ≠ []) :
    Books cfg (s.enter t rest bid ⟨pid, w⟩) 0 := by
  have nodup := books.free_nodup
  have inside := books.free_lt
  have mapped := books.mapped
  simp only [free, List.nodup_cons, List.mem_cons, forall_eq_or_imp, not_or] at nodup inside mapped
  have old : ∀ {q b'}, s.page q = some b' →
      Function.update s.frames bid ⟨pid, w⟩ b'.id = s.frames b'.id :=
    fun found => Function.update_of_ne (mapped _ _ found).1 ..
  refine ⟨grows.ordered, ?_, nodup.2, inside.2, fun q b' found => ?_, fun q b' found => ?_,
    fun q b' found => ?_, fun q b' found io => ?_, fun x small => ?_, ?_, fun c q x reads => ?_⟩
  · change s.sweep < t.n
    rw [RHBSU64Map.n, grows.bits]
    exact books.hand
  · obtain ⟨rfl, rfl⟩ | ⟨-, found⟩ := grows.page_cases found
    · rw [same]; exact inside.1
    · exact books.id_lt _ _ found
  · obtain ⟨rfl, rfl⟩ | ⟨-, found⟩ := grows.page_cases found
    · rw [same]; exact nodup.1
    · exact (mapped _ _ found).2
  · change (Function.update s.frames bid ⟨pid, w⟩ b'.id).pid = q
    obtain ⟨rfl, rfl⟩ | ⟨-, found⟩ := grows.page_cases found
    · rw [same, Function.update_self]
    · rw [old found]; exact books.frame _ _ found
  · change (Function.update s.frames bid ⟨pid, w⟩ b'.id).waiting ≠ []
    obtain ⟨rfl, rfl⟩ | ⟨-, found⟩ := grows.page_cases found
    · rw [same, Function.update_self]; exact locked io
    · rw [old found]; exact books.waiting _ _ found io
  · rcases books.covered x small with member | ⟨q, b', found, here⟩
    · rw [free, List.mem_cons] at member
      rcases member with rfl | member
      · refine Or.inr ⟨pid, b, ?_, same⟩
        change t.find RHBSU64Map.hash pid = some b
        rw [grows.find, Function.update_self]
      · exact Or.inl member
    · exact Or.inr ⟨q, b', grows.page_old found, here⟩
  · change s.physUsedCount + 1 = UInt64.ofNat (t.sz + 0)
    rw [books.used, grows.size]
    simp only [Nat.add_zero, UInt64.ofNat_add]
    rfl
  · obtain ⟨⟨b', found, rfl, io⟩, head⟩ := books.reading c q x reads
    refine ⟨⟨b', grows.page_old found, rfl, io⟩, ?_⟩
    change (Function.update s.frames bid ⟨pid, w⟩ b'.id).waiting.head? = some c
    rw [old found]
    exact head

theorem Chosen.enter {bids : List Nat} (chosen : Chosen s bids) (books : Books cfg s 0)
    (free : s.freeList = bid :: rest) (grows : Extends s.table t pid b) :
    Chosen (s.enter t rest bid ⟨pid, w⟩) bids := by
  refine ⟨chosen.nodup, fun x member => ?_⟩
  obtain ⟨b', found, rfl, evicts⟩ := chosen.entry x member
  have apart : b'.id ≠ bid := by
    intro same
    apply books.mapped _ _ found
    rw [same, free]
    exact List.mem_cons_self
  refine ⟨b', ?_, rfl, evicts⟩
  change t.find RHBSU64Map.hash (Function.update s.frames bid ⟨pid, w⟩ b'.id).pid = some b'
  rw [Function.update_of_ne apart]
  exact grows.page_old found

theorem Inv.enter (inv : Inv cfg s) (free : s.freeList = bid :: rest)
    (grows : Extends s.table t pid b) (same : b.id = bid) (locked : b.ioLock = true → w ≠ []) :
    Inv cfg (s.enter t rest bid ⟨pid, w⟩) :=
  ⟨inv.books.enter free grows same locked,
    fun writing => (inv.chosen writing).enter inv.books free grows⟩

theorem Inv.goto (inv : Inv cfg s) (c : Fin n) (pc : Pc)
    (reads : ∀ pid bid, pc = .reading pid bid →
      (∃ b, s.page pid = some b ∧ b.id = bid ∧ b.ioLock = true) ∧
        (s.frames bid).waiting.head? = some c) : Inv cfg (s.goto c pc) := by
  refine ⟨{ inv.books with reading := fun d pid bid at_ => ?_ },
    fun writing => (inv.chosen writing).congr rfl rfl⟩
  change Function.update s.clients c pc d = .reading pid bid at at_
  by_cases same : d = c
  · subst same
    rw [Function.update_self] at at_
    exact reads pid bid at_
  · rw [Function.update_of_ne same] at at_
    exact inv.books.reading d pid bid at_

theorem setFrame_self (frame : BufferFrame n) : (s.setFrame bid frame).frames bid = frame :=
  Function.update_self ..

theorem setFrame_of_ne {x : Nat} (apart : x ≠ bid) (frame : BufferFrame n) :
    (s.setFrame bid frame).frames x = s.frames x := Function.update_of_ne apart ..

theorem setFrame_pid (x : Nat) :
    ((s.setFrame bid ⟨(s.frames bid).pid, w⟩).frames x).pid = (s.frames x).pid := by
  by_cases same : x = bid
  · subst same
    rw [setFrame_self]
  · rw [setFrame_of_ne same]

/-- The list of a frame may change as long as a reader is its first, and it may be emptied when
the entry is open. -/
theorem Inv.setWaiting (inv : Inv cfg s) (bid : Nat) (w : List (Fin n))
    (locked : ∀ pid b, s.page pid = some b → b.id = bid → b.ioLock = true → w ≠ [])
    (first : ∀ c pid, s.clients c = .reading pid bid → w.head? = some c) :
    Inv cfg (s.setFrame bid ⟨(s.frames bid).pid, w⟩) := by
  refine ⟨{ inv.books with
    frame := fun pid b found => (setFrame_pid _).trans (inv.books.frame pid b found)
    waiting := fun pid b found io => ?_
    reading := fun c pid x reads => ⟨(inv.books.reading c pid x reads).1, ?_⟩ },
    fun writing => ⟨(inv.chosen writing).nodup, fun x member => ?_⟩⟩
  · by_cases same : b.id = bid
    · rw [same, setFrame_self]
      exact locked pid b found same io
    · rw [setFrame_of_ne same]
      exact inv.books.waiting pid b found io
  · by_cases same : x = bid
    · subst same
      rw [setFrame_self]
      exact first c pid reads
    · rw [setFrame_of_ne same]
      exact (inv.books.reading c pid x reads).2
  · rw [setFrame_pid]
    exact (inv.chosen writing).entry x member

/-- A reader is done: it leaves, its entry is opened and the list of its frame is emptied. -/
theorem Inv.opened (inv : Inv cfg s) {c : Fin n} {i : Nat}
    (reads : s.clients c = .reading pid bid)
    (found : s.table.slotOf RHBSU64Map.hash pid = some i) :
    Inv cfg (((s.setFrame bid ⟨(s.frames bid).pid, []⟩).setBuf i
      ((s.buf i).setIoLock false)).goto c .code) := by
  obtain ⟨occupied, rfl⟩ := inv.books.ordered.slotOf found
  obtain ⟨⟨b, here, rfl, -⟩, head⟩ := inv.books.reading _ _ _ reads
  rw [inv.books.key_page occupied] at here
  cases here
  have left : Inv cfg (s.goto c .code) := inv.goto c .code fun _ _ same => by cases same
  -- the frame has one first reader
  have alone : ∀ d pid, (s.goto c .code).clients d ≠ .reading pid (s.buf i).id := by
    intro d pid at_
    change Function.update s.clients c .code d = _ at at_
    by_cases same : d = c
    · rw [same, Function.update_self] at at_
      cases at_
    · rw [Function.update_of_ne same] at at_
      have other := (inv.books.reading d pid _ at_).2
      rw [head] at other
      exact same (Option.some.inj other).symm
  have opens : Inv cfg ((s.goto c .code).setBuf i ((s.buf i).setIoLock false)) := by
    refine ⟨left.books.touch occupied (BufTagged.id_setFlag ..) (fun io => ?_)
      fun d bid at_ => ?_, left.chosen_touch occupied (BufTagged.id_setFlag ..) ?_⟩
    · simp at io
    · obtain ⟨⟨b, here, rfl, -⟩, -⟩ := left.books.reading d _ bid at_
      rw [left.books.key_page occupied] at here
      cases here
      exact absurd at_ (alone d _)
    · simp [State.goto, State.buf]
  refine opens.setWaiting _ [] (fun pid b here same io => ?_) fun d pid at_ =>
    absurd at_ (alone d pid)
  obtain ⟨rfl, rfl⟩ | ⟨apart, here⟩ := left.books.page_setBuf_cases occupied here
  · simp at io
  · refine absurd ?_ apart
    rw [← left.books.frame _ _ here, same]
    exact left.books.frame _ _ (left.books.key_page occupied)

end

end UringDb.Bm
