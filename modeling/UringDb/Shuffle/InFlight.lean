import UringDb.Shuffle.SentOnce

/-!
# Buffers in flight

A buffer handed to a connection is in flight until the send is over and, if it was a zero-copy
send, until the kernel has said that it no longer reads it. Both workers put the buffer back on
the stack when the send is over, without waiting for that. As long as the kernel is faster, every
buffer is in exactly one place.
-/
namespace UringDb.Shuffle

variable {N : TupleSize} {cfg : Config}

/-- Where a buffer can be. -/
inductive Whereabouts
  | unused (i : Nat)
  | fill (p : Nat)
  | recv (k : ConnId)
  | inFlight

/-- Whether a buffer is there; `flying` are the buffers in flight. -/
def Pool.At (P : Pool) (flying : BufId → Prop) : Whereabouts → BufId → Prop
  | .unused i, b => P.unused[i]? = some b
  | .fill p, b => P.held (.fill p) = some b
  | .recv k, b => P.held (.recv k) = some b
  | .inFlight, b => flying b

/-- If the buffers in flight are those of the send pointers, each buffer is in one place. -/
theorem Pool.at_one {P : Pool} {flying : BufId → Prop}
    (sends : ∀ b, flying b ↔ ∃ k, P.held (.send k) = some b) (b : BufId) :
    ∃! place, P.At flying place b := by
  obtain ⟨place, located, only⟩ := P.one b
  -- what any other place would say about the place in the pool
  have fills {p : Nat} (held : P.held (.fill p) = some b) : some (.fill p) = place :=
    only (some (.fill p)) held
  have recvs {k : ConnId} (held : P.held (.recv k) = some b) : some (.recv k) = place :=
    only (some (.recv k)) held
  have flies (flight : flying b) : ∃ k, some (.send k) = place := by
    obtain ⟨k, held⟩ := (sends b).mp flight
    exact ⟨k, only (some (.send k)) held⟩
  have stacked {i : Nat} (here : P.unused[i]? = some b) : none = place :=
    only none (List.mem_of_getElem? here)
  match place, located with
  | none, located =>
    obtain ⟨i, inside, here⟩ := List.getElem_of_mem located
    refine ⟨.unused i, (List.getElem?_eq_some_iff.mpr ⟨inside, here⟩), ?_⟩
    intro other there
    cases other with
    | unused j =>
      obtain ⟨inside', here'⟩ := List.getElem?_eq_some_iff.mp there
      rw [(List.Nodup.getElem_inj_iff P.nodup).mp (here'.trans here.symm)]
    | fill p => cases fills there
    | recv k => cases recvs there
    | inFlight => cases (flies there).choose_spec
  | some (.fill p), located =>
    refine ⟨.fill p, located, ?_⟩
    intro other there
    cases other with
    | unused i => cases stacked there
    | fill q => cases fills there; rfl
    | recv k => cases recvs there
    | inFlight => cases (flies there).choose_spec
  | some (.recv k), located =>
    refine ⟨.recv k, located, ?_⟩
    intro other there
    cases other with
    | unused i => cases stacked there
    | fill p => cases fills there
    | recv l => cases recvs there; rfl
    | inFlight => cases (flies there).choose_spec
  | some (.send k), located =>
    refine ⟨.inFlight, (sends b).mpr ⟨k, located⟩, ?_⟩
    intro other there
    cases other with
    | unused i => cases stacked there
    | fill p => cases fills there
    | recv l => cases recvs there
    | inFlight => rfl

/-! ### The send pointers -/

namespace Core

variable {s t : Core N}

theorem fill_send {p : Nat} {tuple : Tuple N} (filled : s.fill p tuple = some t) (k : ConnId) :
    t.pool.held (.send k) = s.pool.held (.send k) := by
  unfold fill at filled
  split at filled
  next => cases filled
  next mid opened =>
    have first : mid.pool.held (.send k) = s.pool.held (.send k) := by
      unfold openFill at opened
      split at opened
      next => rw [← Option.some.inj opened]
      next =>
        split at opened
        next b pool popped =>
          obtain ⟨-, -, held⟩ := Pool.pop_spec popped
          rw [← Option.some.inj opened]
          dsimp only
          rw [held, Function.update_of_ne Holder.noConfusion]
        next => cases opened
    rw [← first]
    split at filled
    next => cases filled
    next =>
      split at filled
      next => cases filled
      next => rw [← Option.some.inj filled]

theorem hand_send {p c : Nat} (passed : s.hand p c = some t) :
    ∃ b, s.pool.held (.send (p, c)) = none ∧
      ∀ k, t.pool.held (.send k) = if k = (p, c) then some b else s.pool.held (.send k) := by
  unfold hand at passed
  split at passed
  next b pool holds moved =>
    obtain ⟨b', -, vacant, -, held⟩ := Pool.pass_spec moved
    refine ⟨b', vacant, fun k => ?_⟩
    rw [← Option.some.inj passed]
    dsimp only
    rw [held]
    by_cases here : k = (p, c)
    · rw [here, if_pos rfl, Function.update_self]
    · rw [if_neg here, Function.update_of_ne fun same => here (Holder.send.inj same),
        Function.update_of_ne Holder.noConfusion]
  next => cases passed

theorem freeSend_send {k : ConnId} (freed : s.freeSend k = some t) :
    ∃ b, s.pool.held (.send k) = some b ∧
      ∀ l, t.pool.held (.send l) = if l = k then none else s.pool.held (.send l) := by
  obtain ⟨b, pool, had, held, rfl⟩ := freeSend_inv freed
  refine ⟨b, had, fun l => ?_⟩
  dsimp only
  rw [held]
  by_cases here : l = k
  · rw [here, if_pos rfl, Function.update_self]
  · rw [if_neg here, Function.update_of_ne fun same => here (Holder.send.inj same)]

theorem freeRecv_send {k : ConnId} (freed : s.freeRecv k = some t) (l : ConnId) :
    t.pool.held (.send l) = s.pool.held (.send l) := by
  obtain ⟨b, pool, -, held, rfl⟩ := freeRecv_inv freed
  dsimp only
  rw [held, Function.update_of_ne Holder.noConfusion]

theorem takeRecv_send {k : ConnId} (taken : s.takeRecv k = some t) (l : ConnId) :
    t.pool.held (.send l) = s.pool.held (.send l) := by
  obtain ⟨b, pool, -, held, rfl⟩ := takeRecv_inv taken
  dsimp only
  rw [held, Function.update_of_ne Holder.noConfusion]

theorem storeRecv_pool {k : ConnId} {off : Nat} {bytes : List UInt8}
    (stored : s.storeRecv k off bytes = some t) : t.pool = s.pool := by
  obtain ⟨b, buf, -, -, rfl⟩ := storeRecv_inv stored
  rfl

theorem insertRecv_pool {k : ConnId} (inserted : s.insertRecv cfg k = some t) :
    t.pool = s.pool := by
  obtain ⟨b, -, rfl⟩ := insertRecv_inv inserted
  split <;> rfl

end Core

/-! ### What the kernel reads -/

/-- The sends under way, and the buffers the kernel may read for the sake of a connection. -/
structure Flight where
  send : ConnId → Option BufId
  reading : ConnId → List BufId

namespace Flight

variable {f g : Flight} {k : ConnId} {b : BufId}

/-- The kernel only reads buffers that are being sent. -/
def Reads (f : Flight) : Prop := ∀ k b, b ∈ f.reading k → f.send k = some b

def inFlight (f : Flight) (b : BufId) : Prop := ∃ k, f.send k = some b ∨ b ∈ f.reading k

theorem Reads.inFlight_iff (reads : f.Reads) (b : BufId) :
    f.inFlight b ↔ ∃ k, f.send k = some b := by
  constructor
  · rintro ⟨k, sends | member⟩
    · exact ⟨k, sends⟩
    · exact ⟨k, reads k b member⟩
  · rintro ⟨k, sends⟩
    exact ⟨k, Or.inl sends⟩

/-- The sends are as before, and the kernel reads nothing new. -/
structure Same (f g : Flight) : Prop where
  send : ∀ k, g.send k = f.send k
  reading : ∀ k, g.reading k ⊆ f.reading k

theorem Same.refl (f : Flight) : Same f f := ⟨fun _ => rfl, fun _ => List.Subset.refl _⟩

theorem Same.trans {h : Flight} (first : Same f g) (second : Same g h) : Same f h :=
  ⟨fun k => (second.send k).trans (first.send k),
    fun k => List.Subset.trans (second.reading k) (first.reading k)⟩

theorem Reads.congr (reads : f.Reads) (same : Same f g) : g.Reads := by
  intro k b member
  rw [same.send]
  exact reads k b (same.reading k member)

/-- A buffer that was just handed over is the only one the kernel may read. -/
theorem Reads.start (reads : f.Reads) (vacant : f.send k = none)
    (send : ∀ l, g.send l = if l = k then some b else f.send l)
    (reading : ∀ l c, c ∈ g.reading l → c ∈ f.reading l ∨ l = k ∧ c = b) : g.Reads := by
  intro l c member
  rw [send]
  rcases reading l c member with old | ⟨here, rfl⟩
  · have sends := reads l c old
    rw [if_neg]
    · exact sends
    · rintro rfl
      rw [vacant] at sends
      cases sends
  · rw [if_pos here]

/-- A buffer that the kernel no longer reads is free when its send is over. -/
theorem Reads.finish (reads : f.Reads) (had : f.send k = some b) (released : b ∉ f.reading k)
    (send : ∀ l, g.send l = if l = k then none else f.send l)
    (reading : ∀ l, g.reading l ⊆ f.reading l) : g.Reads := by
  intro l c member
  have sends := reads l c (reading l member)
  rw [send, if_neg]
  · exact sends
  · rintro rfl
    rw [had] at sends
    cases sends
    exact released (reading l member)

theorem reading_update {γ : Type} (reads : γ → List BufId) {conns : ConnId → γ} {conn : γ}
    (less : reads conn ⊆ reads (conns k)) (l : ConnId) :
    reads (Function.update conns k conn l) ⊆ reads (conns l) := by
  by_cases here : l = k
  · subst here
    rw [Function.update_self]
    exact less
  · rw [Function.update_of_ne here]
    exact List.Subset.refl _

end Flight

/-! ### The io_uring worker -/

namespace Worker

variable {w w' : Worker N} {k : ConnId}

def flight (w : Worker N) : Flight where
  send k := w.core.pool.held (.send k)
  reading k := (w.chans k).reading

/-- When the result of a send is handled, its notification has already arrived. -/
def Notified (w : Worker N) (a : Action) : Prop :=
  ∀ k b, a = .send k → w.core.pool.held (.send k) = some b → b ∉ (w.chans k).reading

theorem sameFlight_chan {ch : Channel}
    (core : ∀ l, w'.core.pool.held (.send l) = w.core.pool.held (.send l))
    (chans : w'.chans = Function.update w.chans k ch)
    (reading : ch.reading = (w.chans k).reading) : Flight.Same w.flight w'.flight := by
  refine ⟨core, fun l => ?_⟩
  dsimp only [flight]
  rw [chans]
  exact Flight.reading_update Channel.reading (by rw [reading]; exact List.Subset.refl _) l

theorem sameFlight_submit (w : Worker N) : Flight.Same w.flight w.submit.flight :=
  ⟨fun _ => rfl, fun _ => List.Subset.refl _⟩

theorem sameFlight_prepRecv (prepared : prepRecv cfg w k = some w') :
    Flight.Same w.flight w'.flight := by
  unfold prepRecv at prepared
  dsimp only at prepared
  split at prepared
  next =>
    cases prepared
    exact sameFlight_chan (fun _ => rfl) rfl rfl
  next =>
    split at prepared <;> cases prepared
    next core taken => exact sameFlight_chan (Core.takeRecv_send taken) rfl rfl

theorem sameFlight_onRecv (handled : w.onRecv cfg k = some w') :
    Flight.Same w.flight w'.flight := by
  unfold onRecv at handled
  dsimp only at handled
  split at handled
  next =>
    split at handled
    next => cases handled
    next inserted insert =>
      split at handled
      next => cases handled
      next freed free =>
        have sends (l : ConnId) : freed.pool.held (.send l) = w.core.pool.held (.send l) := by
          rw [Core.freeRecv_send free, Core.insertRecv_pool insert]
        split at handled
        next =>
          cases handled
          exact sameFlight_chan sends rfl rfl
        next =>
          refine Flight.Same.trans ?_ (sameFlight_prepRecv handled)
          exact sameFlight_chan sends rfl rfl
  next => cases handled

theorem sameFlight_onRecvZc {bytes : List UInt8} (handled : w.onRecvZc cfg k bytes = some w') :
    Flight.Same w.flight w'.flight := by
  unfold onRecvZc at handled
  dsimp only at handled
  split at handled
  next =>
    split at handled
    next =>
      split at handled
      next =>
        cases handled
        exact sameFlight_chan (fun _ => rfl) rfl rfl
      next =>
        refine Flight.Same.trans ?_ (sameFlight_prepRecv handled)
        exact sameFlight_chan (fun _ => rfl) rfl rfl
    next =>
      split at handled <;> split at handled <;>
      · cases handled
        exact ⟨fun _ => rfl, fun _ => List.Subset.refl _⟩
  next => cases handled

theorem reads_onSend (reads : w.flight.Reads) (notified : Notified w (.send k))
    (handled : w.onSend k = some w') : w'.flight.Reads := by
  unfold onSend at handled
  split at handled
  next =>
    split at handled <;> cases handled
    next core freed =>
      obtain ⟨b, had, held⟩ := Core.freeSend_send freed
      exact reads.finish had (notified k b rfl had) held
        (Flight.reading_update Channel.reading (List.Subset.refl _))
  next => cases handled

theorem reads_prepSend {core : Core N} (reads : w.flight.Reads)
    (passed : w.core.hand k.1 k.2 = some core) :
    (prepSend cfg { w with core } k).flight.Reads := by
  obtain ⟨b, vacant, held⟩ := Core.hand_send passed
  refine reads.start vacant held ?_
  intro l c member
  by_cases here : l = k
  · subst here
    dsimp only [flight, prepSend, setChan] at member
    rw [Function.update_self] at member
    dsimp only at member
    split at member
    next =>
      rw [held, if_pos rfl] at member
      rcases List.mem_append.mp member with new | old
      · exact Or.inr ⟨rfl, (List.mem_singleton.mp new)⟩
      · exact Or.inl old
    next => exact Or.inl member
  · dsimp only [flight, prepSend, setChan] at member
    rw [Function.update_of_ne here] at member
    exact Or.inl member

theorem reads_handOver {p c : Nat} {rest : List (Tuple N)} (reads : w.flight.Reads)
    (handed : w.handOver cfg p c rest = some w') : w'.flight.Reads := by
  unfold handOver at handed
  split at handed <;> cases handed
  next core passed =>
    have prepared := @reads_prepSend N cfg w (p, c) core reads passed
    exact prepared.congr ⟨fun _ => rfl, fun _ => List.Subset.refl _⟩

theorem sameFlight_flushShut (w : Worker N) (k : ConnId) :
    Flight.Same w.flight (flushShut cfg w k).flight := by
  unfold flushShut
  dsimp only
  split
  · split
    · exact ⟨fun _ => rfl, fun _ => List.Subset.refl _⟩
    · exact sameFlight_chan (fun _ => rfl) rfl rfl
  · exact Flight.Same.refl _

theorem reads_finalPass {conns : List ConnId} {done : Bool} (reads : w.flight.Reads)
    (passed : finalPass cfg w conns = some (w', done)) : w'.flight.Reads := by
  induction conns generalizing w done with
  | nil =>
    cases passed
    exact reads
  | cons k conns ih =>
    unfold finalPass at passed
    split at passed
    next => cases passed
    next mid flushed =>
      have first : mid.flight.Reads := by
        unfold flushFill at flushed
        split at flushed
        next =>
          split at flushed <;> cases flushed
          next core handed => exact reads_prepSend reads handed
        next =>
          cases flushed
          exact reads
      dsimp only at passed
      split at passed <;> cases passed
      next last more rest => exact ih (first.congr (sameFlight_flushShut mid k)) rest

theorem reads_fill {core : Core N} {p : Nat} {t : Tuple N} (reads : w.flight.Reads)
    (filled : w.core.fill p t = some core) : Worker.flight { w with core } |>.Reads :=
  reads.congr ⟨Core.fill_send filled, fun _ => List.Subset.refl _⟩

theorem reads_run (reads : w.flight.Reads) (ran : w.run cfg = some w') : w'.flight.Reads := by
  unfold run at ran
  split at ran
  case h_6 =>
    split at ran
    next => cases ran
    next last passed =>
      have kept := reads_finalPass reads passed
      split at ran <;> cases ran
      exact kept
    next last passed =>
      have kept := reads_finalPass reads passed
      cases ran
      exact kept.congr (sameFlight_submit last)
  -- elsewhere a buffer is filled or handed over, or no send pointer changes
  all_goals
    try dsimp only at ran
    repeat' split at ran
    all_goals first
      | exact reads_handOver reads ran
      | cases ran <;> first
        | exact reads
        | exact reads.congr (sameFlight_submit w)
        | exact reads_fill reads ‹_›

/-- **One step** whose notification came in time. -/
theorem reads_step {a : Action} (reads : w.flight.Reads) (notified : Notified w a)
    (stepped : w.step cfg a = some w') : w'.flight.Reads := by
  cases a with
  | run =>
    simp only [step, Option.ite_none_right_eq_some] at stepped
    exact reads_run reads stepped.2
  | send k =>
    simp only [step, Option.ite_none_left_eq_some] at stepped
    exact reads_onSend reads notified stepped.2
  | recv k =>
    simp only [step, Option.ite_none_left_eq_some] at stepped
    exact reads.congr (sameFlight_onRecv stepped.2)
  | recvZc k bytes =>
    simp only [step, Option.ite_none_left_eq_some] at stepped
    exact reads.congr (sameFlight_onRecvZc stepped.2)
  | notif k =>
    simp only [step, handle, onNotif, Option.ite_none_left_eq_some,
      Option.ite_none_right_eq_some, Option.some.injEq] at stepped
    obtain ⟨-, -, rfl⟩ := stepped
    exact reads.congr (sameFlight_chan (fun _ => rfl) rfl rfl)
  | ignr k =>
    simp only [step, handle, onIgnr, Option.ite_none_left_eq_some,
      Option.ite_none_right_eq_some, Option.some.injEq] at stepped
    obtain ⟨-, -, rfl⟩ := stepped
    exact reads.congr (sameFlight_chan (fun _ => rfl) rfl rfl)
  | endDrain =>
    simp only [step] at stepped
    split at stepped <;> cases stepped
    next doSubmit _ =>
      cases doSubmit
      · exact reads
      · exact reads.congr (sameFlight_submit w)
  | deliver k bytes =>
    simp only [step, deliver] at stepped
    split at stepped
    next =>
      split at stepped <;> cases stepped
      next core stored =>
        refine reads.congr (sameFlight_chan (fun l => ?_) rfl rfl)
        dsimp only
        rw [Core.storeRecv_pool stored]
    next => cases stepped
  | endStream k =>
    cases stepped
    exact reads.congr (sameFlight_chan (fun _ => rfl) rfl rfl)
  | release k b =>
    simp only [step, release, Option.ite_none_right_eq_some, Option.some.injEq] at stepped
    obtain ⟨-, rfl⟩ := stepped
    exact reads.congr ⟨fun _ => rfl, Flight.reading_update Channel.reading List.erase_subset⟩
  | inactive =>
    simp only [step, Option.ite_none_right_eq_some, Option.some.injEq] at stepped
    obtain ⟨-, rfl⟩ := stepped
    exact reads
  | chunks n =>
    cases stepped
    exact reads

theorem sameFlight_prepRecvs {conns : List ConnId} (prepared : prepRecvs cfg w conns = some w') :
    Flight.Same w.flight w'.flight := by
  induction conns generalizing w with
  | nil =>
    cases prepared
    exact Flight.Same.refl _
  | cons k conns ih =>
    unfold prepRecvs at prepared
    split at prepared
    next => cases prepared
    next mid first => exact (sameFlight_prepRecv first).trans (ih prepared)

theorem reads_reaches {morsels : Morsels N} {acts : List Action}
    (reached : (workerSystem cfg morsels).Reaches Notified acts w) : w.flight.Reads := by
  refine System.Reaches.invariant (P := fun w => w.flight.Reads) ?_ ?_ reached
  · rintro s ⟨done, start⟩
    rw [init, Option.map_eq_some_iff] at start
    obtain ⟨ready, prepared, rfl⟩ := start
    refine Flight.Reads.congr ?_ ((sameFlight_prepRecvs prepared).trans (sameFlight_submit ready))
    intro k b member
    cases member
  · intro s a t reads notified stepped
    exact reads_step reads notified stepped

end Worker

/-! ### The epoll worker -/

namespace EpollWorker

variable {w w' : EpollWorker N} {k : ConnId}

def flight (w : EpollWorker N) : Flight where
  send k := w.core.pool.held (.send k)
  reading k := (w.socks k).reading

/-- When a buffer that was queued as a whole goes back on the stack, the error queue has reported
all of it. -/
def Notified (w : EpollWorker N) (a : EpollAction) : Prop :=
  ∀ k b, a = .run → w.sendConn = some k → bufferSize ≤ (w.socks k).sendOff →
    w.core.pool.held (.send k) = some b → b ∉ (w.socks k).reading

theorem sameFlight_sock {sock : Socket}
    (core : ∀ l, w'.core.pool.held (.send l) = w.core.pool.held (.send l))
    (socks : w'.socks = Function.update w.socks k sock)
    (reading : sock.reading = (w.socks k).reading) : Flight.Same w.flight w'.flight := by
  refine ⟨core, fun l => ?_⟩
  dsimp only [flight]
  rw [socks]
  exact Flight.reading_update Socket.reading (by rw [reading]; exact List.Subset.refl _) l

theorem flight_leaveSend (w : EpollWorker N) : (leaveSend w).flight = w.flight := by
  unfold leaveSend
  split <;> rfl

theorem reads_onSent {n : Nat} (reads : w.flight.Reads) (sent : w.onSent cfg n = some w') :
    w'.flight.Reads := by
  unfold onSent at sent
  split at sent
  next => cases sent
  next k _ =>
    dsimp only at sent
    split at sent
    next => cases sent
    next b held =>
      split at sent <;> cases sent
      intro l c member
      by_cases here : l = k
      · subst here
        dsimp only [flight, setSock] at member
        rw [Function.update_self] at member
        dsimp only at member
        split at member
        next =>
          rcases List.mem_cons.mp member with rfl | old
          · exact held
          · exact reads l c old
        next => exact reads l c member
      · dsimp only [flight, setSock] at member
        rw [Function.update_of_ne here] at member
        exact reads l c member

theorem reads_finishSend (reads : w.flight.Reads) (notified : Notified w .run)
    (running : w.sendConn = some k) (finished : w.finishSend k = some w') :
    w'.flight.Reads := by
  unfold finishSend at finished
  dsimp only at finished
  split at finished
  next => cases finished
  next queued =>
    split at finished <;> cases finished
    next core freed =>
      rw [flight_leaveSend]
      obtain ⟨b, had, held⟩ := Core.freeSend_send freed
      exact reads.finish had (notified k b rfl running (Nat.le_of_not_lt queued) had) held
        (Flight.reading_update Socket.reading (List.Subset.refl _))

theorem sameFlight_enterRecv {ev : Events} (entered : w.enterRecv k ev = some w') :
    Flight.Same w.flight w'.flight := by
  unfold enterRecv at entered
  split at entered
  next =>
    cases entered
    exact Flight.Same.refl _
  next =>
    split at entered <;> cases entered
    next core taken => exact sameFlight_sock (Core.takeRecv_send taken) rfl rfl

theorem sameFlight_finishRecv (finished : w.finishRecv cfg k = some w') :
    Flight.Same w.flight w'.flight := by
  unfold finishRecv at finished
  split at finished
  next => cases finished
  next inserted insert =>
    split at finished
    next => cases finished
    next freed free =>
      split at finished <;> cases finished
      next taken take =>
        refine sameFlight_sock (fun l => ?_) rfl rfl
        have freeing := Core.freeRecv_send free l
        rw [Core.insertRecv_pool insert] at freeing
        exact (Core.takeRecv_send take l).trans freeing

theorem sameFlight_onRecvd {bytes : List UInt8} (received : w.onRecvd cfg bytes = some w') :
    Flight.Same w.flight w'.flight := by
  unfold onRecvd at received
  split at received
  next k ev inner =>
    dsimp only at received
    split at received
    next =>
      split at received
      next => cases received
      next core stored =>
        have sends (l : ConnId) : core.pool.held (.send l) = w.core.pool.held (.send l) := by
          rw [Core.storeRecv_pool stored]
        split at received
        next =>
          refine Flight.Same.trans ?_ (sameFlight_finishRecv received)
          exact sameFlight_sock sends rfl rfl
        next =>
          cases received
          exact sameFlight_sock sends rfl rfl
    next => cases received
  next => cases received

theorem sameFlight_peerClosed (w : EpollWorker N) (k : ConnId) :
    Flight.Same w.flight (w.peerClosed k).flight := by
  unfold peerClosed
  dsimp only
  split <;> exact sameFlight_sock (fun _ => rfl) rfl rfl

theorem sameFlight_halfClose (w : EpollWorker N) (k : ConnId) :
    Flight.Same w.flight (w.halfClose k).flight := by
  unfold halfClose
  dsimp only
  split
  · exact Flight.Same.refl _
  · split <;> exact sameFlight_sock (fun _ => rfl) rfl rfl

theorem sameFlight_finishEvent (w : EpollWorker N) (k : ConnId) (ev : Events) :
    Flight.Same w.flight (w.finishEvent k ev).flight := by
  have first : Flight.Same w.flight (if ev.epollrdhup then w.peerClosed k else w).flight := by
    split
    · exact sameFlight_peerClosed w k
    · exact Flight.Same.refl _
  unfold finishEvent
  dsimp only
  split <;> exact first

theorem reads_runInner {i : Inner} (reads : w.flight.Reads) (notified : Notified w .run)
    (inside : w.inner = some i) (ran : w.runInner i = some w') : w'.flight.Reads := by
  cases i with
  | idle => cases ran
  | receiving k ev => cases ran
  | event k ev =>
    simp only [runInner] at ran
    split at ran
    next => exact reads.congr (sameFlight_enterRecv ran)
    next =>
      cases ran
      exact reads
  | received k ev =>
    simp only [runInner] at ran
    split at ran <;>
    · cases ran
      exact reads
  | sending k ev =>
    refine reads_finishSend reads notified ?_ ran
    rw [sendConn, inside]
  | sent k ev =>
    cases ran
    exact reads.congr (sameFlight_finishEvent w k ev)

theorem reads_handOver {p c : Nat} {after : After N} (reads : w.flight.Reads)
    (handed : w.handOver p c after = some w') : w'.flight.Reads := by
  unfold handOver at handed
  split at handed <;> cases handed
  next core passed =>
    obtain ⟨b, vacant, held⟩ := Core.hand_send passed
    exact reads.start vacant held fun _ _ member => Or.inl member

theorem reads_fill {core : Core N} {p : Nat} {t : Tuple N} (reads : w.flight.Reads)
    (filled : w.core.fill p t = some core) : EpollWorker.flight { w with core } |>.Reads :=
  reads.congr ⟨Core.fill_send filled, fun _ => List.Subset.refl _⟩

theorem reads_runOuter (reads : w.flight.Reads) (notified : Notified w .run)
    (outside : w.inner = none) (ran : w.runOuter cfg = some w') : w'.flight.Reads := by
  unfold runOuter at ran
  split at ran
  case h_6 k after here =>
    refine reads_finishSend reads notified ?_ ran
    rw [sendConn, outside, here]
  -- elsewhere a buffer is filled or handed over, or no send pointer changes
  all_goals
    try dsimp only at ran
    repeat' split at ran
    all_goals first
      | exact reads_handOver reads ran
      | cases ran <;> first
        | exact reads
        | exact reads.congr (sameFlight_halfClose w _)
        | exact reads_fill reads ‹_›

/-- **One step** whose notifications came in time. -/
theorem reads_step {a : EpollAction} (reads : w.flight.Reads) (notified : Notified w a)
    (stepped : w.step cfg a = some w') : w'.flight.Reads := by
  cases a with
  | run =>
    simp only [step] at stepped
    split at stepped
    next i inside => exact reads_runInner reads notified inside stepped
    next outside => exact reads_runOuter reads notified outside stepped
  | sent n => exact reads_onSent reads stepped
  | sendAgain =>
    simp only [step, onSendAgain] at stepped
    split at stepped
    next => cases stepped
    next k _ =>
      split at stepped <;> cases stepped
      rw [flight_leaveSend]
      exact reads.congr (sameFlight_sock (fun _ => rfl) rfl rfl)
  | recvd bytes => exact reads.congr (sameFlight_onRecvd stepped)
  | recvEof =>
    simp only [step, onRecvEof] at stepped
    split at stepped
    next k ev _ =>
      split at stepped <;> cases stepped
      have marked : Flight.Same w.flight
          (w.setSock k { w.socks k with ended := true }).flight :=
        sameFlight_sock (fun _ => rfl) rfl rfl
      exact reads.congr (marked.trans (sameFlight_peerClosed _ k))
    next => cases stepped
  | recvAgain =>
    simp only [step, onRecvAgain] at stepped
    split at stepped <;> cases stepped
    exact reads
  | event k ev =>
    simp only [step, onEvent, Option.ite_none_right_eq_some, Option.some.injEq] at stepped
    obtain ⟨-, rfl⟩ := stepped
    exact reads
  | endEvents | inactive =>
    simp only [step, Option.ite_none_right_eq_some, Option.some.injEq] at stepped
    obtain ⟨-, rfl⟩ := stepped
    exact reads
  | fin k =>
    cases stepped
    exact reads.congr (sameFlight_sock (fun _ => rfl) rfl rfl)
  | release k b =>
    simp only [step, Option.ite_none_right_eq_some, Option.some.injEq] at stepped
    obtain ⟨-, rfl⟩ := stepped
    exact reads.congr ⟨fun _ => rfl, Flight.reading_update Socket.reading List.erase_subset⟩

theorem reads_reaches {morsels : Morsels N} {acts : List EpollAction}
    (reached : (epollSystem cfg morsels).Reaches Notified acts w) : w.flight.Reads := by
  refine System.Reaches.invariant (P := fun w => w.flight.Reads) ?_ ?_ reached
  · rintro s ⟨-, zcEnabled, rfl, -⟩ k b member
    cases member
  · intro s a t reads notified stepped
    exact reads_step reads notified stepped

end EpollWorker

/-! ### One place for every buffer -/

/-- As long as every zero-copy buffer is released by the time its send is taken to be over, each
buffer is on the stack, in a fill or receive buffer pointer, or in flight, and only once. -/
theorem buffer_one_place (cfg : Config) (morsels : Morsels N) :
    (∀ acts w, (workerSystem cfg morsels).Reaches Worker.Notified acts w →
      ∀ b, ∃! place, w.core.pool.At w.flight.inFlight place b) ∧
    ∀ acts w, (epollSystem cfg morsels).Reaches EpollWorker.Notified acts w →
      ∀ b, ∃! place, w.core.pool.At w.flight.inFlight place b := by
  constructor
  · intro acts w reached
    exact Pool.at_one (Worker.reads_reaches reached).inFlight_iff
  · intro acts w reached
    exact Pool.at_one (EpollWorker.reads_reaches reached).inFlight_iff

def firstTaken : BufId := ⟨135, by decide⟩

def secondTaken : BufId := ⟨134, by decide⟩

def zeroCopyNode : Config := { nodeZero with sendZc := true }

def Worker.notified (w : Worker N) : Action → Bool
  | .send k => (w.core.pool.held (.send k)).all fun b => !(w.chans k).reading.contains b
  | _ => true

theorem Worker.notified_sound {w : Worker N} {a : Action} (checked : w.notified a = true) :
    Notified w a := by
  rintro k b rfl held
  simpa [notified, held] using checked

def EpollWorker.notified (w : EpollWorker N) : EpollAction → Bool
  | .run =>
    match w.sendConn with
    | some k => (w.core.pool.held (.send k)).all fun b =>
        (w.socks k).sendOff < bufferSize || !(w.socks k).reading.contains b
    | none => true
  | _ => true

theorem EpollWorker.notified_sound {w : EpollWorker N} {a : EpollAction}
    (checked : w.notified a = true) : Notified w a := by
  rintro k b rfl sends queued held
  simpa [notified, sends, held, Nat.not_lt_of_le queued] using checked

/-- The first buffer is released before its send is handled, and filled again. -/
def releasedRun : List Action :=
  List.replicate 66 .run ++ [.release (1, 0) secondTaken, .send (1, 0), .endDrain, .run]

def releasedEpollRun : List EpollAction :=
  List.replicate 66 .run ++ [.sent 1048576, .release (1, 0) firstTaken, .run, .endEvents, .run, .run]

theorem buffer_one_place_released :
    (∃ acts w, (workerSystem zeroCopyNode
        (onlyWorker (List.replicate 65 (smallTuple wide 1)))).Reaches Worker.Notified acts w ∧
      w.core.pool.held (.fill 1) = some secondTaken ∧
      ∀ b, ∃! place, w.core.pool.At w.flight.inFlight place b) ∧
    ∃ acts w, (epollSystem zeroCopyNode
        (onlyWorker (List.replicate 65 (smallTuple wide 1)))).Reaches EpollWorker.Notified acts w ∧
      w.core.pool.held (.fill 1) = some firstTaken ∧
      ∀ b, ∃! place, w.core.pool.At w.flight.inFlight place b := by
  have both := buffer_one_place zeroCopyNode (onlyWorker (List.replicate 65 (smallTuple wide 1)))
  constructor
  · have performed : ((Worker.init zeroCopyNode
        (onlyWorker (List.replicate 65 (smallTuple wide 1))) fun _ => false).any fun w =>
        (perform (fun w a => if w.notified a then w.step zeroCopyNode a else none) w
          releasedRun).any fun w => w.core.pool.held (.fill 1) = some secondTaken) = true := by
      decide +kernel
    obtain ⟨w₀, start, passed⟩ := (Option.any_eq_true _ _).mp performed
    obtain ⟨w, performed, held⟩ := (Option.any_eq_true _ _).mp passed
    have reached : (workerSystem zeroCopyNode
        (onlyWorker (List.replicate 65 (smallTuple wide 1)))).Reaches Worker.Notified
          releasedRun w := by
      refine ⟨w₀, ⟨_, start⟩, perform_path (fun s a t stepped => ?_) performed⟩
      rw [Option.ite_none_right_eq_some] at stepped
      exact ⟨stepped.2, Worker.notified_sound stepped.1⟩
    exact ⟨_, w, reached, of_decide_eq_true held, both.1 _ w reached⟩
  · have performed : (perform (fun w a => if w.notified a then w.step zeroCopyNode a else none)
        (EpollWorker.init (onlyWorker (List.replicate 65 (smallTuple wide 1))) fun _ => true)
          releasedEpollRun).any (fun w => w.core.pool.held (.fill 1) = some firstTaken) = true := by
      decide +kernel
    obtain ⟨w, performed, held⟩ := (Option.any_eq_true _ _).mp performed
    have reached : (epollSystem zeroCopyNode
        (onlyWorker (List.replicate 65 (smallTuple wide 1)))).Reaches EpollWorker.Notified
          releasedEpollRun w := by
      refine ⟨_, ⟨rfl, _, rfl, fun off => by cases off⟩,
        perform_path (fun s a t stepped => ?_) performed⟩
      rw [Option.ite_none_right_eq_some] at stepped
      exact ⟨stepped.2, EpollWorker.notified_sound stepped.1⟩
    exact ⟨_, w, reached, of_decide_eq_true held, both.2 _ w reached⟩

/-- The result of the send comes before the notification, and the next tuple is written into the
buffer that the kernel still reads. -/
def refilledRun : List Action :=
  List.replicate 66 .run ++ [.send (1, 0), .endDrain, .run]

theorem buffer_two_places :
    ∃ acts w b, (workerSystem zeroCopyNode
        (onlyWorker (List.replicate 65 (smallTuple wide 1)))).Reaches System.anyStep acts w ∧
      ¬∃! place, w.core.pool.At w.flight.inFlight place b := by
  obtain ⟨w, reached, tested⟩ := reaches_of_perform
    (show ((Worker.init zeroCopyNode (onlyWorker (List.replicate 65 (smallTuple wide 1)))
      fun _ => false).any fun w => (perform (Worker.step zeroCopyNode) w refilledRun).any
        fun w => decide (w.core.pool.held (.fill 1) = some secondTaken ∧
          secondTaken ∈ (w.chans (1, 0)).reading)) = true by decide +kernel)
  obtain ⟨filled, read⟩ := of_decide_eq_true tested
  refine ⟨refilledRun, w, secondTaken, reached, ?_⟩
  intro one
  have same := @ExistsUnique.unique _ _ one (.fill 1) .inFlight filled ⟨(1, 0), Or.inr read⟩
  cases same

end UringDb.Shuffle
