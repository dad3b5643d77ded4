import UringDb.Lib.Run
import UringDb.Remotescan.Config

/-!
# The scan client

`ClientWorker` of `remotescan/client.cpp`. An operation is in flight from its preparation until
its completion is handled, which is what `send_posted` and `recv_posted` record; completions
come in any order, and all of them succeed. Counters that are only reported are left out.
-/
namespace UringDb.Remotescan

structure ScanRequest where
  offset : Nat
  length : Nat
deriving DecidableEq

structure Connection where
  request : ScanRequest
  sendPosted : Bool
  recvPosted : Bool
  finished : Bool
deriving DecidableEq

def Connection.new : Connection := ⟨⟨0, 0⟩, false, false, false⟩

structure ClientWorker where
  conns : List Connection
  nextOffset : Nat
  totalBytes : Nat
  stopRequested : Bool
deriving DecidableEq

variable (cfg : Config) (w : Nat)

def endOffset : Nat := (workerStartOffset cfg w + workerScanBytes cfg w) % 2 ^ 64

/-- Whether there is a next request, the next offset, and the connection. -/
def assignNextRequest (nextOffset : Nat) (conn : Connection) : Bool × Nat × Connection :=
  if hasScanTarget cfg && endOffset cfg w ≤ nextOffset then
    (false, nextOffset, { conn with finished := true })
  else
    (true, (nextOffset + cfg.requestSize) % 2 ^ 64,
      { conn with request := ⟨nextOffset, cfg.requestSize⟩, finished := false })

def prepSendRequest (conn : Connection) : Connection := { conn with sendPosted := true }

def prepRecvPayload (conn : Connection) : Connection := { conn with recvPosted := true }

/-- The loop that hands out the first requests, and leaves when there are no more. -/
def firstRequests : Nat → List Connection → Nat × List Connection
  | nextOffset, [] => (nextOffset, [])
  | nextOffset, conn :: conns =>
    match assignNextRequest cfg w nextOffset conn with
    | (false, nextOffset, conn) => (nextOffset, conn :: conns)
    | (true, nextOffset, conn) =>
      let (nextOffset, conns) := firstRequests nextOffset conns
      (nextOffset, prepSendRequest conn :: conns)

def initClient : ClientWorker :=
  let (nextOffset, conns) :=
    firstRequests cfg w (workerStartOffset cfg w) (List.replicate cfg.numSockets Connection.new)
  { conns, nextOffset, totalBytes := 0, stopRequested := false }

def shouldIssueMore (s : ClientWorker) : Bool :=
  if hasDurationTarget cfg then !s.stopRequested
  else s.totalBytes < (endOffset cfg w + 2 ^ 64 - workerStartOffset cfg w) % 2 ^ 64

def allFinished (s : ClientWorker) : Bool := s.conns.all (·.finished)

/-- Completions, by the connection they are for, and the end of the time given. -/
inductive ClientAction
  | sendReq (idx : Nat)
  | recvPayload (idx : Nat)
  | requestStop
deriving DecidableEq

/-- One turn of the event loop's inner loop. -/
def clientStep (s : ClientWorker) : ClientAction → Option ClientWorker
  | .sendReq idx => do
    let conn ← s.conns[idx]?
    if conn.sendPosted then
      let conn := prepRecvPayload { conn with sendPosted := false }
      some { s with conns := s.conns.set idx conn }
    else none
  | .recvPayload idx => do
    let conn ← s.conns[idx]?
    if conn.recvPosted then
      let conn := { conn with recvPosted := false }
      let s := { s with totalBytes := (s.totalBytes + conn.request.length) % 2 ^ 64 }
      if shouldIssueMore cfg w s then
        match assignNextRequest cfg w s.nextOffset conn with
        | (true, nextOffset, conn) =>
          some { s with nextOffset, conns := s.conns.set idx (prepSendRequest conn) }
        | (false, nextOffset, conn) =>
          some { s with nextOffset, conns := s.conns.set idx { conn with finished := true } }
      else some { s with conns := s.conns.set idx { conn with finished := true } }
    else none
  | .requestStop => some { s with stopRequested := true }

def clientSystem : System ClientWorker ClientAction where
  init s := s = initClient cfg w
  step s a t := clientStep cfg w s a = some t

def ClientReachable (s : ClientWorker) : Prop :=
  ∃ acts, (clientSystem cfg w).Reaches System.anyStep acts s

/-! ### Requests -/

def Connection.busy (conn : Connection) : Bool := conn.sendPosted || conn.recvPosted

/-- The offset of a worker's `i`-th request. -/
def offsetAt (i : Nat) : Nat := (workerStartOffset cfg w + i * cfg.requestSize) % 2 ^ 64

def requestAt (i : Nat) : ScanRequest := ⟨offsetAt cfg w i, cfg.requestSize⟩

/-- A connection that sends its worker's `i`-th request. -/
def sending (i : Nat) : Connection := ⟨requestAt cfg w i, true, false, false⟩

variable {cfg w}

theorem offsetAt_succ (i : Nat) :
    (offsetAt cfg w i + cfg.requestSize) % 2 ^ 64 = offsetAt cfg w (i + 1) := by
  rw [offsetAt, offsetAt, Nat.mod_add_mod, Nat.succ_mul, Nat.add_assoc]

theorem offsetAt_of_scan (accepted : cfg.Accepted) (target : hasScanTarget cfg = true)
    (inside : w < cfg.numWorkers) {i : Nat} (limit : i ≤ workerNumRequests cfg w) :
    offsetAt cfg w i = workerStartOffset cfg w + i * cfg.requestSize := by
  have range := workerRange_le accepted.divided target inside
  have bound := cfg.scanBytes_lt
  have part := Nat.mul_le_mul_right cfg.requestSize limit
  rw [Nat.add_mul] at range
  rw [offsetAt, workerStartOffset_eq accepted.divided target inside]
  exact Nat.mod_eq_of_lt (by omega)

theorem endOffset_of_scan (accepted : cfg.Accepted) (target : hasScanTarget cfg = true)
    (inside : w < cfg.numWorkers) :
    endOffset cfg w = offsetAt cfg w (workerNumRequests cfg w) := by
  rw [endOffset, offsetAt, workerScanBytes_eq accepted.divided target inside]

theorem scanRange_eq (accepted : cfg.Accepted) (target : hasScanTarget cfg = true)
    (inside : w < cfg.numWorkers) :
    (endOffset cfg w + 2 ^ 64 - workerStartOffset cfg w) % 2 ^ 64 =
      workerNumRequests cfg w * cfg.requestSize ∧
    workerNumRequests cfg w * cfg.requestSize < 2 ^ 64 := by
  have range := workerRange_le accepted.divided target inside
  have bound := cfg.scanBytes_lt
  rw [Nat.add_mul] at range
  rw [endOffset_of_scan accepted target inside,
    offsetAt_of_scan accepted target inside (Nat.le_refl _)]
  omega

theorem untimed_of_scan (accepted : cfg.Accepted) (client : cfg.mode = .client)
    (target : hasScanTarget cfg = true) : hasDurationTarget cfg = false := by
  have scan : 0 < cfg.scanBytes := of_decide_eq_true target
  exact decide_eq_false ((accepted.oneTarget client).mp scan)

/-- A worker with requests left. -/
def Remaining (cfg : Config) (w i : Nat) : Prop :=
  hasScanTarget cfg = true → i < workerNumRequests cfg w

/-- The offset tells how many requests were issued. -/
theorem endOffset_le_iff (accepted : cfg.Accepted) (target : hasScanTarget cfg = true)
    (inside : w < cfg.numWorkers) {i : Nat} (limit : i ≤ workerNumRequests cfg w) :
    endOffset cfg w ≤ offsetAt cfg w i ↔ i = workerNumRequests cfg w := by
  rw [endOffset_of_scan accepted target inside, offsetAt_of_scan accepted target inside limit,
    offsetAt_of_scan accepted target inside (Nat.le_refl _), Nat.add_le_add_iff_left,
    Nat.mul_le_mul_right_iff accepted.request]
  omega

/-- **Assigning a request**: the next one, or none if all were issued. -/
theorem assignNextRequest_cases (accepted : cfg.Accepted) (inside : w < cfg.numWorkers) {i : Nat}
    (limit : hasScanTarget cfg = true → i ≤ workerNumRequests cfg w) (conn : Connection) :
    (Remaining cfg w i ∧ assignNextRequest cfg w (offsetAt cfg w i) conn =
      (true, offsetAt cfg w (i + 1), { conn with request := requestAt cfg w i, finished := false })) ∨
    (hasScanTarget cfg = true ∧ i = workerNumRequests cfg w ∧
      assignNextRequest cfg w (offsetAt cfg w i) conn =
        (false, offsetAt cfg w i, { conn with finished := true })) := by
  unfold assignNextRequest
  rw [offsetAt_succ]
  by_cases past : (hasScanTarget cfg && decide (endOffset cfg w ≤ offsetAt cfg w i)) = true
  · rw [if_pos past]
    rw [Bool.and_eq_true, decide_eq_true_eq] at past
    exact Or.inr ⟨past.1, (endOffset_le_iff accepted past.1 inside (limit past.1)).mp past.2, rfl⟩
  · rw [if_neg past]
    rw [Bool.and_eq_true, decide_eq_true_eq, not_and] at past
    refine Or.inl ⟨fun target => ?_, rfl⟩
    have more := mt (endOffset_le_iff accepted target inside (limit target)).mpr (past target)
    exact lt_of_le_of_ne (limit target) more

/-! ### The first requests -/

/-- Connections behind `issued` requests, of which the first is to have the next one. -/
structure Handed (cfg : Config) (w issued : Nat) (conns : List Connection) (issued' : Nat) :
    Prop where
  count : issued + conns.countP Connection.busy = issued'
  limit : hasScanTarget cfg = true → issued' ≤ workerNumRequests cfg w
  busy : ∀ c ∈ conns, c.busy = true → ∃ i < issued', c = sending cfg w i
  first : ∀ j < conns.length, Remaining cfg w (issued + j) →
    conns[j]? = some (sending cfg w (issued + j))
  idle : ∀ c ∈ conns, c.busy = false →
    hasScanTarget cfg = true ∧ issued' = workerNumRequests cfg w
  flagged : hasScanTarget cfg = true → ∀ j c, conns[j]? = some c →
    if workerNumRequests cfg w < issued + j then c.busy = false ∧ c.finished = false
    else c.busy = true ∨ c.finished = true

theorem firstRequests_spec (accepted : cfg.Accepted) (inside : w < cfg.numWorkers)
    (m issued : Nat) (limit : hasScanTarget cfg = true → issued ≤ workerNumRequests cfg w) :
    ∃ conns issued', firstRequests cfg w (offsetAt cfg w issued)
        (List.replicate m Connection.new) = (offsetAt cfg w issued', conns) ∧
      conns.length = m ∧ Handed cfg w issued conns issued' := by
  induction m generalizing issued with
  | zero =>
    refine ⟨[], issued, rfl, rfl, ⟨rfl, limit, ?_, ?_, ?_, ?_⟩⟩
    · intro c member
      exact absurd member List.not_mem_nil
    · intro j impossible
      exact absurd impossible (Nat.not_lt_zero j)
    · intro c member
      exact absurd member List.not_mem_nil
    · intro target j c stored
      rw [List.getElem?_nil] at stored
      cases stored
  | succ m ih =>
    rw [List.replicate_succ, firstRequests]
    rcases assignNextRequest_cases accepted inside limit Connection.new with
      ⟨remaining, assigned⟩ | ⟨target, all, assigned⟩
    · obtain ⟨conns, issued', handed, length, spec⟩ := ih (issued + 1) remaining
      rw [assigned]
      dsimp only
      rw [handed]
      refine ⟨sending cfg w issued :: conns, issued', rfl, ?_, ⟨?_, spec.limit, ?_, ?_, ?_, ?_⟩⟩
      · rw [List.length_cons, length]
      · have count := spec.count
        rw [List.countP_cons_of_pos rfl]
        omega
      · intro c member isBusy
        rcases List.mem_cons.mp member with rfl | later
        · have count := spec.count
          exact ⟨issued, by omega, rfl⟩
        · exact spec.busy c later isBusy
      · intro j less more
        cases j with
        | zero => rfl
        | succ j =>
          have shift : issued + (j + 1) = issued + 1 + j := by omega
          rw [shift] at more ⊢
          rw [List.getElem?_cons_succ]
          exact spec.first j (Nat.lt_of_succ_lt_succ less) more
      · intro c member isIdle
        rcases List.mem_cons.mp member with rfl | later
        · cases isIdle
        · exact spec.idle c later isIdle
      · intro target j c stored
        cases j with
        | zero =>
          have less := remaining target
          rw [List.getElem?_cons_zero, Option.some.injEq] at stored
          rw [if_neg (by omega), ← stored]
          exact Or.inl rfl
        | succ j =>
          rw [List.getElem?_cons_succ] at stored
          have flagged := spec.flagged target j c stored
          rwa [Nat.add_right_comm] at flagged
    · rw [assigned]
      have idle : ∀ c ∈ ({ Connection.new with finished := true } :: List.replicate m Connection.new),
          c.busy = false := by
        intro c member
        rcases List.mem_cons.mp member with rfl | later
        · rfl
        · rw [List.eq_of_mem_replicate later]
          rfl
      refine ⟨_, issued, rfl, ?_, ⟨?_, limit, ?_, ?_, ?_, ?_⟩⟩
      · rw [List.length_cons, List.length_replicate]
      · rw [List.countP_eq_zero.mpr, Nat.add_zero]
        intro c member isBusy
        rw [idle c member] at isBusy
        cases isBusy
      · intro c member isBusy
        rw [idle c member] at isBusy
        cases isBusy
      · intro j less more
        have := more target
        omega
      · intro c member isIdle
        exact ⟨target, all⟩
      · intro _ j c stored
        cases j with
        | zero =>
          rw [List.getElem?_cons_zero, Option.some.injEq] at stored
          rw [if_neg (by omega), ← stored]
          exact Or.inr rfl
        | succ j =>
          rw [List.getElem?_cons_succ] at stored
          have member := List.mem_of_getElem? stored
          rw [if_pos (by omega), List.eq_of_mem_replicate member]
          exact ⟨rfl, rfl⟩

/-! ### Runs -/

/-- What holds after `issued` requests, of which `done` were answered. -/
structure ClientInv (cfg : Config) (w : Nat) (s : ClientWorker) (issued done : Nat) : Prop where
  next : s.nextOffset = offsetAt cfg w issued
  length : s.conns.length = cfg.numSockets
  count : done + s.conns.countP Connection.busy = issued
  total : s.totalBytes = done * cfg.requestSize % 2 ^ 64
  limit : hasScanTarget cfg = true → issued ≤ workerNumRequests cfg w
  busy : ∀ c ∈ s.conns, c.busy = true → ∃ i < issued, c.request = requestAt cfg w i
  single : ∀ c ∈ s.conns, c.recvPosted = true → c.sendPosted = false
  idle : hasScanTarget cfg = true → ∀ c ∈ s.conns, c.busy = false →
    issued = workerNumRequests cfg w
  flagged : hasScanTarget cfg = true → ∀ j c, s.conns[j]? = some c →
    if workerNumRequests cfg w < j then c.busy = false ∧ c.finished = false
    else c.busy = true ∨ c.finished = true

theorem workerStartOffset_lt (cfg : Config) (w : Nat) : workerStartOffset cfg w < 2 ^ 64 := by
  unfold workerStartOffset
  split <;> exact Nat.mod_lt _ (Nat.two_pow_pos 64)

theorem offsetAt_zero (cfg : Config) (w : Nat) : offsetAt cfg w 0 = workerStartOffset cfg w := by
  rw [offsetAt, Nat.zero_mul, Nat.add_zero, Nat.mod_eq_of_lt (workerStartOffset_lt cfg w)]

theorem initClient_spec (accepted : cfg.Accepted) (inside : w < cfg.numWorkers) :
    ∃ issued, ClientInv cfg w (initClient cfg w) issued 0 ∧
      Handed cfg w 0 (initClient cfg w).conns issued := by
  obtain ⟨conns, issued, handed, length, spec⟩ :=
    firstRequests_spec accepted inside cfg.numSockets 0 (fun _ => Nat.zero_le _)
  rw [offsetAt_zero] at handed
  have start : initClient cfg w = ⟨conns, offsetAt cfg w issued, 0, false⟩ := by
    rw [initClient, handed]
  rw [start]
  refine ⟨issued, ⟨rfl, length, spec.count, ?_, spec.limit, ?_, ?_, ?_, ?_⟩, spec⟩
  · rw [Nat.zero_mul, Nat.zero_mod]
  · intro c member isBusy
    obtain ⟨i, less, rfl⟩ := spec.busy c member isBusy
    exact ⟨i, less, rfl⟩
  · intro c member receives
    have isBusy : c.busy = true := by rw [Connection.busy, receives, Bool.or_true]
    obtain ⟨i, -, rfl⟩ := spec.busy c member isBusy
    cases receives
  · intro target c member isIdle
    exact (spec.idle c member isIdle).2
  · intro target j c stored
    have flagged := spec.flagged target j c stored
    rwa [Nat.zero_add] at flagged

/-- What a completion or a stop does. -/
inductive ClientMoves (cfg : Config) (w : Nat) (s : ClientWorker) (issued done : Nat) :
    ClientAction → ClientWorker → Prop
  | sent {idx : Nat} {conn : Connection} (stored : s.conns[idx]? = some conn)
      (posted : conn.sendPosted = true) :
      ClientMoves cfg w s issued done (.sendReq idx)
        { s with conns := s.conns.set idx { conn with sendPosted := false, recvPosted := true } }
  | issued {idx : Nat} {conn : Connection} (stored : s.conns[idx]? = some conn)
      (posted : conn.recvPosted = true) (more : Remaining cfg w issued) :
      ClientMoves cfg w s issued done (.recvPayload idx)
        { s with
          totalBytes := (done + 1) * cfg.requestSize % 2 ^ 64
          nextOffset := offsetAt cfg w (issued + 1)
          conns := s.conns.set idx (sending cfg w issued) }
  | finished {idx : Nat} {conn : Connection} (stored : s.conns[idx]? = some conn)
      (posted : conn.recvPosted = true)
      (all : hasScanTarget cfg = true → issued = workerNumRequests cfg w)
      (timed : hasScanTarget cfg = false → s.stopRequested = true) :
      ClientMoves cfg w s issued done (.recvPayload idx)
        { s with
          totalBytes := (done + 1) * cfg.requestSize % 2 ^ 64
          conns := s.conns.set idx { conn with recvPosted := false, finished := true } }
  | stopped : ClientMoves cfg w s issued done .requestStop { s with stopRequested := true }

section Steps

variable {s t : ClientWorker} {issued done : Nat}

theorem shouldIssueMore_of_scan (accepted : cfg.Accepted) (client : cfg.mode = .client)
    (target : hasScanTarget cfg = true) (inside : w < cfg.numWorkers) (s : ClientWorker) :
    shouldIssueMore cfg w s = true ↔
      s.totalBytes < workerNumRequests cfg w * cfg.requestSize := by
  rw [shouldIssueMore, untimed_of_scan accepted client target, if_neg Bool.false_ne_true,
    (scanRange_eq accepted target inside).1, decide_eq_true_eq]

theorem ClientInv.done_lt (inv : ClientInv cfg w s issued done) {idx : Nat} {conn : Connection}
    (stored : s.conns[idx]? = some conn) (isBusy : conn.busy = true) : done < issued := by
  have positive := List.countP_pos_iff.mpr ⟨conn, List.mem_of_getElem? stored, isBusy⟩
  have count := inv.count
  omega

theorem clientStep_cases (accepted : cfg.Accepted) (client : cfg.mode = .client)
    (inside : w < cfg.numWorkers) (inv : ClientInv cfg w s issued done) {a : ClientAction}
    (stepped : clientStep cfg w s a = some t) : ClientMoves cfg w s issued done a t := by
  cases a with
  | sendReq idx =>
    obtain ⟨conn, stored, stepped⟩ := Option.bind_eq_some_iff.mp stepped
    split at stepped <;> cases stepped
    next posted => exact @ClientMoves.sent cfg w s issued done idx conn stored posted
  | recvPayload idx =>
    obtain ⟨conn, stored, stepped⟩ := Option.bind_eq_some_iff.mp stepped
    split at stepped
    next posted =>
      have member := List.mem_of_getElem? stored
      have isBusy : conn.busy = true := by rw [Connection.busy, posted, Bool.or_true]
      have less := inv.done_lt stored isBusy
      obtain ⟨i, -, request⟩ := inv.busy conn member isBusy
      have total : (s.totalBytes + conn.request.length) % 2 ^ 64 =
          (done + 1) * cfg.requestSize % 2 ^ 64 := by
        rw [inv.total, request, requestAt, Nat.mod_add_mod, Nat.succ_mul]
      dsimp only at stepped
      rw [total, inv.next] at stepped
      split at stepped
      next more =>
        rcases assignNextRequest_cases accepted inside inv.limit
          { conn with recvPosted := false } with ⟨remaining, assigned⟩ | ⟨target, all, assigned⟩
        · rw [assigned] at stepped
          cases stepped
          have next : prepSendRequest { conn with
              recvPosted := false, request := requestAt cfg w issued, finished := false } =
              sending cfg w issued := rfl
          rw [next]
          exact .issued stored posted remaining
        · rw [assigned, ← inv.next] at stepped
          cases stepped
          have timed : hasScanTarget cfg = false → s.stopRequested = true := by
            rw [target]
            exact fun impossible => absurd impossible (Bool.noConfusion)
          exact @ClientMoves.finished cfg w s issued done idx conn stored posted (fun _ => all) timed
      next past =>
        rw [← inv.next] at stepped
        cases stepped
        refine .finished stored posted (fun target => ?_) fun untargeted => ?_
        · have limit := inv.limit target
          rw [shouldIssueMore_of_scan accepted client target inside] at past
          have range := workerRange_le accepted.divided target inside
          have bound := cfg.scanBytes_lt
          rw [Nat.add_mul] at range
          -- the bytes of the answered requests did not wrap
          have part : (done + 1) * cfg.requestSize ≤ workerNumRequests cfg w * cfg.requestSize :=
            Nat.mul_le_mul_right _ (by omega)
          dsimp only at past
          rw [Nat.mod_eq_of_lt (by omega), Nat.mul_lt_mul_right accepted.request] at past
          omega
        · have timed := accepted.target.resolve_left (of_decide_eq_false untargeted)
          rw [shouldIssueMore, hasDurationTarget, if_pos (decide_eq_true timed)] at past
          rwa [Bool.not_eq_true, Bool.not_eq_false'] at past
    next => cases stepped
  | requestStop =>
    cases stepped
    exact .stopped

theorem countP_busy_set {conns : List Connection} {idx : Nat} {conn : Connection}
    (stored : conns[idx]? = some conn) (isBusy : conn.busy = true) (conn' : Connection) :
    (conns.set idx conn').countP Connection.busy + 1 =
      conns.countP Connection.busy + conn'.busy.toNat := by
  obtain ⟨less, rfl⟩ := List.getElem?_eq_some_iff.mp stored
  have positive := List.countP_pos_iff.mpr ⟨_, List.getElem_mem less, isBusy⟩
  rw [List.countP_set less, if_pos isBusy]
  cases conn'.busy <;> simp <;> omega

/-- Only connections within the requests are busy, and they end as finished. -/
theorem ClientInv.flagged_set (inv : ClientInv cfg w s issued done)
    (target : hasScanTarget cfg = true) {idx j : Nat} {conn conn' c : Connection}
    (stored : s.conns[idx]? = some conn) (isBusy : conn.busy = true)
    (found : (s.conns.set idx conn')[j]? = some c)
    (marked : conn'.busy = true ∨ conn'.finished = true) :
    if workerNumRequests cfg w < j then c.busy = false ∧ c.finished = false
    else c.busy = true ∨ c.finished = true := by
  have before := inv.flagged target idx conn stored
  rw [List.getElem?_set] at found
  split at found
  next same =>
    subst same
    split at found <;> cases found
    split at before
    · rw [before.1] at isBusy
      cases isBusy
    next within =>
      rw [if_neg within]
      exact marked
  next => exact inv.flagged target j c found

theorem ClientInv.sent (inv : ClientInv cfg w s issued done) {idx : Nat} {conn : Connection}
    (stored : s.conns[idx]? = some conn) (posted : conn.sendPosted = true) :
    ClientInv cfg w
      { s with conns := s.conns.set idx { conn with sendPosted := false, recvPosted := true } }
      issued done := by
  have member := List.mem_of_getElem? stored
  have isBusy : conn.busy = true := by rw [Connection.busy, posted, Bool.true_or]
  have replaced :=
    countP_busy_set stored isBusy { conn with sendPosted := false, recvPosted := true }
  have count := inv.count
  refine ⟨inv.next, ?_, ?_, inv.total, inv.limit, ?_, ?_, ?_, ?_⟩
  · rw [List.length_set, inv.length]
  · change _ = _ + 1 at replaced
    dsimp only
    omega
  · intro c inside cBusy
    rcases List.mem_or_eq_of_mem_set inside with old | rfl
    · exact inv.busy c old cBusy
    · exact inv.busy conn member isBusy
  · intro c inside receives
    rcases List.mem_or_eq_of_mem_set inside with old | rfl
    · exact inv.single c old receives
    · rfl
  · intro target c inside isIdle
    rcases List.mem_or_eq_of_mem_set inside with old | rfl
    · exact inv.idle target c old isIdle
    · cases isIdle
  · intro target j c found
    exact inv.flagged_set target stored isBusy found (Or.inl rfl)

theorem ClientInv.issue (inv : ClientInv cfg w s issued done) {idx : Nat} {conn : Connection}
    (stored : s.conns[idx]? = some conn) (posted : conn.recvPosted = true)
    (more : Remaining cfg w issued) :
    ClientInv cfg w
      { s with
        totalBytes := (done + 1) * cfg.requestSize % 2 ^ 64
        nextOffset := offsetAt cfg w (issued + 1)
        conns := s.conns.set idx (sending cfg w issued) } (issued + 1) (done + 1) := by
  have isBusy : conn.busy = true := by rw [Connection.busy, posted, Bool.or_true]
  have replaced := countP_busy_set stored isBusy (sending cfg w issued)
  have count := inv.count
  refine ⟨rfl, ?_, ?_, rfl, more, ?_, ?_, ?_, ?_⟩
  · rw [List.length_set, inv.length]
  · change _ = _ + 1 at replaced
    dsimp only
    omega
  · intro c inside cBusy
    rcases List.mem_or_eq_of_mem_set inside with old | rfl
    · obtain ⟨i, less, request⟩ := inv.busy c old cBusy
      exact ⟨i, Nat.lt_succ_of_lt less, request⟩
    · exact ⟨issued, Nat.lt_succ_self _, rfl⟩
  · intro c inside receives
    rcases List.mem_or_eq_of_mem_set inside with old | rfl
    · exact inv.single c old receives
    · cases receives
  · intro target c inside isIdle
    rcases List.mem_or_eq_of_mem_set inside with old | rfl
    · have all := inv.idle target c old isIdle
      have := more target
      omega
    · cases isIdle
  · intro target j c found
    exact inv.flagged_set target stored isBusy found (Or.inl rfl)

theorem ClientInv.finish (inv : ClientInv cfg w s issued done) {idx : Nat} {conn : Connection}
    (stored : s.conns[idx]? = some conn) (posted : conn.recvPosted = true)
    (all : hasScanTarget cfg = true → issued = workerNumRequests cfg w) :
    ClientInv cfg w
      { s with
        totalBytes := (done + 1) * cfg.requestSize % 2 ^ 64
        conns := s.conns.set idx { conn with recvPosted := false, finished := true } }
      issued (done + 1) := by
  have single := inv.single conn (List.mem_of_getElem? stored) posted
  have isBusy : conn.busy = true := by rw [Connection.busy, posted, Bool.or_true]
  have released : ({ conn with recvPosted := false, finished := true } : Connection).busy = false := by
    rw [Connection.busy, Bool.or_false, single]
  have replaced :=
    countP_busy_set stored isBusy { conn with recvPosted := false, finished := true }
  rw [released] at replaced
  have count := inv.count
  refine ⟨inv.next, ?_, ?_, rfl, inv.limit, ?_, ?_, ?_, ?_⟩
  · rw [List.length_set, inv.length]
  · change _ = _ + 0 at replaced
    dsimp only
    omega
  · intro c inside cBusy
    rcases List.mem_or_eq_of_mem_set inside with old | rfl
    · exact inv.busy c old cBusy
    · rw [released] at cBusy
      cases cBusy
  · intro c inside receives
    rcases List.mem_or_eq_of_mem_set inside with old | rfl
    · exact inv.single c old receives
    · cases receives
  · intro target c inside isIdle
    exact all target
  · intro target j c found
    exact inv.flagged_set target stored isBusy found (Or.inr rfl)

theorem ClientInv.step (inv : ClientInv cfg w s issued done) {a : ClientAction}
    (moves : ClientMoves cfg w s issued done a t) :
    ∃ issued' done', ClientInv cfg w t issued' done' := by
  cases moves with
  | sent stored posted => exact ⟨_, _, inv.sent stored posted⟩
  | issued stored posted more => exact ⟨_, _, inv.issue stored posted more⟩
  | finished stored posted all => exact ⟨_, _, inv.finish stored posted all⟩
  | stopped => exact ⟨issued, done, inv.next, inv.length, inv.count, inv.total, inv.limit, inv.busy,
      inv.single, inv.idle, inv.flagged⟩

end Steps

/-! ### Every reachable state -/

section Reachable

variable {s : ClientWorker}

theorem ClientReachable.inv (accepted : cfg.Accepted) (client : cfg.mode = .client)
    (inside : w < cfg.numWorkers) (reached : ClientReachable cfg w s) :
    ∃ issued done, ClientInv cfg w s issued done := by
  obtain ⟨acts, reaches⟩ := reached
  refine reaches.invariant (P := fun s => ∃ issued done, ClientInv cfg w s issued done) ?_ ?_
  · rintro s rfl
    obtain ⟨issued, inv, -⟩ := initClient_spec accepted inside
    exact ⟨issued, 0, inv⟩
  · rintro s a t ⟨issued, done, inv⟩ - stepped
    exact inv.step (clientStep_cases accepted client inside inv stepped)

theorem ClientReachable.init : ClientReachable cfg w (initClient cfg w) :=
  ⟨[], _, rfl, .nil _⟩

theorem ClientReachable.step {t : ClientWorker} {a : ClientAction} (reached : ClientReachable cfg w s)
    (stepped : clientStep cfg w s a = some t) : ClientReachable cfg w t := by
  obtain ⟨acts, reaches⟩ := reached
  exact ⟨_, reaches.extend (.cons stepped trivial (.nil t))⟩

/-- No operation of the worker is in flight. -/
def Quiet (s : ClientWorker) : Prop := ∀ c ∈ s.conns, c.busy = false

instance (s : ClientWorker) : Decidable (Quiet s) :=
  inferInstanceAs (Decidable (∀ c ∈ s.conns, c.busy = false))

/-- When nothing is in flight, all requests were issued and answered. -/
theorem ClientInv.of_quiet {issued done : Nat} (inv : ClientInv cfg w s issued done)
    (accepted : cfg.Accepted) (target : hasScanTarget cfg = true) (quiet : Quiet s) :
    done = workerNumRequests cfg w ∧ s.totalBytes = workerScanBytes cfg w := by
  have none : s.conns.countP Connection.busy = 0 := by
    rw [List.countP_eq_zero]
    intro c member isBusy
    rw [quiet c member] at isBusy
    cases isBusy
  obtain ⟨c, member⟩ : ∃ c, c ∈ s.conns := by
    apply List.exists_mem_of_length_pos
    rw [inv.length]
    exact accepted.sockets
  have all := inv.idle target c member (quiet c member)
  have count := inv.count
  have answered : done = workerNumRequests cfg w := by omega
  refine ⟨answered, ?_⟩
  rw [inv.total, answered]
  rfl

theorem recvPayload_some (cfg : Config) (w : Nat) {idx : Nat} {conn : Connection}
    (stored : s.conns[idx]? = some conn) (posted : conn.recvPosted = true) :
    ∃ t, clientStep cfg w s (.recvPayload idx) = some t := by
  simp only [clientStep, stored, Option.bind_eq_bind, Option.bind_some, if_pos posted]
  split
  · split <;> exact ⟨_, rfl⟩
  · exact ⟨_, rfl⟩

/-- The state after a request of `conn` was sent. -/
def sentState (s : ClientWorker) (idx : Nat) (conn : Connection) : ClientWorker :=
  { s with conns := s.conns.set idx { conn with sendPosted := false, recvPosted := true } }

theorem sendReq_eq {idx : Nat} {conn : Connection} (stored : s.conns[idx]? = some conn)
    (posted : conn.sendPosted = true) :
    clientStep cfg w s (.sendReq idx) = some (sentState s idx conn) := by
  simp only [clientStep, stored, Option.bind_eq_bind, Option.bind_some, if_pos posted]
  rfl

theorem sentState_stored {idx : Nat} {conn : Connection} (stored : s.conns[idx]? = some conn) :
    (sentState s idx conn).conns[idx]? =
      some { conn with sendPosted := false, recvPosted := true } := by
  obtain ⟨less, -⟩ := List.getElem?_eq_some_iff.mp stored
  exact List.getElem?_set_self less

/-- Another answer can come as long as a connection is busy. -/
theorem ClientInv.progress {issued done : Nat} (accepted : cfg.Accepted)
    (client : cfg.mode = .client) (inside : w < cfg.numWorkers) (reached : ClientReachable cfg w s)
    (inv : ClientInv cfg w s issued done) (active : ¬Quiet s) :
    ∃ t issued', ClientReachable cfg w t ∧ ClientInv cfg w t issued' (done + 1) := by
  -- once the request is sent, its answer is the only thing left
  have answer : ∀ {s : ClientWorker} {idx : Nat} {conn : Connection}, ClientReachable cfg w s → ClientInv cfg w s issued done →
      s.conns[idx]? = some conn → conn.recvPosted = true →
      ∃ t issued', ClientReachable cfg w t ∧ ClientInv cfg w t issued' (done + 1) := by
    intro s idx conn reached inv stored posted
    obtain ⟨t, stepped⟩ := recvPayload_some cfg w stored posted
    refine ⟨t, ?_⟩
    cases clientStep_cases accepted client inside inv stepped with
    | issued stored posted more => exact ⟨_, reached.step stepped, inv.issue stored posted more⟩
    | finished stored posted all => exact ⟨_, reached.step stepped, inv.finish stored posted all⟩
  simp only [Quiet, not_forall, Bool.not_eq_false] at active
  obtain ⟨conn, member, isBusy⟩ := active
  obtain ⟨idx, stored⟩ := List.mem_iff_getElem?.mp member
  rcases Bool.or_eq_true_iff.mp isBusy with posted | posted
  · exact answer (reached.step (sendReq_eq stored posted)) (inv.sent stored posted)
      (sentState_stored stored) rfl
  · exact answer reached inv stored posted

/-- From every state the scan can go on until nothing is in flight. -/
theorem ClientReachable.quiet (accepted : cfg.Accepted) (client : cfg.mode = .client)
    (target : hasScanTarget cfg = true) (inside : w < cfg.numWorkers) (left : Nat)
    {issued done : Nat} (reached : ClientReachable cfg w s) (inv : ClientInv cfg w s issued done)
    (enough : workerNumRequests cfg w < done + left) :
    ∃ t, ClientReachable cfg w t ∧ Quiet t := by
  induction left generalizing s issued done with
  | zero =>
    have limit := inv.limit target
    have count := inv.count
    omega
  | succ left ih =>
    by_cases quiet : Quiet s
    · exact ⟨s, reached, quiet⟩
    · obtain ⟨t, issued', reached', inv'⟩ := inv.progress accepted client inside reached quiet
      exact ih reached' inv' (by omega)

/-! ### Every request is reached -/

/-- The first connection sends, and the `i`-th request is the next one. -/
structure Poised (cfg : Config) (w : Nat) (s : ClientWorker) (i : Nat) : Prop where
  reached : ClientReachable cfg w s
  inv : ∃ done, ClientInv cfg w s i done
  sends : ∃ conn, s.conns[0]? = some conn ∧ conn.sendPosted = true
  unstopped : s.stopRequested = false

theorem Poised.next (accepted : cfg.Accepted) (client : cfg.mode = .client)
    (inside : w < cfg.numWorkers) {i : Nat} (poised : Poised cfg w s i)
    (more : Remaining cfg w i) :
    ∃ t, Poised cfg w t (i + 1) ∧ sending cfg w i ∈ t.conns := by
  obtain ⟨reached, ⟨done, inv⟩, ⟨conn, stored, posted⟩, unstopped⟩ := poised
  have waiting := sentState_stored stored
  obtain ⟨t, stepped⟩ := recvPayload_some cfg w waiting rfl
  have reached₁ := reached.step (sendReq_eq stored posted)
  have inv₁ := inv.sent stored posted
  obtain ⟨less, -⟩ := List.getElem?_eq_some_iff.mp waiting
  refine ⟨t, ?_⟩
  cases clientStep_cases accepted client inside inv₁ stepped with
  | issued stored' posted' =>
    have first := List.getElem?_set_self (a := sending cfg w i) less
    exact ⟨⟨reached₁.step stepped, ⟨_, inv₁.issue stored' posted' more⟩, ⟨_, first, rfl⟩, unstopped⟩,
      List.mem_of_getElem? first⟩
  | finished stored' posted' all timed =>
    by_cases target : hasScanTarget cfg = true
    · have := more target
      have := all target
      omega
    · have stopped : s.stopRequested = true := timed (Bool.eq_false_iff.mpr target)
      rw [unstopped] at stopped
      cases stopped

theorem Poised.start (accepted : cfg.Accepted) (inside : w < cfg.numWorkers)
    (full : hasScanTarget cfg = true → cfg.numSockets ≤ workerNumRequests cfg w) :
    Poised cfg w (initClient cfg w) cfg.numSockets := by
  obtain ⟨issued, inv, handed⟩ := initClient_spec accepted inside
  have positive := accepted.sockets
  have requested : ∀ j < cfg.numSockets, (initClient cfg w).conns[j]? = some (sending cfg w j) := by
    intro j less
    have first := handed.first j (inv.length ▸ less)
    rw [Nat.zero_add] at first
    exact first fun target => lt_of_lt_of_le less (full target)
  have all : issued = cfg.numSockets := by
    have count := inv.count
    rw [← inv.length, ← count, Nat.zero_add, List.countP_eq_length]
    intro c member
    obtain ⟨j, stored⟩ := List.mem_iff_getElem?.mp member
    obtain ⟨less, -⟩ := List.getElem?_eq_some_iff.mp stored
    rw [requested j (inv.length ▸ less), Option.some.injEq] at stored
    rw [← stored]
    rfl
  subst all
  refine ⟨.init, ⟨0, inv⟩, ⟨_, requested 0 positive, rfl⟩, ?_⟩
  rw [initClient]

theorem exists_poised (accepted : cfg.Accepted) (client : cfg.mode = .client)
    (inside : w < cfg.numWorkers) (d : Nat)
    (limit : hasScanTarget cfg = true → cfg.numSockets + d ≤ workerNumRequests cfg w) :
    ∃ s, Poised cfg w s (cfg.numSockets + d) := by
  induction d with
  | zero => exact ⟨_, Poised.start accepted inside limit⟩
  | succ d ih =>
    obtain ⟨s, poised⟩ := ih fun target => Nat.le_of_succ_le (limit target)
    obtain ⟨t, next, -⟩ := poised.next accepted client inside limit
    exact ⟨t, next⟩

/-- **Every request of a worker is sent in some run.** -/
theorem exists_sending (accepted : cfg.Accepted) (client : cfg.mode = .client)
    (inside : w < cfg.numWorkers) {i : Nat} (remaining : Remaining cfg w i) :
    ∃ s, ClientReachable cfg w s ∧ sending cfg w i ∈ s.conns := by
  by_cases early : i < cfg.numSockets
  · obtain ⟨issued, inv, handed⟩ := initClient_spec accepted inside
    have first := handed.first i (inv.length ▸ early)
    rw [Nat.zero_add] at first
    exact ⟨_, .init, List.mem_of_getElem? (first remaining)⟩
  · obtain ⟨d, rfl⟩ := Nat.exists_eq_add_of_le (Nat.not_lt.mp early)
    obtain ⟨s, poised⟩ := exists_poised accepted client inside d fun target =>
      le_of_lt (remaining target)
    obtain ⟨t, next, member⟩ := poised.next accepted client inside remaining
    exact ⟨t, next.reached, member⟩

/-! ### The end of the scan -/

/-- **The client waits for something** in all its states if and only if it has at most one socket
more than requests: behind the first connection without a request, `finished` is never set. -/
theorem client_never_waits_iff {options cfg : Config} {w : Nat} (parsed : options.parse = some cfg)
    (client : cfg.mode = .client) (target : hasScanTarget cfg = true)
    (inside : w < cfg.numWorkers) :
    (∀ s, ClientReachable cfg w s → Quiet s →
      allFinished s = true ∧ s.totalBytes = workerScanBytes cfg w) ↔
      cfg.numSockets ≤ workerNumRequests cfg w + 1 := by
  have accepted := Config.accepted_of_parse parsed
  constructor
  · intro waits
    obtain ⟨issued, start, -⟩ := initClient_spec accepted inside
    obtain ⟨s, reached, quiet⟩ :=
      ClientReachable.init.quiet accepted client target inside (workerNumRequests cfg w + 1) start
        (by omega)
    obtain ⟨issued, done, inv⟩ := reached.inv accepted client inside
    have finished := List.all_eq_true.mp (waits s reached quiet).1
    by_contra many
    -- the second connection without a request
    have less : workerNumRequests cfg w + 1 < s.conns.length := by
      rw [inv.length]
      omega
    have flagged := inv.flagged target _ _ (List.getElem?_eq_getElem less)
    rw [if_pos (Nat.lt_succ_self _)] at flagged
    rw [finished _ (List.getElem_mem less)] at flagged
    cases flagged.2
  · intro few s reached quiet
    obtain ⟨issued, done, inv⟩ := reached.inv accepted client inside
    refine ⟨List.all_eq_true.mpr ?_, (inv.of_quiet accepted target quiet).2⟩
    intro c member
    obtain ⟨j, stored⟩ := List.mem_iff_getElem?.mp member
    obtain ⟨less, -⟩ := List.getElem?_eq_some_iff.mp stored
    rw [inv.length] at less
    have flagged := inv.flagged target j c stored
    rw [if_neg (by omega), quiet c member] at flagged
    exact flagged.resolve_left Bool.false_ne_true

instance neZero_eight : NeZero 8 := ⟨Nat.succ_ne_zero 7⟩

def oneBlock (numSockets : Fin 8) : Config where
  mode := .client
  backend := .ioUring
  sendZc := false
  numWorkers := 1
  ringEntries := 4096
  numSockets := numSockets
  scanBytes := 4096
  duration := 0
  requestSize := 4096
  stripeSize := 4096
  ssds := []
  numWorkers_lt := by decide
  ringEntries_lt := by decide
  numSockets_lt := by omega
  scanBytes_lt := by decide
  duration_lt := by decide
  requestSize_lt := by decide
  stripeSize_lt := by decide

/-- With two sockets, one without a request, the scan of one block ends. -/
theorem client_never_waits_two :
    (oneBlock 2).parse = some (oneBlock 2) ∧ hasScanTarget (oneBlock 2) = true ∧
      ∀ s, ClientReachable (oneBlock 2) 0 s → Quiet s →
        allFinished s = true ∧ s.totalBytes = workerScanBytes (oneBlock 2) 0 := by
  have parsed : (oneBlock 2).parse = some (oneBlock 2) := rfl
  refine ⟨parsed, rfl, ?_⟩
  exact (client_never_waits_iff parsed rfl rfl (by decide)).mpr (by decide)

/-- With three sockets it does not: the block has been received, nothing is in flight, and the
last connection is not finished. -/
theorem client_waits_three :
    ∃ cfg s, (oneBlock 3).parse = some cfg ∧ cfg.mode = .client ∧ hasScanTarget cfg = true ∧
      ClientReachable cfg 0 s ∧ Quiet s ∧ s.totalBytes = workerScanBytes cfg 0 ∧
      allFinished s = false := by
  let idle : Connection := ⟨⟨0, 4096⟩, false, false, true⟩
  let none : Connection := ⟨⟨0, 0⟩, false, false, true⟩
  let s : ClientWorker := ⟨[idle, none, Connection.new], 4096, 4096, false⟩
  have sent : clientStep (oneBlock 3) 0 (initClient (oneBlock 3) 0) (.sendReq 0) =
      some ⟨[⟨⟨0, 4096⟩, false, true, false⟩, none, Connection.new], 4096, 0, false⟩ := by
    decide
  have received : clientStep (oneBlock 3) 0
      ⟨[⟨⟨0, 4096⟩, false, true, false⟩, none, Connection.new], 4096, 0, false⟩ (.recvPayload 0) =
      some s := by
    decide
  exact ⟨oneBlock 3, s, rfl, rfl, rfl, (ClientReachable.init.step sent).step received, by decide,
    by decide, by decide⟩

end Reachable

end UringDb.Remotescan
