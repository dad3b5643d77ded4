import UringDb.Lib.Network
import UringDb.Shuffle.SentOnce

/-!
# Peers that wait for budget

The workers with one number on all nodes are peers: connection `c` of node `i` to node `j` is
connection `c` of node `j` to node `i`. A worker may have two buffers more on the way to a peer
than it has received from it, so a node with much to send to a peer that sends little waits for
buffers that never come.
-/
namespace UringDb.Shuffle

variable {N : TupleSize} {cfg : Config}

/-! ### What the scan says about budgets -/

namespace Scan

variable {all : List (Tuple N)} {s : Scan N} {p : Nat}

theorem Inv.scannedFor_le (inv : Inv cfg all s) (p : Nat) :
    (s.core.scannedFor cfg p).length ≤ (tuplesFor cfg all p).length := by
  rw [tuplesFor, ← inv.tuples, List.filter_append, List.length_append, Core.scannedFor]
  exact Nat.le_add_right _ _

/-- A worker that waits for budget has handed over two buffers more than it has received, and has
another one that is full. -/
theorem Inv.waiting (inv : Inv cfg all s) (budgets : cfg.useBudget = true)
    (plain : cfg.recvZc = false) (scanning : s.scanning = true) (target : s.target = some p)
    (paid : s.owed = none) (remote : p ≠ cfg.myId) (empty : s.core.budget p = 0) :
    s.core.buffersIn p + 3 ≤ (tuplesFor cfg all p).length / N.perBuffer := by
  obtain ⟨opened, room⟩ := inv.scan scanning p remote
  have credit := inv.credit budgets plain scanning p
  rw [paid, if_neg (Option.some_ne_none p).symm, empty] at credit
  have handed : (s.core.handed p).length = s.core.buffersIn p + 2 := by omega
  rw [Room, if_pos target] at room
  have scanned := opened.length
  rw [handed, room, ← Nat.succ_mul] at scanned
  rw [Nat.le_div_iff_mul_le N.perBuffer_pos, ← scanned]
  exact inv.scannedFor_le p

/-- Behind the scan, the full buffers have been handed over. -/
theorem Inv.full_le_handed (inv : Inv cfg all s) (past : s.scanning = false)
    (remote : p ≠ cfg.myId) :
    (tuplesFor cfg all p).length / N.perBuffer ≤ (s.core.handed p).length := by
  have same : s.core.scannedFor cfg p = tuplesFor cfg all p := by
    rw [Core.scannedFor, inv.scanned past]
  rw [← same]
  rcases inv.final past p remote with ⟨opened, room⟩ | padded
  · rw [opened.length, Nat.mul_comm, Nat.mul_add_div N.perBuffer_pos, Nat.div_eq_of_lt room]
    exact Nat.le_refl _
  · rw [padded.count]
    exact Nat.le_succ _

/-- Once the fill buffer is handed over as well, a part of a buffer counts as one. -/
theorem Inv.handed_eq (inv : Inv cfg all s) (past : s.scanning = false) (remote : p ≠ cfg.myId)
    (vacant : s.core.pool.held (.fill p) = none) :
    (s.core.handed p).length = ((tuplesFor cfg all p).length + N.perBuffer - 1) / N.perBuffer := by
  have same : s.core.scannedFor cfg p = tuplesFor cfg all p := by
    rw [Core.scannedFor, inv.scanned past]
  have positive := N.perBuffer_pos
  rw [← same]
  rcases inv.final past p remote with ⟨opened, -⟩ | padded
  · rw [opened.length, opened.started.mp vacant, List.length_nil, Nat.add_zero,
      Nat.add_sub_assoc positive, Nat.mul_comm, Nat.mul_add_div positive,
      Nat.div_eq_of_lt (Nat.sub_lt positive Nat.one_pos), Nat.add_zero]
  · -- the last buffer was handed over with a rest
    have rest := Nat.pos_of_ne_zero padded.rest
    have total := Nat.div_add_mod (s.core.scannedFor cfg p).length N.perBuffer
    have less := Nat.mod_lt (s.core.scannedFor cfg p).length positive
    rw [padded.count]
    symm
    rw [Nat.div_eq_iff positive, Nat.succ_mul, Nat.mul_comm _ N.perBuffer]
    omega

end Scan

/-! ### The peers -/

/-- The entries of a log for one connection. -/
def ofTag {κ α : Type} [DecidableEq κ] (xs : List (κ × α)) (k : κ) : List α :=
  (xs.filter fun x => x.1 = k).map Prod.snd

namespace Core

/-- What the receives on a connection returned. -/
def receivedOn (s : Core N) (k : ConnId) : List (List UInt8) := ofTag s.received k

/-- The stream received on a connection. -/
def streamOn (s : Core N) (k : ConnId) : List UInt8 := (s.receivedOn k).flatten

end Core

/-- The configuration of a node. -/
def nodeConfig (cfg : Config) (i : Fin cfg.partitions) : Config :=
  { cfg with myId := i, myId_lt := i.isLt }

namespace Worker

/-- What was sent on a connection; the last buffer may not have been submitted yet. -/
def sentOn (w : Worker N) (k : ConnId) : List UInt8 :=
  let bufs := ofTag (w.core.handed k.1) k.2
  (if (w.chans k).send = .prepared then bufs.dropLast else bufs).flatMap OutputBuffer.data

/-- What arrived on a connection. -/
def arrivedOn (w : Worker N) (k : ConnId) : List UInt8 :=
  w.core.streamOn k ++ (w.chans k).incoming

/-- What arrives at a node is what its peer sent, in order, and then the end of the stream if the
peer has shut down the connection. -/
def permits {n : Nat} (s : Fin n → Worker N) (i : Fin n) : Action → Prop
  | .deliver k bytes => ∃ peer : Fin n, peer.val = k.1 ∧
      (s i).arrivedOn k ++ bytes <+: (s peer).sentOn (i, k.2)
  | .endStream k => ∃ peer : Fin n, peer.val = k.1 ∧ (s peer).shut (i, k.2) = true ∧
      ((s peer).chans (i, k.2)).shutdown ≠ .prepared ∧
      (s i).arrivedOn k = (s peer).sentOn (i, k.2)
  | _ => True

/-- Node `i` waits for budget to send to `j`, but has received all that `j` sent, and `j` has no
more to send. -/
structure Stranded {n : Nat} (s : Fin n → Worker N) (i j : Fin n) : Prop where
  waits : ∃ c rest, (s i).pc = .budget j c rest
  empty : (s i).core.budget j = 0
  received : (s i).core.buffersIn j = ((s j).core.handed i).length
  finished : (s j).pc.scanning = false
  flushed : (s j).core.pool.held (.fill i) = none

end Worker

/-- The io_uring workers of all nodes. -/
def workerNetwork (cfg : Config) (morsels : Fin cfg.partitions → Morsels N) :
    System (Fin cfg.partitions → Worker N) (Fin cfg.partitions × Action) :=
  System.network (fun i => workerSystem (nodeConfig cfg i) (morsels i)) Worker.permits

namespace EpollWorker

/-- What was sent on a connection; of the last buffer a part may be left. -/
def sentOn (w : EpollWorker N) (k : ConnId) : List UInt8 :=
  let bytes := (ofTag (w.core.handed k.1) k.2).flatMap OutputBuffer.data
  if (w.core.pool.held (.send k)).isSome then
    bytes.take (bytes.length - (bufferSize - (w.socks k).sendOff))
  else bytes

/-- What `recv` returns at a node is what its peer sent, in order, and then the end of the stream
if the peer has shut down the connection. -/
def permits {n : Nat} (s : Fin n → EpollWorker N) (i : Fin n) : EpollAction → Prop
  | .recvd bytes => ∀ k ev, (s i).inner = some (.receiving k ev) → ∃ peer : Fin n,
      peer.val = k.1 ∧ (s i).core.streamOn k ++ bytes <+: (s peer).sentOn (i, k.2)
  | .recvEof => ∀ k ev, (s i).inner = some (.receiving k ev) → ∃ peer : Fin n,
      peer.val = k.1 ∧ (s i).core.streamOn k = (s peer).sentOn (i, k.2)
  | .fin k => ∃ peer : Fin n, peer.val = k.1 ∧ ((s peer).socks (i, k.2)).wrShutdown = true
  | _ => True

/-- The flush loop is over. -/
def flushed (w : EpollWorker N) : Bool :=
  match w.pc with
  | .drain _ | .send _ (.drain _) | .waitDone _ _ | .wait | .watch | .exit => true
  | _ => false

structure Stranded {n : Nat} (s : Fin n → EpollWorker N) (i j : Fin n) : Prop where
  waits : ∃ c rest, (s i).pc = .budget j c rest
  empty : (s i).core.budget j = 0
  received : (s i).core.buffersIn j = ((s j).core.handed i).length
  finished : (s j).flushed = true

theorem scanning_of_flushed {w : EpollWorker N} (flushed : w.flushed = true) :
    w.scanView.scanning = false := by
  unfold EpollWorker.flushed at flushed
  split at flushed
  case h_7 => cases flushed
  all_goals
    rename_i here
    rw [scanView, here]
    rfl

end EpollWorker

/-- The epoll workers of all nodes. -/
def epollNetwork (cfg : Config) (morsels : Fin cfg.partitions → Morsels N) :
    System (Fin cfg.partitions → EpollWorker N) (Fin cfg.partitions × EpollAction) :=
  System.network (fun i => epollSystem (nodeConfig cfg i) (morsels i)) EpollWorker.permits

/-! ### No peer is stranded -/

/-- The tuples the worker of node `i` scans for node `j`. -/
def scannedBetween (cfg : Config) (wid : Nat) (tuples : Fin cfg.partitions → List (Tuple N))
    (order : Fin cfg.partitions → List Nat) (i j : Fin cfg.partitions) : Nat :=
  (Scan.tuplesFor cfg (scanOf wid ⟨tuples i, 0⟩ (order i)) j).length

/-- No worker waits for a peer that has sent everything if it has at most two full buffers more
for the peer than the peer has buffers for it. The epoll worker only sends full buffers for
sure. -/
theorem budget_not_stranded (cfg : Config) (tuples : Fin cfg.partitions → List (Tuple N))
    (order : Fin cfg.partitions → List Nat) (wid : Nat) (budgets : cfg.useBudget = true)
    (plain : cfg.recvZc = false) (i j : Fin cfg.partitions) :
    (scannedBetween cfg wid tuples order i j / N.perBuffer ≤
        2 + (scannedBetween cfg wid tuples order j i + N.perBuffer - 1) / N.perBuffer →
      ∀ acts s, (workerNetwork cfg fun i => deal wid ⟨tuples i, 0⟩ (order i)).Reaches
        System.anyStep acts s → ¬Worker.Stranded s i j) ∧
    (scannedBetween cfg wid tuples order i j / N.perBuffer ≤
        2 + scannedBetween cfg wid tuples order j i / N.perBuffer →
      ∀ acts s, (epollNetwork cfg fun i => deal wid ⟨tuples i, 0⟩ (order i)).Reaches
        System.anyStep acts s → ¬EpollWorker.Stranded s i j) := by
  constructor
  · intro balanced acts s reached stranded
    obtain ⟨c, rest, here⟩ := stranded.waits
    obtain ⟨_, own⟩ := reached.component i
    obtain ⟨_, peer⟩ := reached.component j
    have distinct : i ≠ j := by
      rintro rfl
      have past := stranded.finished
      rw [here] at past
      cases past
    have waiting := (Worker.scanInv_reaches own).waiting budgets plain
      (by rw [Worker.scanView, here]; rfl) (by rw [Worker.scanView, here]; rfl) rfl
      (fun same => distinct (Fin.ext same).symm) stranded.empty
    have handed := (Worker.scanInv_reaches peer).handed_eq stranded.finished
      (fun same => distinct (Fin.ext same)) stranded.flushed
    have received := stranded.received.trans handed
    have bound : (s i).core.buffersIn j + 3 ≤
        scannedBetween cfg wid tuples order i j / N.perBuffer := waiting
    have sent : (s i).core.buffersIn j =
        (scannedBetween cfg wid tuples order j i + N.perBuffer - 1) / N.perBuffer := received
    omega
  · intro balanced acts s reached stranded
    obtain ⟨c, rest, here⟩ := stranded.waits
    obtain ⟨_, own⟩ := reached.component i
    obtain ⟨_, peer⟩ := reached.component j
    have past := EpollWorker.scanning_of_flushed stranded.finished
    have distinct : i ≠ j := by
      rintro rfl
      rw [EpollWorker.scanView, here] at past
      cases past
    have waiting := (EpollWorker.scanInv_reaches own).waiting budgets plain
      (by rw [EpollWorker.scanView, here]; rfl) (by rw [EpollWorker.scanView, here]; rfl)
      (by rw [EpollWorker.scanView, here]; rfl)
      (fun same => distinct (Fin.ext same).symm) stranded.empty
    have handed := (EpollWorker.scanInv_reaches peer).full_le_handed past
      (fun same => distinct (Fin.ext same))
    have bound : (s i).core.buffersIn j + 3 ≤
        scannedBetween cfg wid tuples order i j / N.perBuffer := waiting
    have sent : scannedBetween cfg wid tuples order j i / N.perBuffer ≤
        (s i).core.buffersIn j := stranded.received ▸ handed
    omega

/-! ### Two nodes -/

/-- Two nodes with one connection between them and flow control. -/
def budgetPair : Config := { nodeZero with useBudget := true }

/-- Node 0 has `many` tuples for node 1, which has `few` for node 0. -/
def unevenTuples (many few : Nat) (i : Fin budgetPair.partitions) : List (Tuple wide) :=
  if i.val = 0 then List.replicate many (smallTuple wide 1)
  else List.replicate few (smallTuple wide 0)

def left : Fin budgetPair.partitions := ⟨0, by decide⟩
def right : Fin budgetPair.partitions := ⟨1, by decide⟩

theorem budget_not_stranded_uneven :
    (∀ acts s, (workerNetwork budgetPair
        fun i => deal 0 ⟨unevenTuples 192 64 i, 0⟩ [0, 0]).Reaches System.anyStep acts s →
      ¬Worker.Stranded s left right) ∧
    (∀ acts s, (epollNetwork budgetPair
        fun i => deal 0 ⟨unevenTuples 192 64 i, 0⟩ [0, 0]).Reaches System.anyStep acts s →
      ¬EpollWorker.Stranded s left right) := by
  have both := budget_not_stranded budgetPair (unevenTuples 192 64) (fun _ => [0, 0]) 0 rfl rfl
    left right
  exact ⟨both.1 (by decide +kernel), both.2 (by decide +kernel)⟩

/-- Nothing arrives from another node. -/
def Action.isLocal : Action → Bool
  | .deliver _ _ | .endStream _ => false
  | _ => true

def EpollAction.isLocal : EpollAction → Bool
  | .recvd _ | .recvEof | .fin _ => false
  | _ => true

theorem Worker.free_of_local {n : Nat} {i : Fin n} {acts : List Action}
    (inside : acts.all Action.isLocal = true) :
    ∀ a ∈ acts, ∀ s : Fin n → Worker N, permits s i a := by
  intro a member s
  have here := List.all_eq_true.mp inside a member
  cases a with
  | deliver | endStream => cases here
  | _ => trivial

theorem EpollWorker.free_of_local {n : Nat} {i : Fin n} {acts : List EpollAction}
    (inside : acts.all EpollAction.isLocal = true) :
    ∀ a ∈ acts, ∀ s : Fin n → EpollWorker N, permits s i a := by
  intro a member s
  have here := List.all_eq_true.mp inside a member
  cases a with
  | recvd | recvEof | fin => cases here
  | _ => trivial

/-- Node 0 sends two buffers and fills a third one. -/
def waitingRun : List Action :=
  let buffer : List Action := List.replicate 64 .run ++ [.run]
  [.run] ++ buffer ++ [.run, .send (1, 0), .endDrain] ++ buffer ++ [.run, .send (1, 0), .endDrain] ++
    buffer

def waitingEpollRun : List EpollAction :=
  let buffer : List EpollAction := List.replicate 64 .run ++ [.run]
  [.run] ++ buffer ++ [.run, .sent 1048576, .run, .endEvents, .run] ++ buffer ++
    [.run, .sent 1048576, .run, .endEvents, .run] ++ buffer

/-- Node 0 has three full buffers for a node that has nothing for it: it waits for a third unit of
budget, which only a buffer from there could bring. -/
theorem budget_stranded :
    (∃ acts s, (workerNetwork budgetPair
        fun i => deal 0 ⟨unevenTuples 192 0 i, 0⟩ [0, 0]).Reaches System.anyStep acts s ∧
      Worker.Stranded s left right) ∧
    ∃ acts s, (epollNetwork budgetPair
        fun i => deal 0 ⟨unevenTuples 192 0 i, 0⟩ [0, 0]).Reaches System.anyStep acts s ∧
      EpollWorker.Stranded s left right := by
  have only (l : Fin budgetPair.partitions) : l = left ∨ l = right := by
    revert l
    decide
  constructor
  · obtain ⟨x, reachedLeft, waits⟩ := reaches_of_perform
      (show ((Worker.init (nodeConfig budgetPair left)
        (deal 0 ⟨unevenTuples 192 0 left, 0⟩ [0, 0]) fun _ => false).any fun w =>
        (perform (Worker.step (nodeConfig budgetPair left)) w waitingRun).any fun w =>
          decide (w.pc = .budget 1 0 [] ∧ w.core.budget 1 = 0 ∧ w.core.buffersIn 1 = 0)) = true
        by decide +kernel)
    obtain ⟨y, reachedRight, past⟩ := reaches_of_perform
      (show ((Worker.init (nodeConfig budgetPair right)
        (deal 0 ⟨unevenTuples 192 0 right, 0⟩ [0, 0]) fun _ => false).any fun w =>
        (perform (Worker.step (nodeConfig budgetPair right)) w [.run]).any fun w =>
          decide (w.pc.scanning = false ∧ w.core.pool.held (.fill 0) = none ∧
            (w.core.handed 0).length = 0)) = true
        by decide +kernel)
    obtain ⟨waits, empty, none⟩ := of_decide_eq_true waits
    obtain ⟨past, vacant, sent⟩ := of_decide_eq_true past
    obtain ⟨acts, s, reached, rfl, rfl⟩ : ∃ acts s, (workerNetwork budgetPair
          fun i => deal 0 ⟨unevenTuples 192 0 i, 0⟩ [0, 0]).Reaches System.anyStep acts s ∧
        s left = x ∧ s right = y :=
      System.Reaches.pair (by decide) only reachedLeft reachedRight
        (Worker.free_of_local (by decide)) (Worker.free_of_local (by decide))
    exact ⟨acts, s, reached, ⟨0, [], waits⟩, empty, none.trans sent.symm, past, vacant⟩
  · obtain ⟨x, reachedLeft, waits⟩ := epoll_reaches_of_perform rfl
      (show ((perform (EpollWorker.step (nodeConfig budgetPair left))
        (EpollWorker.init (deal 0 ⟨unevenTuples 192 0 left, 0⟩ [0, 0]) fun _ => false)
          waitingEpollRun).any fun w =>
          decide (w.pc = .budget 1 0 [] ∧ w.core.budget 1 = 0 ∧ w.core.buffersIn 1 = 0)) = true
        by decide +kernel)
    obtain ⟨y, reachedRight, past⟩ := epoll_reaches_of_perform rfl
      (show ((perform (EpollWorker.step (nodeConfig budgetPair right))
        (EpollWorker.init (deal 0 ⟨unevenTuples 192 0 right, 0⟩ [0, 0]) fun _ => false)
          [.run, .run, .run]).any fun w =>
          decide (w.flushed = true ∧ (w.core.handed 0).length = 0)) = true
        by decide +kernel)
    obtain ⟨waits, empty, none⟩ := of_decide_eq_true waits
    obtain ⟨past, sent⟩ := of_decide_eq_true past
    obtain ⟨acts, s, reached, rfl, rfl⟩ : ∃ acts s, (epollNetwork budgetPair
          fun i => deal 0 ⟨unevenTuples 192 0 i, 0⟩ [0, 0]).Reaches System.anyStep acts s ∧
        s left = x ∧ s right = y :=
      System.Reaches.pair (by decide) only reachedLeft reachedRight
        (EpollWorker.free_of_local (by decide)) (EpollWorker.free_of_local (by decide))
    exact ⟨acts, s, reached, ⟨0, [], waits⟩, empty, none.trans sent.symm, past⟩

end UringDb.Shuffle
