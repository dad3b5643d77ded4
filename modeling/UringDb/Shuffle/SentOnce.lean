import UringDb.Shuffle.EpollScan
import UringDb.Shuffle.WorkerScan

/-!
# Every remote tuple is sent once

Over a whole run of either worker, the buffers handed to the connections of a partition hold
exactly the tuples scanned for it if and only if these fill whole buffers. Otherwise there is a
last buffer that is not full: a buffer is always sent as a whole, with whatever else is in it, and
the epoll worker drops it if all connections of the partition are busy at the end of the scan.
-/
namespace UringDb.Shuffle

variable {N : TupleSize}

/-- Over a whole run, each remote tuple that was scanned is sent exactly once, and nothing else,
if and only if the tuples of the partition fill whole buffers. -/
theorem sent_once_iff (cfg : Config) (tuples : List (Tuple N)) (order : List Nat) (wid : Nat)
    {p : Nat} (remote : cfg.Remote p) :
    (∀ acts w, (workerSystem cfg (deal wid ⟨tuples, 0⟩ order)).Reaches System.anyStep acts w →
      w.pc = .exit →
        ((w.core.sentTuples p).Perm
            ((Scan.tuplesFor cfg (scanOf wid ⟨tuples, 0⟩ order) p).map Tuple.bytes) ↔
          N.perBuffer ∣ (Scan.tuplesFor cfg (scanOf wid ⟨tuples, 0⟩ order) p).length)) ∧
    (∀ acts w, (epollSystem cfg (deal wid ⟨tuples, 0⟩ order)).Reaches System.anyStep acts w →
      w.pc = .exit →
        ((w.core.sentTuples p).Perm
            ((Scan.tuplesFor cfg (scanOf wid ⟨tuples, 0⟩ order) p).map Tuple.bytes) ↔
          N.perBuffer ∣ (Scan.tuplesFor cfg (scanOf wid ⟨tuples, 0⟩ order) p).length)) := by
  constructor
  · intro acts w reached ended
    have past : w.scanView.scanning = false := by
      rw [Worker.scanView, ended]
      rfl
    exact (Worker.scanInv_reaches reached).sent_perm_iff past remote.2
  · intro acts w reached ended
    have past : w.scanView.scanning = false := by
      rw [EpollWorker.scanView, ended]
      rfl
    exact (EpollWorker.scanInv_reaches reached).sent_perm_iff past remote.2

/-! ### Two nodes -/

def wide : TupleSize := ⟨16384, by decide⟩

def smallTuple (N : TupleSize) (key : UInt8) : Tuple N :=
  ⟨key :: List.replicate (N.bytes - 1) 0, by
    rw [List.length_cons, List.length_replicate, Nat.sub_add_cancel N.pos]⟩

def nodeZero : Config where
  partitions := 2
  myId := 0
  nrConns := 1
  useBudget := false
  useHashtable := false
  sendZc := false
  recvZc := false
  myId_lt := by decide

def onlyWorker (tuples : List (Tuple wide)) : Morsels wide := deal 0 ⟨tuples, 0⟩ [0, 0]

theorem reaches_of_perform {cfg : Config} {morsels : Morsels N} {acts : List Action}
    {test : Worker N → Bool}
    (passed : ((Worker.init cfg morsels fun _ => false).any fun w =>
      (perform (Worker.step cfg) w acts).any test) = true) :
    ∃ w, (workerSystem cfg morsels).Reaches System.anyStep acts w ∧ test w = true := by
  obtain ⟨w₀, start, passed⟩ := (Option.any_eq_true _ _).mp passed
  obtain ⟨w, performed, tested⟩ := (Option.any_eq_true _ _).mp passed
  refine ⟨w, ⟨w₀, ⟨_, start⟩, ?_⟩, tested⟩
  exact perform_path (fun _ _ _ stepped => ⟨stepped, trivial⟩) performed

theorem epoll_reaches_of_perform {cfg : Config} {morsels : Morsels N} {acts : List EpollAction}
    {test : EpollWorker N → Bool} (plain : cfg.recvZc = false)
    (passed : ((perform (EpollWorker.step cfg) (EpollWorker.init morsels fun _ => false) acts).any
      test) = true) :
    ∃ w, (epollSystem cfg morsels).Reaches System.anyStep acts w ∧ test w = true := by
  obtain ⟨w, performed, tested⟩ := (Option.any_eq_true _ _).mp passed
  refine ⟨w, ⟨_, ⟨plain, _, rfl, fun _ _ => rfl⟩, ?_⟩, tested⟩
  exact perform_path (fun _ _ _ stepped => ⟨stepped, trivial⟩) performed

/-- A run of the last loop: the connection is shut down, and the peer's stream ends. -/
def finishRun : List Action :=
  [.run, .run, .endStream (1, 0), .recv (1, 0), .endDrain, .run, .run, .run, .ignr (1, 0),
    .endDrain, .run]

def bufferRun : List Action :=
  List.replicate 65 .run ++ [.run, .send (1, 0), .endDrain, .run, .endDrain] ++ finishRun

/-- The end of a run: the peer's stream ends and is read. -/
def finishEpollRun : List EpollAction :=
  [.fin (1, 0), .event (1, 0) ⟨true, false, true, true⟩, .run, .recvEof, .run, .run, .endEvents,
    .run, .run, .run]

def bufferEpollRun : List EpollAction :=
  List.replicate 65 .run ++ [.run, .sent 1048576, .run, .endEvents, .run, .run, .endEvents, .run,
    .run, .run, .run, .run] ++ finishEpollRun

theorem sent_once_iff_buffer :
    (∃ acts w, (workerSystem nodeZero (onlyWorker (List.replicate 64 (smallTuple wide 1)))).Reaches
        System.anyStep acts w ∧ w.pc = .exit ∧
      (w.core.sentTuples 1).Perm ((Scan.tuplesFor nodeZero
        (scanOf 0 ⟨List.replicate 64 (smallTuple wide 1), 0⟩ [0, 0]) 1).map Tuple.bytes)) ∧
    ∃ acts w, (epollSystem nodeZero (onlyWorker (List.replicate 64 (smallTuple wide 1)))).Reaches
        System.anyStep acts w ∧ w.pc = .exit ∧
      (w.core.sentTuples 1).Perm ((Scan.tuplesFor nodeZero
        (scanOf 0 ⟨List.replicate 64 (smallTuple wide 1), 0⟩ [0, 0]) 1).map Tuple.bytes) := by
  have both := sent_once_iff nodeZero (List.replicate 64 (smallTuple wide 1)) [0, 0] 0
    (show nodeZero.Remote 1 by decide)
  have whole : wide.perBuffer ∣ (Scan.tuplesFor nodeZero
      (scanOf 0 ⟨List.replicate 64 (smallTuple wide 1), 0⟩ [0, 0]) 1).length := by decide +kernel
  constructor
  · obtain ⟨w, reached, ended⟩ := reaches_of_perform
      (show ((Worker.init nodeZero (onlyWorker (List.replicate 64 (smallTuple wide 1)))
        fun _ => false).any fun w => (perform (Worker.step nodeZero) w bufferRun).any
          fun w => w.pc = .exit) = true by decide +kernel)
    have ended := of_decide_eq_true ended
    exact ⟨bufferRun, w, reached, ended, (both.1 _ w reached ended).mpr whole⟩
  · obtain ⟨w, reached, ended⟩ := epoll_reaches_of_perform rfl
      (show ((perform (EpollWorker.step nodeZero)
        (EpollWorker.init (onlyWorker (List.replicate 64 (smallTuple wide 1))) fun _ => false)
          bufferEpollRun).any fun w => w.pc = .exit) = true by decide +kernel)
    have ended := of_decide_eq_true ended
    exact ⟨bufferEpollRun, w, reached, ended, (both.2 _ w reached ended).mpr whole⟩

def paddedRun : List Action :=
  [.run, .run, .run, .endDrain, .run, .run, .send (1, 0), .endDrain] ++ finishRun

/-- A run that scans one tuple more than a buffer takes and ends while the full buffer is still
being sent. -/
def busyEpollRun : List EpollAction :=
  List.replicate 65 .run ++ [.run, .sendAgain, .endEvents, .run, .run, .run, .endEvents, .run,
    .run, .run, .run, .sent 1048576, .run, .endEvents, .run, .run] ++ finishEpollRun

theorem not_sent_of_length {s : Core wide} {tuples : List (Tuple wide)} (sent : Nat)
    (handed : (s.handed 1).length = sent)
    (length : sent * wide.perBuffer ≠ (Scan.tuplesFor nodeZero tuples 1).length) :
    ¬(s.sentTuples 1).Perm ((Scan.tuplesFor nodeZero tuples 1).map Tuple.bytes) := by
  intro same
  have count := same.length_eq
  rw [Core.length_sentTuples, handed, List.length_map] at count
  exact length count

/-- One tuple is sent in a buffer of 64, and of 65 tuples one is not sent at all. -/
theorem sent_padding :
    (∃ acts w, (workerSystem nodeZero (onlyWorker [smallTuple wide 1])).Reaches
        System.anyStep acts w ∧ w.pc = .exit ∧
      ¬(w.core.sentTuples 1).Perm ((Scan.tuplesFor nodeZero
        (scanOf 0 ⟨[smallTuple wide 1], 0⟩ [0, 0]) 1).map Tuple.bytes)) ∧
    ∃ acts w, (epollSystem nodeZero (onlyWorker (List.replicate 65 (smallTuple wide 1)))).Reaches
        System.anyStep acts w ∧ w.pc = .exit ∧
      ¬(w.core.sentTuples 1).Perm ((Scan.tuplesFor nodeZero
        (scanOf 0 ⟨List.replicate 65 (smallTuple wide 1), 0⟩ [0, 0]) 1).map Tuple.bytes) := by
  constructor
  · obtain ⟨w, reached, ended⟩ := reaches_of_perform
      (show ((Worker.init nodeZero (onlyWorker [smallTuple wide 1]) fun _ => false).any fun w =>
        (perform (Worker.step nodeZero) w paddedRun).any
          fun w => decide (w.pc = .exit ∧ (w.core.handed 1).length = 1)) = true by decide +kernel)
    obtain ⟨ended, handed⟩ := of_decide_eq_true ended
    exact ⟨paddedRun, w, reached, ended, not_sent_of_length 1 handed (by decide +kernel)⟩
  · obtain ⟨w, reached, ended⟩ := epoll_reaches_of_perform rfl
      (show ((perform (EpollWorker.step nodeZero)
        (EpollWorker.init (onlyWorker (List.replicate 65 (smallTuple wide 1))) fun _ => false)
          busyEpollRun).any fun w => decide (w.pc = .exit ∧ (w.core.handed 1).length = 1)) = true
        by decide +kernel)
    obtain ⟨ended, handed⟩ := of_decide_eq_true ended
    exact ⟨busyEpollRun, w, reached, ended, not_sent_of_length 1 handed (by decide +kernel)⟩

end UringDb.Shuffle
