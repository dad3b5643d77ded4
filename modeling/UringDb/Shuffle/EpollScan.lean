import UringDb.Shuffle.Epoll
import UringDb.Shuffle.Scan

/-!
# The scan of the epoll worker

Sending, receiving and the events leave the tuples to be sent alone, and the steps of `run` are
steps of the scan. A budget is charged only behind the events that follow a send.
-/
namespace UringDb.Shuffle

variable {N : TupleSize} {cfg : Config}

namespace EpollPc

/-- The tuples of the current morsel that are still to come. -/
def rest : EpollPc N → List (Tuple N)
  | .scan rest | .find _ rest | .budget _ _ rest | .charge _ rest | .send _ (.scan _ rest) => rest
  | _ => []

/-- The target whose full buffer is to be handed over. -/
def target : EpollPc N → Option Nat
  | .find p _ | .budget p _ _ => some p
  | _ => none

/-- The target whose budget is still to be charged. -/
def owed : EpollPc N → Option Nat
  | .charge p _ | .send _ (.scan p _) => some p
  | _ => none

/-- Whether `run` is in the scan loop. -/
def scanning : EpollPc N → Bool
  | .next | .scan _ | .find _ _ | .budget _ _ _ | .charge _ _ | .send _ (.scan _ _) => true
  | _ => false

end EpollPc

namespace EpollWorker

variable {w w' : EpollWorker N} {k : ConnId}

/-- What the scan machine sees of a worker. -/
def scanView (w : EpollWorker N) : Scan N :=
  ⟨w.core, w.morsels, w.pc.rest, w.pc.target, w.pc.owed, w.pc.scanning⟩

/-! ### Steps that have no part in the scan -/

/-- The view only changed in the core, and there nothing that matters for the scan. -/
structure Quiet (cfg : Config) (w w' : EpollWorker N) : Prop where
  core : Core.Quiet cfg w.core w'.core
  view : w'.scanView = { w.scanView with core := w'.core }

theorem Quiet.refl (w : EpollWorker N) : Quiet cfg w w := ⟨Core.Quiet.refl _, rfl⟩

theorem Quiet.trans {w'' : EpollWorker N} (first : Quiet cfg w w') (second : Quiet cfg w' w'') :
    Quiet cfg w w'' :=
  ⟨first.core.trans second.core, by rw [second.view, first.view]⟩

theorem Quiet.setInner (quiet : Quiet cfg w w') (i : Option Inner) :
    Quiet cfg w { w' with inner := i } := ⟨quiet.core, quiet.view⟩

theorem quiet_setSock (w : EpollWorker N) (k : ConnId) (sock : Socket) :
    Quiet cfg w (w.setSock k sock) := ⟨Core.Quiet.refl _, rfl⟩

theorem Quiet.advances (quiet : Quiet cfg w w') : Scan.Advances cfg w.scanView w'.scanView := by
  rw [quiet.view]
  exact Relation.ReflTransGen.single (.quiet quiet.core)

theorem scanView_leaveSend (w : EpollWorker N) : (leaveSend w).scanView = w.scanView := by
  unfold leaveSend
  split
  · rfl
  next here => rw [scanView, scanView, here]; rfl
  next here => rw [scanView, scanView, here]; rfl
  next here => rw [scanView, scanView, here]; rfl
  · rfl

theorem core_leaveSend (w : EpollWorker N) : (leaveSend w).core = w.core := by
  unfold leaveSend
  split <;> rfl

theorem quiet_leaveSend (quiet : Quiet cfg w w') : Quiet cfg w (leaveSend w') where
  core := by
    rw [core_leaveSend]
    exact quiet.core
  view := by
    rw [scanView_leaveSend, core_leaveSend]
    exact quiet.view

theorem quiet_finishSend (finished : w.finishSend k = some w') : Quiet cfg w w' := by
  unfold finishSend at finished
  dsimp only at finished
  split at finished
  next => cases finished
  next =>
    split at finished <;> cases finished
    next core freed => exact quiet_leaveSend ⟨Core.quiet_freeSend freed, rfl⟩

theorem quiet_onSent {n : Nat} (sent : w.onSent cfg n = some w') : Quiet cfg w w' := by
  unfold onSent at sent
  split at sent
  next => cases sent
  next =>
    dsimp only at sent
    split at sent
    next => cases sent
    next =>
      split at sent <;> cases sent
      exact ⟨⟨⟨rfl, rfl, fun _ => rfl, fun _ _ _ => rfl⟩, fun _ _ _ => rfl⟩, rfl⟩

theorem quiet_onSendAgain (again : w.onSendAgain = some w') : Quiet cfg w w' := by
  unfold onSendAgain at again
  split at again
  next => cases again
  next =>
    dsimp only at again
    split at again <;> cases again
    exact quiet_leaveSend ⟨Core.Quiet.refl _, rfl⟩

theorem quiet_enterRecv {ev : Events} (entered : w.enterRecv k ev = some w') :
    Quiet cfg w w' := by
  unfold enterRecv at entered
  split at entered
  next =>
    cases entered
    exact ⟨Core.Quiet.refl _, rfl⟩
  next =>
    split at entered <;> cases entered
    next core taken => exact ⟨Core.quiet_takeRecv taken, rfl⟩

theorem quiet_finishRecv (finished : w.finishRecv cfg k = some w') : Quiet cfg w w' := by
  unfold finishRecv at finished
  split at finished
  next => cases finished
  next inserted insert =>
    split at finished
    next => cases finished
    next freed free =>
      split at finished <;> cases finished
      next taken take =>
        have same := (Core.quiet_insertRecv insert).trans (Core.quiet_freeRecv free)
        exact ⟨(same.trans (Core.quiet_grant freed k.1)).trans (Core.quiet_takeRecv take), rfl⟩

theorem quiet_onRecvd {bytes : List UInt8} (received : w.onRecvd cfg bytes = some w') :
    Quiet cfg w w' := by
  unfold onRecvd at received
  split at received
  next k ev inner =>
    dsimp only at received
    split at received
    next =>
      split at received
      next => cases received
      next core stored =>
        have counted : Core.Quiet cfg w.core
            { core with
              lastBytes := Function.update core.lastBytes k (core.lastBytes k + bytes.length)
              bytesRecv := core.bytesRecv + bytes.length
              received := core.received ++ [(k, bytes)] } :=
          (Core.quiet_storeRecv stored).trans
            ⟨⟨rfl, rfl, fun _ => rfl, fun _ _ _ => rfl⟩, fun _ _ _ => rfl⟩
        split at received
        next =>
          obtain ⟨rest, view⟩ := quiet_finishRecv received
          exact ⟨counted.trans rest, view⟩
        next =>
          cases received
          exact ⟨counted, rfl⟩
    next => cases received
  next => cases received

theorem quiet_setDone (w : EpollWorker N) (k : ConnId) : Quiet cfg w (w.setDone k) :=
  ⟨⟨⟨rfl, rfl, fun _ => rfl, fun _ _ _ => rfl⟩, fun _ _ _ => rfl⟩, rfl⟩

theorem quiet_peerClosed (w : EpollWorker N) (k : ConnId) : Quiet cfg w (w.peerClosed k) := by
  unfold peerClosed
  dsimp only
  split
  · exact (quiet_setSock w k _).trans (quiet_setDone _ k)
  · exact quiet_setSock w k _

theorem quiet_onRecvEof (ended : w.onRecvEof = some w') : Quiet cfg w w' := by
  unfold onRecvEof at ended
  split at ended
  next k ev inner =>
    dsimp only at ended
    split at ended <;> cases ended
    exact ((quiet_setSock w k _).trans (quiet_peerClosed _ k)).setInner _
  next => cases ended

theorem quiet_finishEvent (w : EpollWorker N) (k : ConnId) (ev : Events) :
    Quiet cfg w (w.finishEvent k ev) := by
  have first : Quiet cfg w (if ev.epollrdhup then w.peerClosed k else w) := by
    split
    · exact quiet_peerClosed w k
    · exact Quiet.refl w
  unfold finishEvent
  dsimp only
  split
  · exact (first.trans (quiet_setDone _ k)).setInner _
  · exact first.setInner _

theorem quiet_runInner {i : Inner} (ran : w.runInner i = some w') : Quiet cfg w w' := by
  cases i with
  | idle => cases ran
  | receiving k ev => cases ran
  | event k ev =>
    simp only [runInner] at ran
    split at ran
    next => exact quiet_enterRecv ran
    next =>
      cases ran
      exact (Quiet.refl w).setInner _
  | received k ev =>
    simp only [runInner] at ran
    split at ran <;>
    · cases ran
      exact (Quiet.refl w).setInner _
  | sending k ev => exact quiet_finishSend ran
  | sent k ev =>
    cases ran
    exact quiet_finishEvent w k ev

theorem quiet_halfClose (w : EpollWorker N) (k : ConnId) : Quiet cfg w (w.halfClose k) := by
  unfold halfClose
  dsimp only
  split
  · exact Quiet.refl w
  · split
    · exact (quiet_setSock w k _).trans (quiet_setDone _ k)
    · exact quiet_setSock w k _

/-! ### The program's steps -/

theorem handOver_advances {p c : Nat} {rest : List (Tuple N)}
    (view : w.scanView = ⟨w.core, w.morsels, rest, some p, none, true⟩)
    (handed : w.handOver p c (.scan p rest) = some w') :
    Scan.Advances cfg w.scanView w'.scanView := by
  unfold handOver at handed
  split at handed <;> cases handed
  next core passed =>
    rw [view]
    exact Relation.ReflTransGen.single (.hand passed)

theorem flush_advances {p c : Nat} {parts : List Nat}
    (view : w.scanView = ⟨w.core, w.morsels, [], none, none, false⟩)
    (handed : w.handOver p c (.flush parts) = some w') :
    Scan.Advances cfg w.scanView w'.scanView := by
  unfold handOver at handed
  split at handed <;> cases handed
  next core passed =>
    rw [view]
    exact Relation.ReflTransGen.single (.flush passed)

/-- **The program's steps are steps of the scan.** -/
theorem runOuter_advances (ran : w.runOuter cfg = some w') :
    Scan.Advances cfg w.scanView w'.scanView := by
  have single {s t : Scan N} (step : Scan.Advance cfg s t) (before : w.scanView = s)
      (after : w'.scanView = t) : Scan.Advances cfg w.scanView w'.scanView := by
    rw [before, after]
    exact Relation.ReflTransGen.single step
  have same (view : w'.scanView = w.scanView) : Scan.Advances cfg w.scanView w'.scanView := by
    rw [view]
  unfold runOuter at ran
  split at ran
  case h_1 here =>
    split at ran <;> cases ran
    next none => exact single (.leave none) (by rw [scanView, here]; rfl) rfl
    next m morsels more => exact single (.morsel more) (by rw [scanView, here]; rfl) rfl
  case h_3 t rest here =>
    dsimp only at ran
    split at ran
    next foreign =>
      split at ran
      next => cases ran
      next core filled =>
        refine single (.fill filled) (by rw [scanView, here]; rfl) ?_
        split at ran <;> cases ran
        next full =>
          rw [if_pos full]
          rfl
        next more =>
          rw [if_neg more]
          rfl
    next own =>
      cases ran
      exact single (.scanLocal (not_not.mp own)) (by rw [scanView, here]; rfl) rfl
  case h_6 k after here => exact (quiet_finishSend ran).advances
  case h_7 p rest here =>
    cases ran
    exact single .charge (by rw [scanView, here]; rfl) rfl
  case h_11 k conns here =>
    split at ran <;> cases ran
    next => exact same (by rw [scanView, scanView, here]; rfl)
    next =>
      have quiet : Quiet cfg w { w.halfClose k with pc := .waitDone k conns } := by
        obtain ⟨core, view⟩ := @quiet_halfClose N cfg w k
        refine ⟨core, ?_⟩
        rw [scanView, scanView, here] at view
        rw [scanView, scanView, here]
        injection view with _ morsels
        rw [morsels]
        rfl
      exact quiet.advances
  -- elsewhere a buffer is handed over or the scan does not move
  all_goals
    repeat' split at ran
    all_goals first
      | exact handOver_advances (by rw [scanView, ‹w.pc = _›]; rfl) ran
      | exact flush_advances (by rw [scanView, ‹w.pc = _›]; rfl) ran
      | cases ran <;> first
        | exact same rfl
        | exact same (by rw [scanView, scanView, ‹w.pc = _›]; rfl)

theorem step_advances {a : EpollAction} (stepped : w.step cfg a = some w') :
    Scan.Advances cfg w.scanView w'.scanView := by
  cases a with
  | run =>
    simp only [step] at stepped
    split at stepped
    next i inner => exact (quiet_runInner stepped).advances
    next => exact runOuter_advances stepped
  | sent n => exact (quiet_onSent stepped).advances
  | sendAgain => exact (quiet_onSendAgain stepped).advances
  | recvd bytes => exact (quiet_onRecvd stepped).advances
  | recvEof => exact (quiet_onRecvEof stepped).advances
  | recvAgain =>
    simp only [step, onRecvAgain] at stepped
    split at stepped
    next => exact ((Option.some.inj stepped) ▸ (Quiet.refl w).setInner _ : Quiet cfg w w').advances
    next => cases stepped
  | event k ev =>
    simp only [step, onEvent, Option.ite_none_right_eq_some, Option.some.injEq] at stepped
    obtain ⟨-, rfl⟩ := stepped
    exact ((Quiet.refl w).setInner _).advances
  | endEvents =>
    simp only [step, Option.ite_none_right_eq_some, Option.some.injEq] at stepped
    obtain ⟨-, rfl⟩ := stepped
    exact ((Quiet.refl w).setInner _).advances
  | fin k =>
    cases stepped
    exact (quiet_setSock w k _).advances
  | release k b =>
    simp only [step, Option.ite_none_right_eq_some, Option.some.injEq] at stepped
    obtain ⟨-, rfl⟩ := stepped
    exact (quiet_setSock w k _).advances
  | inactive =>
    simp only [step, Option.ite_none_right_eq_some, Option.some.injEq] at stepped
    obtain ⟨⟨-, here⟩, rfl⟩ := stepped
    rw [scanView, scanView, here]
    exact .refl

theorem scanInv_reaches {morsels : Morsels N} {acts : List EpollAction}
    {ok : EpollWorker N → EpollAction → Prop}
    (reached : (epollSystem cfg morsels).Reaches ok acts w) :
    Scan.Inv cfg morsels.list.flatten w.scanView := by
  refine System.Reaches.invariant (P := fun w => Scan.Inv cfg morsels.list.flatten w.scanView)
    ?_ ?_ reached
  · rintro s ⟨-, zcEnabled, rfl, -⟩
    exact Scan.inv_new cfg morsels fun _ => false
  · intro s a t inv _ stepped
    exact inv.advances (step_advances stepped)

end EpollWorker

end UringDb.Shuffle
