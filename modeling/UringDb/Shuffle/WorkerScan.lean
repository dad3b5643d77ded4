import UringDb.Shuffle.Scan
import UringDb.Shuffle.Worker

/-!
# The scan of the io_uring worker

Completions, the kernel and everything else that happens around the scan loop leave the tuples to
be sent alone, and the steps of `run` are steps of the scan.
-/
namespace UringDb.Shuffle

variable {N : TupleSize} {cfg : Config}

namespace Pc

/-- The tuples of the current morsel that are still to come. -/
def rest : Pc N → List (Tuple N)
  | .scan rest | .find _ rest | .budget _ _ rest => rest
  | _ => []

/-- The target whose full buffer is to be handed over. -/
def target : Pc N → Option Nat
  | .find p _ | .budget p _ _ => some p
  | _ => none

/-- Whether `run` is in the scan loop. -/
def scanning : Pc N → Bool
  | .next | .scan _ | .find _ _ | .budget _ _ _ => true
  | _ => false

end Pc

namespace Worker

variable {w w' : Worker N} {k : ConnId}

/-! ### Steps that have no part in the scan -/

structure Quiet (cfg : Config) (w w' : Worker N) : Prop where
  pc : w'.pc = w.pc
  morsels : w'.morsels = w.morsels
  core : Core.Quiet cfg w.core w'.core

theorem Quiet.trans {w'' : Worker N} (first : Quiet cfg w w') (second : Quiet cfg w' w'') :
    Quiet cfg w w'' :=
  ⟨second.pc.trans first.pc, second.morsels.trans first.morsels, first.core.trans second.core⟩

theorem Quiet.refl (w : Worker N) : Quiet cfg w w := ⟨rfl, rfl, Core.Quiet.refl _⟩

theorem quiet_submit (w : Worker N) : Quiet cfg w w.submit := ⟨rfl, rfl, Core.Quiet.refl _⟩

theorem quiet_prepRecv (prepared : prepRecv cfg w k = some w') : Quiet cfg w w' := by
  unfold prepRecv at prepared
  dsimp only at prepared
  split at prepared
  next =>
    cases prepared
    exact ⟨rfl, rfl, Core.Quiet.refl _⟩
  next =>
    split at prepared <;> cases prepared
    next core taken => exact ⟨rfl, rfl, Core.quiet_takeRecv taken⟩

theorem quiet_onSend (handled : w.onSend k = some w') : Quiet cfg w w' := by
  unfold onSend at handled
  split at handled
  next =>
    split at handled <;> cases handled
    next core freed =>
      have same : Core.Quiet cfg w.core core := Core.quiet_freeSend freed
      exact ⟨rfl, rfl, same.trans ⟨⟨rfl, rfl, fun _ => rfl, fun _ _ _ => rfl⟩, fun _ _ _ => rfl⟩⟩
  next => cases handled

theorem quiet_onRecv (handled : w.onRecv cfg k = some w') : Quiet cfg w w' := by
  unfold onRecv at handled
  dsimp only at handled
  split at handled
  next =>
    split at handled
    next => cases handled
    next inserted insert =>
      split at handled
      next => cases handled
      next freed free =>
        have same : Core.Quiet cfg w.core freed := by
          refine Core.Quiet.trans ?_ ((Core.quiet_insertRecv insert).trans
            (Core.quiet_freeRecv free))
          exact ⟨⟨rfl, rfl, fun _ => rfl, fun _ _ _ => rfl⟩, fun _ _ _ => rfl⟩
        split at handled
        next =>
          cases handled
          refine ⟨rfl, rfl, same.trans ?_⟩
          exact ⟨⟨rfl, rfl, fun _ => rfl, fun _ _ _ => rfl⟩, fun _ _ _ => rfl⟩
        next =>
          refine Quiet.trans ?_ (quiet_prepRecv handled)
          exact ⟨rfl, rfl, same.trans (Core.quiet_grant freed k.1)⟩
  next => cases handled

/-- With zero-copy receive, budgets follow another rule. -/
theorem quiet_onRecvZc {bytes : List UInt8} (handled : w.onRecvZc cfg k bytes = some w') :
    Quiet cfg w w' := by
  unfold onRecvZc at handled
  dsimp only at handled
  split at handled
  next zeroCopy =>
    have quiet {core : Core N} (same : Core.SameFill w.core core) : Core.Quiet cfg w.core core :=
      ⟨same, fun _ plain => absurd zeroCopy.1 (by rw [plain]; exact Bool.false_ne_true)⟩
    split at handled
    next =>
      split at handled
      next =>
        cases handled
        exact ⟨rfl, rfl, quiet ⟨rfl, rfl, fun _ => rfl, fun _ _ _ => rfl⟩⟩
      next =>
        refine Quiet.trans ?_ (quiet_prepRecv handled)
        exact ⟨rfl, rfl, quiet ⟨rfl, rfl, fun _ => rfl, fun _ _ _ => rfl⟩⟩
    next =>
      split at handled <;> split at handled <;>
      · cases handled
        exact ⟨rfl, rfl, quiet ⟨rfl, rfl, fun _ => rfl, fun _ _ _ => rfl⟩⟩
  next => cases handled

theorem quiet_handle {a : Action} (handled : w.handle cfg a = some w') : Quiet cfg w w' := by
  cases a with
  | send k => exact quiet_onSend handled
  | recv k => exact quiet_onRecv handled
  | recvZc k bytes => exact quiet_onRecvZc handled
  | notif k =>
    simp only [handle, onNotif, Option.ite_none_right_eq_some, Option.some.injEq] at handled
    obtain ⟨-, rfl⟩ := handled
    exact ⟨rfl, rfl, Core.Quiet.refl _⟩
  | ignr k =>
    simp only [handle, onIgnr, Option.ite_none_right_eq_some, Option.some.injEq] at handled
    obtain ⟨-, rfl⟩ := handled
    exact ⟨rfl, rfl, Core.Quiet.refl _⟩
  | run | endDrain | deliver | endStream | release | inactive | chunks => cases handled

theorem quiet_deliver {bytes : List UInt8} (delivered : w.deliver cfg k bytes = some w') :
    Quiet cfg w w' := by
  unfold deliver at delivered
  dsimp only at delivered
  split at delivered
  next =>
    split at delivered <;> cases delivered
    next core stored => exact ⟨rfl, rfl, Core.quiet_storeRecv stored⟩
  next => cases delivered

/-- **The steps of a worker**: those of the program itself, giving up, and quiet ones. -/
theorem step_cases {a : Action} (stepped : w.step cfg a = some w') :
    (a = .run ∧ w.run cfg = some w') ∨
    (cfg.recvZc = true ∧ w.pc = .watch ∧ w' = { w with pc := .tail }) ∨ Quiet cfg w w' := by
  cases a with
  | run =>
    simp only [step, Option.ite_none_right_eq_some] at stepped
    exact Or.inl ⟨rfl, stepped.2⟩
  | inactive =>
    simp only [step, Option.ite_none_right_eq_some, Option.some.injEq] at stepped
    obtain ⟨⟨-, zeroCopy, here⟩, rfl⟩ := stepped
    exact Or.inr (Or.inl ⟨zeroCopy, here, rfl⟩)
  | endDrain =>
    refine Or.inr (Or.inr ?_)
    simp only [step] at stepped
    split at stepped <;> cases stepped
    next doSubmit _ =>
      cases doSubmit
      · exact ⟨rfl, rfl, Core.Quiet.refl _⟩
      · exact ⟨rfl, rfl, Core.Quiet.refl _⟩
  | deliver k bytes => exact Or.inr (Or.inr (quiet_deliver stepped))
  | release k b =>
    simp only [step, release, Option.ite_none_right_eq_some, Option.some.injEq] at stepped
    obtain ⟨-, rfl⟩ := stepped
    exact Or.inr (Or.inr ⟨rfl, rfl, Core.Quiet.refl _⟩)
  | endStream k | chunks n =>
    cases stepped
    exact Or.inr (Or.inr ⟨rfl, rfl, Core.Quiet.refl _⟩)
  | send k | notif k | recv k | recvZc k bytes | ignr k =>
    simp only [step, Option.ite_none_left_eq_some] at stepped
    exact Or.inr (Or.inr (quiet_handle stepped.2))

/-! ### The scan of a worker -/

/-- What the scan machine sees of a worker. -/
def scanView (w : Worker N) : Scan N :=
  ⟨w.core, w.morsels, w.pc.rest, w.pc.target, none, w.pc.scanning⟩

theorem Quiet.advances (quiet : Quiet cfg w w') : Scan.Advances cfg w.scanView w'.scanView := by
  have view : w'.scanView = { w.scanView with core := w'.core } := by
    rw [scanView, quiet.pc, quiet.morsels]
    rfl
  rw [view]
  exact Relation.ReflTransGen.single (.quiet quiet.core)

theorem handOver_advances {p c : Nat} {rest : List (Tuple N)}
    (view : w.scanView = ⟨w.core, w.morsels, rest, some p, none, true⟩)
    (handed : w.handOver cfg p c rest = some w') : Scan.Advances cfg w.scanView w'.scanView := by
  unfold handOver at handed
  split at handed <;> cases handed
  next core passed =>
    rw [view]
    exact (Relation.ReflTransGen.single (.hand passed)).tail .charge

/-- A round of the last loop may hand over what remains. -/
theorem finalPass_advances {conns : List ConnId} {done : Bool} (here : w.pc = .final)
    (passed : finalPass cfg w conns = some (w', done)) :
    w'.pc = .final ∧ Scan.Advances cfg w.scanView w'.scanView := by
  induction conns generalizing w done with
  | nil =>
    cases passed
    exact ⟨here, .refl⟩
  | cons k conns ih =>
    unfold finalPass at passed
    split at passed
    next => cases passed
    next mid flushed =>
      have first : mid.pc = .final ∧ Scan.Advances cfg w.scanView mid.scanView := by
        unfold flushFill at flushed
        split at flushed
        next =>
          split at flushed <;> cases flushed
          next core handed =>
            refine ⟨here, ?_⟩
            rw [scanView, scanView, here]
            exact Relation.ReflTransGen.single (.flush handed)
        next =>
          cases flushed
          exact ⟨here, .refl⟩
      have shut : (flushShut cfg mid k).pc = mid.pc ∧
          (flushShut cfg mid k).scanView = mid.scanView := by
        unfold flushShut
        dsimp only
        split
        · split <;> exact ⟨rfl, rfl⟩
        · exact ⟨rfl, rfl⟩
      dsimp only at passed
      split at passed <;> cases passed
      next last more rest =>
        obtain ⟨final, later⟩ := ih (shut.1.trans first.1) rest
        rw [shut.2] at later
        exact ⟨final, first.2.trans later⟩

/-- **The program's steps are steps of the scan.** -/
theorem run_advances (ran : w.run cfg = some w') : Scan.Advances cfg w.scanView w'.scanView := by
  have single {s t : Scan N} (step : Scan.Advance cfg s t) (before : w.scanView = s)
      (after : w'.scanView = t) : Scan.Advances cfg w.scanView w'.scanView := by
    rw [before, after]
    exact Relation.ReflTransGen.single step
  have same (view : w'.scanView = w.scanView) : Scan.Advances cfg w.scanView w'.scanView := by
    rw [view]
  unfold run at ran
  split at ran
  case h_1 here =>
    split at ran <;> cases ran
    next none => exact single (.leave none) (by rw [scanView, here]; rfl) rfl
    next m morsels more => exact single (.morsel more) (by rw [scanView, here]; rfl) rfl
  case h_3 t rest here =>
    dsimp only at ran
    split at ran
    next foreign =>
      split at ran
      next => cases ran
      next core filled =>
        refine single (.fill filled) (by rw [scanView, here]; rfl) ?_
        split at ran <;> cases ran
        next full =>
          rw [if_pos full]
          rfl
        next more =>
          rw [if_neg more]
          rfl
    next own =>
      cases ran
      exact single (.scanLocal (not_not.mp own)) (by rw [scanView, here]; rfl) rfl
  case h_6 here =>
    have final {last : Worker N} {done : Bool}
        (passed : finalPass cfg w (remoteConns cfg) = some (last, done)) :
        Scan.Advances cfg w.scanView ⟨last.core, last.morsels, [], none, none, false⟩ := by
      obtain ⟨final, steps⟩ := finalPass_advances here passed
      unfold scanView at steps ⊢
      rwa [final] at steps
    split at ran
    next => cases ran
    next last passed =>
      split at ran <;> cases ran
      exact (final passed :)
    next last passed =>
      cases ran
      exact (final passed :)
  -- elsewhere a buffer is handed over or the scan does not move
  all_goals
    repeat' split at ran
    all_goals first
      | exact handOver_advances (by rw [scanView, ‹w.pc = _›]; rfl) ran
      | cases ran <;> first
        | exact same rfl
        | exact same (by rw [scanView, scanView, ‹w.pc = _›]; rfl)

theorem step_advances {a : Action} (stepped : w.step cfg a = some w') :
    Scan.Advances cfg w.scanView w'.scanView := by
  rcases step_cases stepped with ⟨-, ran⟩ | ⟨-, here, rfl⟩ | quiet
  · exact run_advances ran
  · rw [scanView, scanView, here]
    exact .refl
  · exact quiet.advances

theorem quiet_prepRecvs {conns : List ConnId} (prepared : prepRecvs cfg w conns = some w') :
    Quiet cfg w w' := by
  induction conns generalizing w with
  | nil =>
    cases prepared
    exact Quiet.refl _
  | cons k conns ih =>
    unfold prepRecvs at prepared
    split at prepared
    next => cases prepared
    next mid first => exact (quiet_prepRecv first).trans (ih prepared)

theorem scanInv_init {morsels : Morsels N} {done : ConnId → Bool}
    (start : init cfg morsels done = some w) :
    Scan.Inv cfg morsels.list.flatten w.scanView := by
  rw [init, Option.map_eq_some_iff] at start
  obtain ⟨ready, prepared, rfl⟩ := start
  exact (Scan.inv_new cfg morsels done).advances
    ((quiet_prepRecvs prepared).trans (quiet_submit ready)).advances

/-- The invariant of the scan holds in every state of every run. -/
theorem scanInv_reaches {morsels : Morsels N} {acts : List Action} {ok : Worker N → Action → Prop}
    (reached : (workerSystem cfg morsels).Reaches ok acts w) :
    Scan.Inv cfg morsels.list.flatten w.scanView := by
  refine System.Reaches.invariant (P := fun w => Scan.Inv cfg morsels.list.flatten w.scanView)
    ?_ ?_ reached
  · rintro s ⟨done, start⟩
    exact scanInv_init start
  · intro s a t inv _ stepped
    exact inv.advances (step_advances stepped)

end Worker

end UringDb.Shuffle
