import UringDb.Remotescan.Raid

/-!
# Requests outside of the scan

Before a server reads for a request, it compares the end of the request with the bytes to scan,
as 64-bit numbers. A request that ends at or behind `2 ^ 64` gets past this check, and the later
ones say nothing about how far an offset may be.
-/
namespace UringDb.Remotescan

variable {cfg : Config} {raid : RaidLayout cfg}

/-- Every request that was read for has passed the checks. -/
def Checked {sockets : Nat} (raid : RaidLayout cfg) (answers : Fin sockets → Answers) : Prop :=
  ∀ i, ∀ request ∈ (answers i).accepted, (recvReq raid request).isSome = true

section

variable {sockets : Nat} {answers : Fin sockets → Answers} {i : Fin sockets}

theorem checked_none : Checked raid (fun _ : Fin sockets => Answers.none) := by
  intro i request member
  cases member

theorem Checked.update (checked : Checked raid answers) {a : Answers}
    (same : a.accepted = (answers i).accepted) : Checked raid (Function.update answers i a) := by
  intro j request member
  by_cases here : j = i
  · subst here
    rw [Function.update_self, same] at member
    exact checked j request member
  · rw [Function.update_of_ne here] at member
    exact checked j request member

theorem Checked.accept (checked : Checked raid answers) {request : ScanRequest}
    (passed : (recvReq raid request).isSome = true) :
    Checked raid (Function.update answers i ((answers i).accept request)) := by
  intro j other member
  by_cases here : j = i
  · subst here
    rw [Function.update_self] at member
    rcases List.mem_append.mp member with before | new
    · exact checked j other before
    · rw [List.mem_singleton.mp new]
      exact passed
  · rw [Function.update_of_ne here] at member
    exact checked j other member

end

namespace UringServer

variable {sockets w : Nat} {s t : State sockets} {i : Fin sockets}

theorem onRecvReq_checked {bytes : List Byte} (checked : Checked raid s.answers)
    (handled : onRecvReq raid s i bytes = some t) : Checked raid t.answers := by
  unfold onRecvReq at handled
  dsimp only at handled
  split at handled
  next =>
    cases handled
    exact checked
  next =>
    split at handled <;> cases handled
    next passed => exact checked.accept passed.2

theorem onRead_checked {data : List Byte} (checked : Checked raid s.answers)
    (handled : onRead s i data = some t) : Checked raid t.answers := by
  unfold onRead at handled
  dsimp only at handled
  split at handled <;> cases handled
  exact checked.update rfl

theorem onSend_checked {n : Nat} (checked : Checked raid s.answers)
    (handled : onSend cfg w s i n = some t) : Checked raid t.answers := by
  unfold onSend at handled
  dsimp only at handled
  split at handled
  next =>
    split at handled <;> cases handled
    next => exact checked
    next => exact checked.update rfl
  next => cases handled

theorem step_checked {a : Act sockets} (checked : Checked raid s.answers)
    (stepped : step cfg raid w s a = some t) : Checked raid t.answers := by
  cases a with
  | wait | advance | leave | notif =>
    simp only [step] at stepped
    split at stepped <;> cases stepped
    exact checked
  | recvReq i bytes =>
    simp only [step] at stepped
    split at stepped
    next => exact onRecvReq_checked checked stepped
    next => cases stepped
  | read i data =>
    simp only [step] at stepped
    split at stepped
    next => exact onRead_checked checked stepped
    next => cases stepped
  | send i n =>
    simp only [step] at stepped
    split at stepped
    next => exact onSend_checked checked stepped
    next => cases stepped
  | transmit i =>
    simp only [step, Option.map_eq_some_iff] at stepped
    obtain ⟨segments, -, rfl⟩ := stepped
    exact checked

theorem checked_of_reaches {acts : List (Act cfg.numSockets)} {s : State cfg.numSockets}
    (reached : (system cfg raid w).Reaches System.anyStep acts s) : Checked raid s.answers := by
  refine System.Reaches.invariant (P := fun s => Checked raid s.answers) ?_ ?_ reached
  · rintro s rfl
    exact checked_none
  · intro s a t checked _ stepped
    exact step_checked checked stepped

end UringServer

namespace EpollServer

variable {sockets w : Nat} {s t : State sockets} {i : Fin sockets} {rest : List (Report sockets)}

theorem answers_closeConn (s : State sockets) (i : Fin sockets) :
    (closeConn s i).answers = s.answers := by
  unfold closeConn
  split <;> rfl

theorem handleConnRead_checked {ret : Option (List Byte)} (checked : Checked raid s.answers)
    (handled : handleConnRead raid s i rest ret = some t) : Checked raid t.answers := by
  unfold handleConnRead at handled
  split at handled
  next =>
    cases handled
    exact checked
  next =>
    cases handled
    change Checked raid (closeConn s i).answers
    rw [answers_closeConn]
    exact checked
  next =>
    dsimp only at handled
    split at handled
    next =>
      split at handled
      next =>
        cases handled
        exact checked
      next =>
        split at handled <;> cases handled
        next passed => exact checked.accept passed
    next => cases handled

theorem handleConnWrite_checked (checked : Checked raid s.answers) :
    Checked raid (handleConnWrite s i rest).answers := by
  unfold handleConnWrite
  split
  next => exact checked
  next => exact checked.update rfl

theorem sendStep_checked {ret : Option Nat} (checked : Checked raid s.answers)
    (handled : sendStep s i rest ret = some t) : Checked raid t.answers := by
  unfold sendStep at handled
  split at handled
  next =>
    cases handled
    exact checked
  next =>
    dsimp only at handled
    split at handled <;> cases handled
    exact handleConnWrite_checked checked

theorem handleAioCompletion_checked {data : List Byte} (checked : Checked raid s.answers)
    (handled : handleAioCompletion s i data = some t) : Checked raid t.answers := by
  unfold handleAioCompletion at handled
  dsimp only at handled
  split at handled <;> cases handled
  exact checked.update rfl

theorem step_checked {a : Act sockets} (checked : Checked raid s.answers)
    (stepped : step cfg raid w s a = some t) : Checked raid t.answers := by
  cases a with simp only [step] at stepped
  | leave | wait =>
    split at stepped <;> cases stepped
    exact checked
  | next =>
    split at stepped
    all_goals cases stepped
    case h_5 => exact handleConnWrite_checked checked
    all_goals exact checked
  | accept =>
    split at stepped
    next =>
      unfold handleAccept at stepped
      split at stepped <;> cases stepped
      exact checked
    next => cases stepped
  | acceptDone | aioDone =>
    split at stepped <;> cases stepped
    exact checked
  | aioEvent i data =>
    split at stepped
    next => exact handleAioCompletion_checked checked stepped
    next => cases stepped
  | recv ret =>
    split at stepped
    next => exact handleConnRead_checked checked stepped
    next => cases stepped
  | send ret =>
    split at stepped
    next => exact sendStep_checked checked stepped
    next => cases stepped

theorem checked_of_reaches {acts : List (Act cfg.numSockets)} {s : State cfg.numSockets}
    (reached : (system cfg raid w).Reaches System.anyStep acts s) : Checked raid s.answers := by
  refine System.Reaches.invariant (P := fun s => Checked raid s.answers) ?_ ?_ reached
  · rintro s rfl
    exact checked_none
  · intro s a t checked _ stepped
    exact step_checked checked stepped

end EpollServer

/-! ### Which requests are inside of the scan -/

/-- All of the request is in the scan. -/
def InsideScan (cfg : Config) (request : ScanRequest) : Prop :=
  request.offset + request.length ≤ cfg.scanBytes

theorem insideScan_iff (target : 0 < cfg.scanBytes) {request : ScanRequest}
    (passed : (recvReq raid request).isSome = true) :
    InsideScan cfg request ↔ request.offset + request.length < 2 ^ 64 := by
  have word := cfg.scanBytes_lt
  have compared := ((recvReq_isSome_iff raid request).mp passed).2.2.1 (decide_eq_true target)
  constructor
  · intro inside
    exact lt_of_le_of_lt inside word
  · intro short
    rwa [Nat.mod_eq_of_lt short] at compared

/-- Whatever the sizes are, the last block below `2 ^ 64` passes the checks. -/
theorem last_block_passes (accepted : cfg.Accepted) (drives : raid.usableBytes ≠ []) :
    (recvReq raid ⟨2 ^ 64 - kBlockSize, kBlockSize⟩).isSome = true := by
  have request := Nat.le_of_dvd accepted.request (Nat.dvd_of_mod_eq_zero accepted.requestBlocks)
  have stripe := Nat.dvd_of_mod_eq_zero accepted.stripeBlocks
  rw [recvReq_isSome_iff]
  refine ⟨by decide, request, fun _ => ?_, drives, by decide, Nat.mod_self _, ?_⟩
  · exact Nat.zero_le _
  · refine fits_of_dvd stripe ?_ (lt_of_lt_of_le accepted.request accepted.stripe)
    decide

/-- **A request that a server reads for is inside of the scan if and only if its end is a 64-bit
number**, in every run of either server. In no configuration are the other checks enough. -/
theorem served_inside_iff {options cfg : Config} (parsed : options.parse = some cfg)
    (target : 0 < cfg.scanBytes) (raid : RaidLayout cfg) (w : Nat) :
    (∀ acts s, (UringServer.system cfg raid w).Reaches System.anyStep acts s →
      ∀ i, ∀ request ∈ (s.answers i).accepted,
        (InsideScan cfg request ↔ request.offset + request.length < 2 ^ 64)) ∧
    (∀ acts s, (EpollServer.system cfg raid w).Reaches System.anyStep acts s →
      ∀ i, ∀ request ∈ (s.answers i).accepted,
        (InsideScan cfg request ↔ request.offset + request.length < 2 ^ 64)) ∧
    (raid.usableBytes ≠ [] → ∃ request : ScanRequest, request.offset < 2 ^ 64 ∧
      request.length < 2 ^ 32 ∧ (recvReq raid request).isSome = true ∧
      ¬InsideScan cfg request) := by
  refine ⟨fun acts s reached i request member => ?_, fun acts s reached i request member => ?_,
    fun drives => ?_⟩
  · exact insideScan_iff target (UringServer.checked_of_reaches reached i request member)
  · exact insideScan_iff target (EpollServer.checked_of_reaches reached i request member)
  · have passed := last_block_passes (Config.accepted_of_parse parsed) drives
    refine ⟨⟨2 ^ 64 - kBlockSize, kBlockSize⟩, by decide, by decide, passed, ?_⟩
    rw [insideScan_iff target passed]
    decide

section

def firstConn : Fin (twoRequests .server 16384).numSockets := ⟨0, Nat.zero_lt_one⟩

/-- A request for the last bytes a 64-bit offset can name. -/
def farRequest : ScanRequest := ⟨2 ^ 64 - 8192, 8192⟩

/-- A server that receives a request first, and reads for it. -/
theorem uring_accepts {request : ScanRequest} (offset : request.offset < 2 ^ 64)
    (length : request.length < 2 ^ 32)
    (passed : (recvReq (oneDrive .server 16384) request).isSome = true) : ∃ s,
    (UringServer.system (twoRequests .server 16384) (oneDrive .server 16384) 0).Reaches
      System.anyStep [.wait, .recvReq firstConn (encode request)] s ∧
    (s.answers firstConn).accepted = [request] := by
  have target : UringServer.targetBytes (twoRequests .server 16384) 0 = 16384 := by decide
  have nonempty : encode request ≠ [] := by
    rw [← List.length_pos_iff, length_encode]
    decide
  have read : ∃ s, perform
      (UringServer.step (twoRequests .server 16384) (oneDrive .server 16384) 0)
      (UringServer.start (twoRequests .server 16384))
      [.wait, .recvReq firstConn (encode request)] = some s ∧
      (s.answers firstConn).accepted = [request] := by
    simp [perform, UringServer.step, UringServer.start, UringServer.running,
      UringServer.onRecvReq, UringServer.State.setConn, UringServer.State.setAnswers,
      UringServer.prepRecvRequest, Answers.none, Answers.accept, decode_encode offset length,
      passed, nonempty, target]
  obtain ⟨s, performed, accepted⟩ := read
  exact ⟨s, ⟨_, rfl, perform_path (fun _ _ _ stepped => ⟨stepped, trivial⟩) performed⟩, accepted⟩

/-- The second request of the scan. -/
theorem served_inside_two : ∃ s,
    (twoRequests .server 16384).parse = some (twoRequests .server 16384) ∧
    (UringServer.system (twoRequests .server 16384) (oneDrive .server 16384) 0).Reaches
      System.anyStep [.wait, .recvReq firstConn (encode ⟨8192, 8192⟩)] s ∧
    (⟨8192, 8192⟩ : ScanRequest) ∈ (s.answers firstConn).accepted ∧
    InsideScan (twoRequests .server 16384) ⟨8192, 8192⟩ := by
  have parsed : (twoRequests .server 16384).parse = some (twoRequests .server 16384) := rfl
  obtain ⟨s, reached, accepted⟩ := @uring_accepts ⟨8192, 8192⟩ (by decide) (by decide) (by decide)
  have member : (⟨8192, 8192⟩ : ScanRequest) ∈ (s.answers firstConn).accepted := by
    rw [accepted]
    exact List.mem_singleton_self _
  have served := served_inside_iff parsed (by decide) (oneDrive .server 16384) 0
  exact ⟨s, parsed, reached, member, (served.1 _ s reached firstConn _ member).mpr (by decide)⟩

/-- A request for bytes near `2 ^ 64`, when 16384 bytes are to be scanned. -/
theorem far_request_served : ∃ s,
    (twoRequests .server 16384).parse = some (twoRequests .server 16384) ∧
    (UringServer.system (twoRequests .server 16384) (oneDrive .server 16384) 0).Reaches
      System.anyStep [.wait, .recvReq firstConn (encode farRequest)] s ∧
    farRequest ∈ (s.answers firstConn).accepted ∧
    (twoRequests .server 16384).scanBytes < farRequest.offset + farRequest.length := by
  obtain ⟨s, reached, accepted⟩ := @uring_accepts farRequest (by decide) (by decide) (by decide)
  refine ⟨s, rfl, reached, ?_, by decide⟩
  rw [accepted]
  exact List.mem_singleton_self _

end

end UringDb.Remotescan
