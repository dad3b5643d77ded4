import UringDb.Remotescan.UringServer

/-!
# The epoll server

`EpollLibaioServer` of `remotescan/epoll_libaio.cpp`. Its loop waits for reports on three kinds of
descriptors: the listening socket, the event descriptor of the asynchronous reads, and the
connections, whose registrations are one-shot. All calls succeed or return `EAGAIN`; a send takes
at least one byte. An entry of a report is told from the others by what it carries, as if
descriptors and connections could not be confused.
-/
namespace UringDb.Remotescan.EpollServer

open UringDb.Bytes

/-! ### One-shot registrations -/

section

variable {ι ε : Type}

/-- What a poll may report, given what is armed: descriptors at most once, each for what it is
armed for. -/
def Deliverable (interest : ι → Option ε) (events : List (ι × ε)) : Prop :=
  (events.map Prod.fst).Nodup ∧ ∀ event ∈ events, interest event.1 = some event.2

instance decidableDeliverable [DecidableEq ι] [DecidableEq ε] (interest : ι → Option ε)
    (events : List (ι × ε)) : Decidable (Deliverable interest events) :=
  inferInstanceAs (Decidable (_ ∧ _))

/-- The registrations that are left when the report has been made. -/
def disarm [DecidableEq ι] (interest : ι → Option ε) (events : List (ι × ε)) : ι → Option ε :=
  fun i => if i ∈ events.map Prod.fst then none else interest i

end

/-! ### The code -/

def kMaxEvents : Nat := 256

inductive Event
  | epollin
  | epollout
deriving DecidableEq, Repr

structure Connection where
  /-- The first `req_bytes` bytes of `request`; the others are zero. -/
  received : List Byte
  sendOffset : Nat
  reading : Bool
  sending : Bool
  closed : Bool
  payload : List Byte
deriving DecidableEq

def Connection.request (conn : Connection) : ScanRequest := decode conn.received

def Connection.new (cfg : Config) : Connection where
  received := []
  sendOffset := 0
  reading := false
  sending := false
  closed := false
  payload := List.replicate cfg.requestSize 0

/-- An entry of what `epoll_wait` reports. -/
inductive Report (sockets : Nat)
  | listen
  | aio
  | conn (i : Fin sockets) (event : Event)
deriving DecidableEq

/-- The entries for connections. -/
def connReports {sockets : Nat} : List (Report sockets) → List (Fin sockets × Event)
  | [] => []
  | .conn i event :: rest => (i, event) :: connReports rest
  | .listen :: rest => connReports rest
  | .aio :: rest => connReports rest

/-- Where `run` is: at the head of its loop, at the next entry of the report, in one of the
handlers, or back at its caller. -/
inductive Pc (sockets : Nat)
  | loop
  | events (rest : List (Report sockets))
  | accept (rest : List (Report sockets))
  | aio (rest : List (Report sockets))
  | read (i : Fin sockets) (rest : List (Report sockets))
  | write (i : Fin sockets) (rest : List (Report sockets))
  | returned
deriving DecidableEq

structure State (sockets : Nat) where
  conns : Fin sockets → Connection
  nextConn : Nat
  counters : Counters
  closedConns : Nat
  /-- What each connection is armed for. -/
  interest : Fin sockets → Option Event
  /-- The bytes `send` has taken from each connection. -/
  wire : Fin sockets → List Byte
  answers : Fin sockets → Answers
  pc : Pc sockets

section

variable {sockets : Nat} {cfg : Config}

def State.setConn (s : State sockets) (i : Fin sockets) (conn : Connection) : State sockets :=
  { s with conns := Function.update s.conns i conn }

def State.setAnswers (s : State sockets) (i : Fin sockets) (a : Answers) : State sockets :=
  { s with answers := Function.update s.answers i a }

def updateInterest (s : State sockets) (i : Fin sockets) (events : Event) : State sockets :=
  { s with interest := Function.update s.interest i (some events) }

def closeConn (s : State sockets) (i : Fin sockets) : State sockets :=
  if (s.conns i).closed then s
  else
    { s.setConn i { s.conns i with closed := true } with
      closedConns := s.closedConns + 1
      interest := Function.update s.interest i none }

/-- One `accept` of `handle_accept`. -/
def handleAccept (s : State sockets) : Option (State sockets) :=
  if here : s.nextConn < sockets then
    some { updateInterest s ⟨s.nextConn, here⟩ .epollin with nextConn := s.nextConn + 1 }
  else none

/-- `handle_conn_read`: one `recv`, which may be the last of a request. -/
def handleConnRead (raid : RaidLayout cfg) (s : State sockets) (i : Fin sockets)
    (rest : List (Report sockets)) : Option (List Byte) → Option (State sockets)
  | none => some { updateInterest s i .epollin with pc := .events rest }
  | some [] => some { closeConn s i with pc := .events rest }
  | some (byte :: bytes) =>
    let received := (s.conns i).received ++ byte :: bytes
    if received.length ≤ requestBytes then
      let s := s.setConn i { s.conns i with received := received }
      if received.length < requestBytes then
        some { updateInterest s i .epollin with pc := .events rest }
      else if (recvReq raid (decode received)).isSome = true then
        -- `submit_read`
        let s := s.setConn i { s.conns i with reading := true }
        some { s.setAnswers i ((s.answers i).accept (decode received)) with pc := .events rest }
      else none
    else none

/-- One completion in `handle_aio_completions`. -/
def handleAioCompletion (s : State sockets) (i : Fin sockets) (data : List Byte) :
    Option (State sockets) :=
  let conn := s.conns i
  if conn.reading = true ∧ data.length = conn.request.length then
    let s := s.setConn i { conn with
      payload := data ++ conn.payload.drop data.length
      reading := false
      sending := true
      sendOffset := 0 }
    some (updateInterest (s.setAnswers i ((s.answers i).read conn.request data)) i .epollout)
  else none

def resetForNextRequest (s : State sockets) (i : Fin sockets) : State sockets :=
  let conn := s.conns i
  let s := { s with counters := s.counters.finish conn.request.length }
  let s := s.setConn i { conn with received := [], sendOffset := 0, sending := false }
  updateInterest (s.setAnswers i (s.answers i).finish) i .epollin

/-- `handle_conn_write` from the head of its loop: to the next `send`, or to its end. -/
def handleConnWrite (s : State sockets) (i : Fin sockets) (rest : List (Report sockets)) :
    State sockets :=
  if (s.conns i).sendOffset < (s.conns i).request.length then { s with pc := .write i rest }
  else { resetForNextRequest s i with pc := .events rest }

/-- One `send` of `handle_conn_write`. -/
def sendStep (s : State sockets) (i : Fin sockets) (rest : List (Report sockets)) :
    Option Nat → Option (State sockets)
  | none => some { updateInterest s i .epollout with pc := .events rest }
  | some n =>
    let conn := s.conns i
    if 0 < n ∧ n ≤ conn.request.length - conn.sendOffset then
      let taken := (conn.payload.drop conn.sendOffset).take n
      let s := s.setConn i { conn with sendOffset := conn.sendOffset + n }
      some (handleConnWrite { s with
        counters := s.counters.send n
        wire := Function.update s.wire i (s.wire i ++ taken) } i rest)
    else none

def targetBytes (cfg : Config) (w : Nat) : Nat := workerScanBytes cfg w

/-- The condition of the loop. -/
def running (cfg : Config) (w : Nat) (s : State sockets) : Bool :=
  (0 < targetBytes cfg w && s.counters.totalBytes < targetBytes cfg w) ||
    (targetBytes cfg w == 0 && s.closedConns < sockets)

/-- What the calls return, `none` being `EAGAIN`; and the steps of `run` in between. -/
inductive Act (sockets : Nat)
  | leave
  | wait (reports : List (Report sockets))
  | next
  | accept
  | acceptDone
  | aioEvent (i : Fin sockets) (data : List Byte)
  | aioDone
  | recv (ret : Option (List Byte))
  | send (ret : Option Nat)
deriving DecidableEq

def step (cfg : Config) (raid : RaidLayout cfg) (w : Nat) (s : State sockets) :
    Act sockets → Option (State sockets)
  | .leave =>
    if s.pc = .loop ∧ running cfg w s = false then some { s with pc := .returned } else none
  | .wait reports =>
    if s.pc = .loop ∧ running cfg w s = true ∧ reports.length ≤ kMaxEvents ∧
        Deliverable s.interest (connReports reports) then
      some { s with
        interest := disarm s.interest (connReports reports)
        pc := .events reports }
    else none
  | .next =>
    match s.pc with
    | .events [] => some { s with pc := .loop }
    | .events (.listen :: rest) => some { s with pc := .accept rest }
    | .events (.aio :: rest) => some { s with pc := .aio rest }
    | .events (.conn i .epollin :: rest) => some { s with pc := .read i rest }
    | .events (.conn i .epollout :: rest) => some (handleConnWrite s i rest)
    | _ => none
  | .accept =>
    match s.pc with
    | .accept _ => handleAccept s
    | _ => none
  | .acceptDone =>
    match s.pc with
    | .accept rest => some { s with pc := .events rest }
    | _ => none
  | .aioEvent i data =>
    match s.pc with
    | .aio _ => handleAioCompletion s i data
    | _ => none
  | .aioDone =>
    match s.pc with
    | .aio rest => some { s with pc := .events rest }
    | _ => none
  | .recv ret =>
    match s.pc with
    | .read i rest => handleConnRead raid s i rest ret
    | _ => none
  | .send ret =>
    match s.pc with
    | .write i rest => sendStep s i rest ret
    | _ => none

def start (cfg : Config) : State cfg.numSockets where
  conns _ := Connection.new cfg
  nextConn := 0
  counters := ⟨0, 0⟩
  closedConns := 0
  interest _ := none
  wire _ := []
  answers _ := .none
  pc := .loop

end

def system (cfg : Config) (raid : RaidLayout cfg) (w : Nat) :
    System (State cfg.numSockets) (Act cfg.numSockets) where
  init s := s = start cfg
  step s a t := step cfg raid w s a = some t

end UringDb.Remotescan.EpollServer
