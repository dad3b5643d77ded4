import UringDb.Remotescan.Protocol
import UringDb.Remotescan.Server

/-!
# The io_uring server

`ServerWorker` of `remotescan/server.cpp` behind the accepting of its connections. An operation is
in flight from its preparation until its completion is handled; completions come in any order,
and all of them succeed. A zero-copy send leaves its bytes in the payload buffer: the kernel
takes them when it transmits them, and posts the notification after that. Until then the wire
holds a reference to the buffer.
-/
namespace UringDb.Remotescan.UringServer

open UringDb.Bytes

/-! ### The wire -/

/-- What a `send` has put on the wire: bytes, or a part of the payload buffer that is yet to be
transmitted. -/
inductive Segment
  | copied (bytes : List Byte)
  | borrowed (offset length : Nat)
deriving DecidableEq

/-- The bytes the peer gets if the segment is transmitted now. -/
def Segment.bytes (payload : List Byte) : Segment → List Byte
  | .copied bytes => bytes
  | .borrowed offset length => (payload.drop offset).take length

/-- The first borrowed segment is transmitted. -/
def transmitFirst (payload : List Byte) : List Segment → Option (List Segment)
  | [] => none
  | .copied bytes :: rest => (transmitFirst payload rest).map (.copied bytes :: ·)
  | .borrowed offset length :: rest =>
    some (.copied (Segment.bytes payload (.borrowed offset length)) :: rest)

/-! ### The code -/

structure Connection where
  request : ScanRequest
  payload : List Byte
  bytesSent : Nat
  recvPosted : Bool
  readPosted : Bool
  sendPosted : Bool
  waitingForZcNotif : Bool
  /-- `raw_fd >= 0`. -/
  isOpen : Bool
deriving DecidableEq

inductive Pc
  | loop
  | completions
  | returned
deriving DecidableEq

structure State (sockets : Nat) where
  conns : Fin sockets → Connection
  counters : Counters
  closed : Nat
  /-- What each connection has sent. -/
  wire : Fin sockets → List Segment
  /-- Notifications that are posted and not handled. -/
  notifs : Fin sockets → Nat
  answers : Fin sockets → Answers
  pc : Pc

section

variable {sockets : Nat} {cfg : Config}

def State.setConn (s : State sockets) (i : Fin sockets) (conn : Connection) : State sockets :=
  { s with conns := Function.update s.conns i conn }

def State.setAnswers (s : State sockets) (i : Fin sockets) (a : Answers) : State sockets :=
  { s with answers := Function.update s.answers i a }

def prepRecvRequest (conn : Connection) : Connection := { conn with recvPosted := true }

def prepReadOp (conn : Connection) : Connection := { conn with readPosted := true }

def prepSend (conn : Connection) : Connection := { conn with sendPosted := true }

/-- What the send that is in flight puts on the wire when it has taken `n` bytes. -/
def sentSegment (cfg : Config) (conn : Connection) (n : Nat) : Segment :=
  if cfg.sendZc && conn.bytesSent == 0 then .borrowed conn.bytesSent n
  else .copied ((conn.payload.drop conn.bytesSent).take n)

/-- `finish_request`, but for `total_bytes`. -/
def finishRequest (conn : Connection) : Connection :=
  { conn with
    bytesSent := 0
    recvPosted := false
    readPosted := false
    sendPosted := false
    waitingForZcNotif := false }

def targetBytes (cfg : Config) (w : Nat) : Nat := workerScanBytes cfg w

/-- The condition of the event loop. -/
def running (cfg : Config) (w : Nat) (s : State sockets) : Bool :=
  (0 < targetBytes cfg w && s.counters.totalBytes < targetBytes cfg w) ||
    (targetBytes cfg w == 0 && s.closed < sockets)

/-- `RECV_REQ`, with the bytes received; none are the end of the stream. -/
def onRecvReq (raid : RaidLayout cfg) (s : State sockets) (i : Fin sockets) (bytes : List Byte) :
    Option (State sockets) :=
  let conn := s.conns i
  if bytes = [] then
    some { s.setConn i { conn with isOpen := false, recvPosted := false } with
      closed := if conn.isOpen then s.closed + 1 else s.closed }
  else if bytes.length = requestBytes ∧ (recvReq raid (decode bytes)).isSome = true then
    let conn := { conn with request := decode bytes, recvPosted := false }
    some ((s.setConn i (prepReadOp conn)).setAnswers i ((s.answers i).accept (decode bytes)))
  else none

/-- `READ`, with the bytes read. A result is a positive 32-bit number. -/
def onRead (s : State sockets) (i : Fin sockets) (data : List Byte) : Option (State sockets) :=
  let conn := s.conns i
  if data.length = conn.request.length ∧ data.length < 2 ^ 31 then
    let conn := { conn with
      payload := data ++ conn.payload.drop data.length
      readPosted := false }
    some ((s.setConn i (prepSend conn)).setAnswers i ((s.answers i).read conn.request data))
  else none

/-- `SEND`, with the number of bytes taken. -/
def onSend (cfg : Config) (w : Nat) (s : State sockets) (i : Fin sockets) (n : Nat) :
    Option (State sockets) :=
  let conn := s.conns i
  if 0 < n ∧ n ≤ conn.request.length - conn.bytesSent then
    let segment := sentSegment cfg conn n
    let conn := { conn with bytesSent := conn.bytesSent + n }
    let s := { s with
      counters := s.counters.send n
      wire := Function.update s.wire i (s.wire i ++ [segment]) }
    if conn.bytesSent < conn.request.length then some (s.setConn i (prepSend conn))
    else
      let s := { s with counters := s.counters.finish conn.request.length }
      let conn := finishRequest conn
      let more := (0 < targetBytes cfg w && s.counters.totalBytes < targetBytes cfg w) ||
        targetBytes cfg w == 0
      some ((s.setConn i (if more then prepRecvRequest conn else conn)).setAnswers i
        (s.answers i).finish)
  else none

/-- The completions, the turns of the loop around them, and the kernel's transmissions. -/
inductive Act (sockets : Nat)
  | wait
  | advance
  | leave
  | recvReq (i : Fin sockets) (bytes : List Byte)
  | read (i : Fin sockets) (data : List Byte)
  | send (i : Fin sockets) (n : Nat)
  | notif (i : Fin sockets)
  | transmit (i : Fin sockets)
deriving DecidableEq

def step (cfg : Config) (raid : RaidLayout cfg) (w : Nat) (s : State sockets) :
    Act sockets → Option (State sockets)
  | .wait =>
    if s.pc = .loop ∧ running cfg w s = true then some { s with pc := .completions } else none
  | .advance => if s.pc = .completions then some { s with pc := .loop } else none
  | .leave =>
    if s.pc = .loop ∧ running cfg w s = false then some { s with pc := .returned } else none
  | .recvReq i bytes =>
    if s.pc = .completions ∧ (s.conns i).recvPosted = true then onRecvReq raid s i bytes else none
  | .read i data =>
    if s.pc = .completions ∧ (s.conns i).readPosted = true then onRead s i data else none
  | .send i n =>
    if s.pc = .completions ∧ (s.conns i).sendPosted = true then onSend cfg w s i n else none
  | .notif i =>
    if s.pc = .completions ∧ 0 < s.notifs i then
      some { s.setConn i { s.conns i with waitingForZcNotif := false } with
        notifs := Function.update s.notifs i (s.notifs i - 1) }
    else none
  | .transmit i =>
    (transmitFirst (s.conns i).payload (s.wire i)).map fun segments =>
      { s with
        wire := Function.update s.wire i segments
        notifs := Function.update s.notifs i (s.notifs i + 1) }

def Connection.fresh (cfg : Config) : Connection where
  request := ⟨0, 0⟩
  payload := List.replicate cfg.requestSize 0
  bytesSent := 0
  recvPosted := false
  readPosted := false
  sendPosted := false
  waitingForZcNotif := false
  isOpen := true

def start (cfg : Config) : State cfg.numSockets where
  conns _ := prepRecvRequest (Connection.fresh cfg)
  counters := ⟨0, 0⟩
  closed := 0
  wire _ := []
  notifs _ := 0
  answers _ := .none
  pc := .loop

end

def system (cfg : Config) (raid : RaidLayout cfg) (w : Nat) :
    System (State cfg.numSockets) (Act cfg.numSockets) where
  init s := s = start cfg
  step s a t := step cfg raid w s a = some t

end UringDb.Remotescan.UringServer
