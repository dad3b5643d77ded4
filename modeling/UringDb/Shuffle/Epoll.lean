import UringDb.Lib.Run
import UringDb.Shuffle.Core

/-!
# The epoll worker

`EpollWorker` of `shufflev2.cpp`. What `send` and `recv` return, which events `epoll_wait`
reports and when the error queue tells that a zero-copy buffer was read are open. No connection
fails. `process_events` handles any number of events, one after another; a state with
`inner = some i` is inside it. The mask of a connection only ever differs in `EPOLLOUT`.
-/
namespace UringDb.Shuffle

variable {N : TupleSize}

/-- What a connection has besides the fields of `Core`. -/
structure Socket where
  sendOff : Nat
  recvOff : Nat
  zcEnabled : Bool
  outArmed : Bool
  wrShutdown : Bool
  peerRdClosed : Bool
  /-- The peer's end of stream has arrived. -/
  fin : Bool
  /-- `recv` has returned the end of the stream. -/
  ended : Bool
  /-- The buffers of zero-copy sends that the error queue has not reported yet. -/
  reading : List BufId

def Socket.new (zcEnabled : Bool) : Socket :=
  ⟨0, 0, zcEnabled, false, false, false, false, false, []⟩

/-- The bits of an event that have an effect. -/
structure Events where
  epollin : Bool
  epollout : Bool
  epollrdhup : Bool
  epollhup : Bool
deriving DecidableEq

/-- Where `process_events` is. -/
inductive Inner
  | idle
  | event (k : ConnId) (ev : Events)
  | receiving (k : ConnId) (ev : Events)
  | received (k : ConnId) (ev : Events)
  | sending (k : ConnId) (ev : Events)
  | sent (k : ConnId) (ev : Events)
deriving DecidableEq

/-- Where `run` goes on behind `send_progress`. -/
inductive After (N : TupleSize)
  | scan (p : Nat) (rest : List (Tuple N))
  | flush (parts : List Nat)
  | drain (conns : List ConnId)
deriving DecidableEq

/-- Where `run` is; the loops behind the scan have the partitions and connections still to come. -/
inductive EpollPc (N : TupleSize)
  | next
  | scan (rest : List (Tuple N))
  | find (p : Nat) (rest : List (Tuple N))
  | budget (p c : Nat) (rest : List (Tuple N))
  | send (k : ConnId) (after : After N)
  | charge (p : Nat) (rest : List (Tuple N))
  | flush (parts : List Nat)
  | drain (conns : List ConnId)
  | waitDone (k : ConnId) (conns : List ConnId)
  | wait
  | watch
  | exit
deriving DecidableEq

structure EpollWorker (N : TupleSize) where
  core : Core N
  pc : EpollPc N
  inner : Option Inner
  morsels : Morsels N
  socks : ConnId → Socket

namespace EpollWorker

def setSock (w : EpollWorker N) (k : ConnId) (sock : Socket) : EpollWorker N :=
  { w with socks := Function.update w.socks k sock }

def setDone (w : EpollWorker N) (k : ConnId) : EpollWorker N :=
  { w with core := { w.core with done := Function.update w.core.done k true } }

/-- The peer has closed its side. -/
def peerClosed (w : EpollWorker N) (k : ConnId) : EpollWorker N :=
  let sock := w.socks k
  let w := w.setSock k { sock with peerRdClosed := true }
  if sock.wrShutdown then w.setDone k else w

/-! ### Sending -/

/-- The connection whose `send_progress` is running. -/
def sendConn (w : EpollWorker N) : Option ConnId :=
  match w.inner, w.pc with
  | some (.sending k _), _ => some k
  | none, .send k _ => some k
  | _, _ => none

/-- `send_progress` returns. -/
def leaveSend (w : EpollWorker N) : EpollWorker N :=
  match w.inner, w.pc with
  | some (.sending k ev), _ => { w with inner := some (.sent k ev) }
  | none, .send _ (.scan p rest) => { w with pc := .charge p rest, inner := some .idle }
  | none, .send _ (.flush parts) => { w with pc := .flush parts }
  | none, .send _ (.drain conns) => { w with pc := .drain conns, inner := some .idle }
  | _, _ => w

/-- `send` has taken `n` bytes. -/
def onSent (cfg : Config) (w : EpollWorker N) (n : Nat) : Option (EpollWorker N) :=
  match w.sendConn with
  | none => none
  | some k =>
    let sock := w.socks k
    match w.core.pool.held (.send k) with
    | none => none
    | some b =>
      if 0 < n ∧ sock.sendOff + n ≤ bufferSize then
        let reading := if cfg.sendZc && sock.zcEnabled then b :: sock.reading else sock.reading
        some
          { w.setSock k { sock with sendOff := sock.sendOff + n, reading } with
            core := { w.core with bytesSent := w.core.bytesSent + n } }
      else none

/-- `send` would block. -/
def onSendAgain (w : EpollWorker N) : Option (EpollWorker N) :=
  match w.sendConn with
  | none => none
  | some k =>
    let sock := w.socks k
    if sock.sendOff < bufferSize then
      some (leaveSend (w.setSock k { sock with outArmed := true }))
    else none

/-- All of the buffer is queued. -/
def finishSend (w : EpollWorker N) (k : ConnId) : Option (EpollWorker N) :=
  let sock := w.socks k
  if sock.sendOff < bufferSize then none
  else
    match w.core.freeSend k with
    | none => none
    | some core =>
      some (leaveSend { w.setSock k { sock with sendOff := 0, outArmed := false } with core })

/-! ### Receiving -/

/-- The beginning of `recv_progress`. -/
def enterRecv (w : EpollWorker N) (k : ConnId) (ev : Events) : Option (EpollWorker N) :=
  match w.core.pool.held (.recv k) with
  | some _ => some { w with inner := some (.receiving k ev) }
  | none =>
    match w.core.takeRecv k with
    | none => none
    | some core =>
      some
        { w.setSock k { w.socks k with recvOff := 0 } with
          core
          inner := some (.receiving k ev) }

/-- Process a receive buffer that is full, and take a new one. -/
def finishRecv (cfg : Config) (w : EpollWorker N) (k : ConnId) : Option (EpollWorker N) :=
  match w.core.insertRecv cfg k with
  | none => none
  | some core =>
    match core.freeRecv k with
    | none => none
    | some core =>
      match (core.grant cfg k.1).takeRecv k with
      | none => none
      | some core => some { w.setSock k { w.socks k with recvOff := 0 } with core }

/-- `recv` has returned bytes. -/
def onRecvd (cfg : Config) (w : EpollWorker N) (bytes : List UInt8) : Option (EpollWorker N) :=
  match w.inner with
  | some (.receiving k _) =>
    let sock := w.socks k
    if bytes ≠ [] ∧ sock.ended = false then
      match w.core.storeRecv k sock.recvOff bytes with
      | none => none
      | some core =>
        let core :=
          { core with
            lastBytes := Function.update core.lastBytes k (core.lastBytes k + bytes.length)
            bytesRecv := core.bytesRecv + bytes.length
            received := core.received ++ [(k, bytes)] }
        let w : EpollWorker N :=
          { w.setSock k { sock with recvOff := sock.recvOff + bytes.length } with core }
        if sock.recvOff + bytes.length = bufferSize then finishRecv cfg w k else some w
    else none
  | _ => none

/-- `recv` has returned the end of the stream. -/
def onRecvEof (w : EpollWorker N) : Option (EpollWorker N) :=
  match w.inner with
  | some (.receiving k ev) =>
    let sock := w.socks k
    if sock.fin then
      let w := (w.setSock k { sock with ended := true }).peerClosed k
      some { w with inner := some (.received k ev) }
    else none
  | _ => none

/-- `recv` would block. -/
def onRecvAgain (w : EpollWorker N) : Option (EpollWorker N) :=
  match w.inner with
  | some (.receiving k ev) => some { w with inner := some (.received k ev) }
  | _ => none

/-! ### Events -/

/-- The next event of `epoll_wait`. Without failing connections, a hang-up means that both
directions were closed. -/
def onEvent (w : EpollWorker N) (k : ConnId) (ev : Events) : Option (EpollWorker N) :=
  let sock := w.socks k
  if w.inner = some .idle ∧ (ev.epollout → sock.outArmed) ∧ (ev.epollrdhup → sock.fin) ∧
      (ev.epollhup → sock.fin ∧ sock.wrShutdown) then
    some { w with inner := some (.event k ev) }
  else none

/-- The end of an event. -/
def finishEvent (w : EpollWorker N) (k : ConnId) (ev : Events) : EpollWorker N :=
  let w := if ev.epollrdhup then w.peerClosed k else w
  let w := if ev.epollhup then w.setDone k else w
  { w with inner := some .idle }

/-- The next step of `process_events`. -/
def runInner (w : EpollWorker N) : Inner → Option (EpollWorker N)
  | .idle => none
  | .event k ev =>
    if ev.epollin && !w.core.done k then enterRecv w k ev
    else some { w with inner := some (.received k ev) }
  | .receiving _ _ => none
  | .received k ev =>
    if ev.epollout && (w.core.pool.held (.send k)).isSome && !w.core.done k then
      some { w with inner := some (.sending k ev) }
    else some { w with inner := some (.sent k ev) }
  | .sending k _ => finishSend w k
  | .sent k ev => some (finishEvent w k ev)

/-! ### The program -/

/-- `process_events` is called. -/
def poll (w : EpollWorker N) : EpollWorker N := { w with inner := some .idle }

/-- The first connection of a target that can take a buffer. -/
def findConn (cfg : Config) (w : EpollWorker N) (p : Nat) : Option Nat :=
  (List.range cfg.nrConns).find? fun c =>
    (w.core.pool.held (.send (p, c))).isNone && !w.core.done (p, c)

def handOver (w : EpollWorker N) (p c : Nat) (after : After N) : Option (EpollWorker N) :=
  match w.core.hand p c with
  | some core => some { w with core, pc := .send (p, c) after }
  | none => none

/-- Half-close a connection that has sent everything. -/
def halfClose (w : EpollWorker N) (k : ConnId) : EpollWorker N :=
  let sock := w.socks k
  if sock.wrShutdown then w
  else
    let w := w.setSock k { sock with wrShutdown := true, outArmed := false }
    if sock.peerRdClosed then w.setDone k else w

/-- The next step of `run`. -/
def runOuter (cfg : Config) (w : EpollWorker N) : Option (EpollWorker N) :=
  match w.pc with
  | .next =>
    match w.morsels.next with
    | none => some { w with pc := .flush (remoteParts cfg) }
    | some (m, morsels) => some { w with pc := .scan m, morsels }
  | .scan [] => some (poll { w with pc := .next })
  | .scan (t :: rest) =>
    let p := partitionOf cfg t
    if p ≠ cfg.myId then
      match w.core.fill p t with
      | none => none
      | some core =>
        if core.fillFull p then some { w with core, pc := .find p rest }
        else some { w with core, pc := .scan rest }
    else some { w with core := w.core.scanLocal cfg t, pc := .scan rest }
  | .find p rest =>
    match findConn cfg w p with
    | none => some (poll w)
    | some c =>
      if cfg.useBudget then some { w with pc := .budget p c rest }
      else handOver w p c (.scan p rest)
  | .budget p c rest =>
    if w.core.budget p = 0 then some (poll w) else handOver w p c (.scan p rest)
  | .send k _ => finishSend w k
  | .charge p rest => some { w with core := w.core.charge cfg p, pc := .scan rest }
  | .flush [] => some { w with pc := .drain (remoteConns cfg) }
  | .flush (p :: parts) =>
    match w.core.pool.held (.fill p), findConn cfg w p with
    | some _, some c => handOver w p c (.flush parts)
    | _, _ => some { w with pc := .flush parts }
  | .drain [] => some { w with pc := .wait }
  | .drain (k :: conns) =>
    if (w.core.pool.held (.send k)).isSome && !w.core.done k then
      some { w with pc := .send k (.drain (k :: conns)) }
    else some { w.halfClose k with pc := .waitDone k conns }
  | .waitDone k conns =>
    if w.core.done k then some { w with pc := .drain conns } else some (poll w)
  | .wait =>
    if (remoteConns cfg).all fun k => w.core.done k && (w.core.pool.held (.send k)).isNone then
      some { w with pc := .exit }
    else some (poll { w with pc := .watch })
  | .watch => some { w with pc := .wait }
  | .exit => none

end EpollWorker

/-! ### Steps and runs -/

inductive EpollAction
  /-- The program's next step. -/
  | run
  /-- What `send` returns. -/
  | sent (n : Nat)
  | sendAgain
  /-- What `recv` returns. -/
  | recvd (bytes : List UInt8)
  | recvEof
  | recvAgain
  /-- What `epoll_wait` reports. -/
  | event (k : ConnId) (ev : Events)
  | endEvents
  /-- The peer's end of stream arrives. -/
  | fin (k : ConnId)
  /-- The error queue reports that a zero-copy send was read. -/
  | release (k : ConnId) (b : BufId)
  /-- Nothing was sent or received for a second. -/
  | inactive
deriving DecidableEq

namespace EpollWorker

def step (cfg : Config) (w : EpollWorker N) : EpollAction → Option (EpollWorker N)
  | .run =>
    match w.inner with
    | some i => w.runInner i
    | none => w.runOuter cfg
  | .sent n => w.onSent cfg n
  | .sendAgain => w.onSendAgain
  | .recvd bytes => w.onRecvd cfg bytes
  | .recvEof => w.onRecvEof
  | .recvAgain => w.onRecvAgain
  | .event k ev => w.onEvent k ev
  | .endEvents => if w.inner = some .idle then some { w with inner := none } else none
  | .fin k => some (w.setSock k { w.socks k with fin := true })
  | .release k b =>
    let sock := w.socks k
    if sock.reading.contains b then
      some (w.setSock k { sock with reading := sock.reading.erase b })
    else none
  | .inactive => if w.inner = none ∧ w.pc = .watch then some { w with pc := .exit } else none

def init (morsels : Morsels N) (zcEnabled : ConnId → Bool) : EpollWorker N where
  core := Core.new N fun _ => false
  pc := .next
  inner := none
  morsels
  socks k := Socket.new (zcEnabled k)

end EpollWorker

/-- `init` refuses `recv_zc`, and enables zero-copy sends where the socket option can be set. -/
def epollSystem (cfg : Config) (morsels : Morsels N) : System (EpollWorker N) EpollAction where
  init w := cfg.recvZc = false ∧ ∃ zcEnabled, w = EpollWorker.init morsels zcEnabled ∧
    (cfg.sendZc = false → ∀ k, zcEnabled k = false)
  step w a w' := w.step cfg a = some w'

end UringDb.Shuffle
