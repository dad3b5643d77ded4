import UringDb.Lib.Run
import UringDb.Shuffle.Filling

/-!
# The io_uring worker

`Worker` of `shufflev2.cpp`. An operation is prepared, submitted and completed; a connection has
at most one send, one receive and one shutdown under way, and the order in which they complete,
the bytes a receive returns and the moments at which zero-copy buffers are released are open. No
connection fails. `drain_cqe` handles any number of completions, one after another. A state with
`drain = some d` is inside `drain_cqe`, with `d` for `do_submit`.
-/
namespace UringDb.Shuffle

variable {N : TupleSize}

inductive OpState
  | idle | prepared | submitted
deriving DecidableEq

def OpState.submit : OpState → OpState
  | .prepared => .submitted
  | st => st

/-- The kernel's side of a connection. -/
structure Channel where
  send : OpState
  recv : OpState
  shutdown : OpState
  /-- The bytes that arrived for the receive under way. -/
  incoming : List UInt8
  /-- The peer's stream has ended. -/
  eof : Bool
  /-- The zero-copy buffers the kernel may still read. -/
  reading : List BufId
  /-- Notifications that were posted and not handled yet. -/
  notifs : Nat

def Channel.submit (ch : Channel) : Channel :=
  { ch with send := ch.send.submit, recv := ch.recv.submit, shutdown := ch.shutdown.submit }

def Channel.new : Channel := ⟨.idle, .idle, .idle, [], false, [], 0⟩

/-- Where `run` is. -/
inductive Pc (N : TupleSize)
  | next
  | scan (rest : List (Tuple N))
  | find (p : Nat) (rest : List (Tuple N))
  | budget (p c : Nat) (rest : List (Tuple N))
  | final
  | watch
  | tail
  | exit
deriving DecidableEq

structure Worker (N : TupleSize) where
  core : Core N
  pc : Pc N
  drain : Option Bool
  /-- What `morsel_it.next()` will return. -/
  morsels : Morsels N
  outstanding : Int
  chans : ConnId → Channel
  /-- `conns_shutdown`. -/
  shut : ConnId → Bool
  ex : ConnId → TupleIterator
  /-- The `static` in `drain_cqe`, which all workers share. -/
  numChunks : Nat

namespace Worker

def setChan (w : Worker N) (k : ConnId) (ch : Channel) : Worker N :=
  { w with chans := Function.update w.chans k ch }

def prepRecv (cfg : Config) (w : Worker N) (k : ConnId) : Option (Worker N) :=
  let prepared : Worker N :=
    { w.setChan k { w.chans k with recv := .prepared } with outstanding := w.outstanding + 1 }
  if cfg.recvZc then some prepared
  else
    match w.core.takeRecv k with
    | some core => some { prepared with core }
    | none => none

/-- The kernel may read a zero-copy buffer from here on. -/
def prepSend (cfg : Config) (w : Worker N) (k : ConnId) : Worker N :=
  let reading :=
    if cfg.sendZc then (w.core.pool.held (.send k)).toList ++ (w.chans k).reading
    else (w.chans k).reading
  { w.setChan k { w.chans k with send := .prepared, reading } with
    outstanding := w.outstanding + 1 }

def prepShutdown (w : Worker N) (k : ConnId) : Worker N :=
  { w.setChan k { w.chans k with shutdown := .prepared } with outstanding := w.outstanding + 1 }

def submit (w : Worker N) : Worker N := { w with chans := fun k => (w.chans k).submit }

/-! ### Completions -/

/-- The result of a send. -/
def onSend (w : Worker N) (k : ConnId) : Option (Worker N) :=
  if (w.chans k).send = .submitted then
    match w.core.freeSend k with
    | some core =>
      some
        { w.setChan k { w.chans k with send := .idle } with
          core := { core with bytesSent := core.bytesSent + bufferSize }
          outstanding := w.outstanding - 1 }
    | none => none
  else none

/-- The notification that a zero-copy buffer can be used again. -/
def onNotif (w : Worker N) (k : ConnId) : Option (Worker N) :=
  if 0 < (w.chans k).notifs then
    some
      { w.setChan k { w.chans k with notifs := (w.chans k).notifs - 1 } with
        outstanding := w.outstanding + 1 - 1 }
  else none

/-- A receive returns when its buffer is full or the stream has ended. -/
def onRecv (cfg : Config) (w : Worker N) (k : ConnId) : Option (Worker N) :=
  let ch := w.chans k
  if cfg.recvZc = false ∧ ch.recv = .submitted ∧ (ch.incoming.length = bufferSize ∨ ch.eof) then
    let core :=
      { w.core with
        bytesRecv := w.core.bytesRecv + ch.incoming.length
        received := w.core.received ++ [(k, ch.incoming)] }
    match core.insertRecv cfg k with
    | none => none
    | some core =>
      match core.freeRecv k with
      | none => none
      | some core =>
        let w : Worker N :=
          { w.setChan k { ch with recv := .idle, incoming := [] } with
            core
            outstanding := w.outstanding - 1 }
        if ch.incoming.length = 0 then
          some { w with core := { core with done := Function.update core.done k true } }
        else prepRecv cfg { w with core := core.grant cfg k.1, drain := some true } k
  else none

/-- The zero-copy receive returns data as long as there is some. -/
def onRecvZc (cfg : Config) (w : Worker N) (k : ConnId) (bytes : List UInt8) :
    Option (Worker N) :=
  if cfg.recvZc ∧ (w.chans k).recv = .submitted then
    let core :=
      { w.core with
        bytesRecv := w.core.bytesRecv + bytes.length
        received := w.core.received ++ [(k, bytes)]
        lastBytes := Function.update w.core.lastBytes k (w.core.lastBytes k + bytes.length) }
    if bytes = [] then
      let w : Worker N :=
        { w.setChan k { w.chans k with recv := .idle } with
          core
          outstanding := w.outstanding - 1 }
      if core.lastBytes k = 0 then
        some { w with core := { core with done := Function.update core.done k true } }
      else
        prepRecv cfg
          { w with
            core := { core with lastBytes := Function.update core.lastBytes k 0 }
            drain := some true } k
    else
      let w : Worker N := { w with core, outstanding := w.outstanding + 1 - 1 }
      let w : Worker N :=
        if cfg.useHashtable then
          let found := (w.ex k).process (UInt64.ofNat N.bytes) bytes
          { w with
            ex := Function.update w.ex k found.1
            core :=
              { core with
                recvKeys := core.recvKeys ++ found.2.map fun key => (k, key)
                recvInserts := core.recvInserts + found.2.length } }
        else w
      let chunkIdx := core.lastBytes k % bufferSize
      if cfg.useBudget ∧ w.numChunks < chunkIdx then
        some
          { w with
            core := { w.core with
              budget := Function.update core.budget k.1 (core.budget k.1 + 1) }
            numChunks := chunkIdx }
      else some w
  else none

def onIgnr (w : Worker N) (k : ConnId) : Option (Worker N) :=
  if (w.chans k).shutdown = .submitted then
    some
      { w.setChan k { w.chans k with shutdown := .idle } with
        outstanding := w.outstanding - 1 }
  else none

/-! ### The kernel -/

def deliver (cfg : Config) (w : Worker N) (k : ConnId) (bytes : List UInt8) :
    Option (Worker N) :=
  let ch := w.chans k
  if cfg.recvZc = false ∧ ch.recv = .submitted ∧ ch.eof = false then
    match w.core.storeRecv k ch.incoming.length bytes with
    | some core => some { w.setChan k { ch with incoming := ch.incoming ++ bytes } with core }
    | none => none
  else none

def endStream (w : Worker N) (k : ConnId) : Worker N :=
  w.setChan k { w.chans k with eof := true }

/-- The kernel is done with a zero-copy buffer and posts the notification. -/
def release (w : Worker N) (k : ConnId) (b : BufId) : Option (Worker N) :=
  let ch := w.chans k
  if ch.reading.contains b then
    some (w.setChan k { ch with reading := ch.reading.erase b, notifs := ch.notifs + 1 })
  else none

/-! ### The program -/

/-- The first connection of a target without a send buffer. -/
def findConn (cfg : Config) (w : Worker N) (p : Nat) : Option Nat :=
  (List.range cfg.nrConns).find? fun c => (w.core.pool.held (.send (p, c))).isNone

def handOver (cfg : Config) (w : Worker N) (p c : Nat) (rest : List (Tuple N)) :
    Option (Worker N) :=
  match w.core.hand p c with
  | none => none
  | some core =>
    let w := prepSend cfg { w with core } (p, c)
    some
      { submit { w with core := core.charge cfg p } with pc := .scan rest, drain := some false }

/-- The first part of a round of the last loop for one connection: send out what remains. -/
def flushFill (cfg : Config) (w : Worker N) (k : ConnId) : Option (Worker N) :=
  if w.core.pool.held (.fill k.1) ≠ none ∧ w.core.pool.held (.send k) = none then
    match w.core.hand k.1 k.2 with
    | some core => some (prepSend cfg { w with core } k)
    | none => none
  else some w

/-- The second part: shut down what has sent everything. -/
def flushShut (cfg : Config) (w : Worker N) (k : ConnId) : Worker N :=
  if w.core.pool.held (.send k) = none ∧ w.shut k = false then
    let w := if cfg.recvZc then w else prepShutdown w k
    { w with shut := Function.update w.shut k true }
  else w

/-- A round of the last loop, and whether all connections are done. -/
def finalPass (cfg : Config) : Worker N → List ConnId → Option (Worker N × Bool)
  | w, [] => some (w, true)
  | w, k :: conns =>
    match flushFill cfg w k with
    | none => none
    | some w =>
      let ready := w.core.pool.held (.send k) = none ∧ w.core.done k = true
      match finalPass cfg (flushShut cfg w k) conns with
      | none => none
      | some (w, done) => some (w, decide ready && done)

/-- The next step of `run`. -/
def run (cfg : Config) (w : Worker N) : Option (Worker N) :=
  match w.pc with
  | .next =>
    match w.morsels.next with
    | none => some { w with pc := .final }
    | some (m, morsels) => some { w with pc := .scan m, morsels }
  | .scan [] => some { w with pc := .next, drain := some false }
  | .scan (t :: rest) =>
    let p := partitionOf cfg t
    if p ≠ cfg.myId then
      match w.core.fill p t with
      | none => none
      | some core =>
        if core.fillFull p then some { w with core, pc := .find p rest }
        else some { w with core, pc := .scan rest }
    else some { w with core := w.core.scanLocal cfg t, pc := .scan rest }
  | .find p rest =>
    match findConn cfg w p with
    | none => some { w with drain := some false }
    | some c =>
      if cfg.useBudget then some { w with pc := .budget p c rest }
      else handOver cfg w p c rest
  | .budget p c rest =>
    if w.core.budget p = 0 then some { w with drain := some false }
    else handOver cfg w p c rest
  | .final =>
    match finalPass cfg w (remoteConns cfg) with
    | none => none
    | some (w, true) =>
      if cfg.recvZc || (remoteConns cfg).all w.shut then some { w with pc := .tail } else none
    | some (w, false) => some { submit w with pc := .watch, drain := some false }
  | .watch => some { w with pc := .final }
  | .tail =>
    if 0 < w.outstanding ∧ cfg.recvZc = false then
      some { submit w with drain := some false }
    else some { w with pc := .exit }
  | .exit => none

end Worker

/-! ### Steps and runs -/

inductive Action
  /-- The program's next step. -/
  | run
  /-- A completion is handled. -/
  | send (k : ConnId)
  | notif (k : ConnId)
  | recv (k : ConnId)
  | recvZc (k : ConnId) (bytes : List UInt8)
  | ignr (k : ConnId)
  /-- `drain_cqe` ends. -/
  | endDrain
  /-- The kernel goes on. -/
  | deliver (k : ConnId) (bytes : List UInt8)
  | endStream (k : ConnId)
  | release (k : ConnId) (b : BufId)
  /-- With `recv_zc`, nothing was sent or received for a second. -/
  | inactive
  /-- Another worker changes the shared counter. -/
  | chunks (n : Nat)
deriving DecidableEq

namespace Worker

def handle (cfg : Config) (w : Worker N) : Action → Option (Worker N)
  | .send k => w.onSend k
  | .notif k => w.onNotif k
  | .recv k => w.onRecv cfg k
  | .recvZc k bytes => w.onRecvZc cfg k bytes
  | .ignr k => w.onIgnr k
  | _ => none

def step (cfg : Config) (w : Worker N) (a : Action) : Option (Worker N) :=
  match a with
  | .deliver k bytes => w.deliver cfg k bytes
  | .endStream k => some (w.endStream k)
  | .release k b => w.release k b
  | .chunks n => some { w with numChunks := n }
  | .run => if w.drain = none then w.run cfg else none
  | .inactive =>
    if w.drain = none ∧ cfg.recvZc ∧ w.pc = .watch then some { w with pc := .tail } else none
  | .endDrain =>
    match w.drain with
    | none => none
    | some doSubmit => some { (if doSubmit then submit w else w) with drain := none }
  | a => if w.drain = none then none else w.handle cfg a

def prepRecvs (cfg : Config) : Worker N → List ConnId → Option (Worker N)
  | w, [] => some w
  | w, k :: conns =>
    match prepRecv cfg w k with
    | none => none
    | some w => prepRecvs cfg w conns

def init (cfg : Config) (morsels : Morsels N) (done : ConnId → Bool) : Option (Worker N) :=
  let w : Worker N :=
    { core := Core.new N done
      pc := .next
      drain := none
      morsels
      outstanding := 0
      chans _ := Channel.new
      shut _ := false
      ex _ := TupleIterator.new 0
      numChunks := 0 }
  (prepRecvs cfg w (remoteConns cfg)).map submit

end Worker

def workerSystem (cfg : Config) (morsels : Morsels N) : System (Worker N) Action where
  init w := ∃ done, Worker.init cfg morsels done = some w
  step w a w' := w.step cfg a = some w'

end UringDb.Shuffle
