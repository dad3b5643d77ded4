import UringDb.Lib.Spans
import UringDb.Shuffle.Buffers

/-!
# What the two workers share

`Worker` and `EpollWorker` of `shufflev2.cpp` have the same targets, connections and buffers and
do the same to them: tuples of a scan are copied into the fill buffer of their partition, a fill
buffer is handed to a connection, and received buffers go into the hash table. The fields of
`part_to_target[p]` and of its `conns[c]` are functions of `p` and of `(p, c)`. Besides the
program's own state, a state records what was scanned, handed over, received and inserted.
-/
namespace UringDb.Shuffle

/-- The options that the logic of the workers depends on. -/
structure Config where
  partitions : Nat
  myId : Nat
  nrConns : Nat
  useBudget : Bool
  useHashtable : Bool
  sendZc : Bool
  recvZc : Bool
  myId_lt : myId < partitions

def Config.Remote (cfg : Config) (p : Nat) : Prop := p < cfg.partitions ∧ p ≠ cfg.myId

instance (cfg : Config) (p : Nat) : Decidable (cfg.Remote p) :=
  inferInstanceAs (Decidable (_ ∧ _))

def remoteParts (cfg : Config) : List Nat :=
  (List.range cfg.partitions).filter (· ≠ cfg.myId)

def remoteConns (cfg : Config) : List ConnId :=
  (remoteParts cfg).flatMap fun p => (List.range cfg.nrConns).map fun c => (p, c)

variable {N : TupleSize}

def partitionOf (cfg : Config) (t : Tuple N) : Nat := t.key.toNat % cfg.partitions

/-! ### Morsels -/

def morselSize : Nat := 2 ^ 27

def TupleSize.perMorsel (N : TupleSize) : Nat := morselSize / N.bytes

/-- `offset.fetch_add(tuples_per_morsel)`. -/
def TupleSize.fetchAdd (N : TupleSize) (offset : Nat) : Nat := (offset + N.perMorsel) % 2 ^ 64

/-- The rest of `next`: the numbers of the tuples from `start` on, of `n`. -/
def morselSpan (N : TupleSize) (n start : Nat) : Span :=
  if n ≤ start then ⟨0, 0⟩
  else ⟨start, min ((start + N.perMorsel) % 2 ^ 64) n - start⟩

def slice (tuples : List (Tuple N)) (span : Span) : List (Tuple N) :=
  (tuples.drop span.start).take span.len

structure MorselIterator (N : TupleSize) where
  tuples : List (Tuple N)
  offset : Nat

def MorselIterator.next (it : MorselIterator N) : List (Tuple N) × MorselIterator N :=
  (slice it.tuples (morselSpan N it.tuples.length it.offset),
    { it with offset := N.fetchAdd it.offset })

/-- The morsels of one worker, up to the empty one that ends its scan. -/
structure Morsels (N : TupleSize) where
  list : List (List (Tuple N))
  nonempty : [] ∉ list

/-- The next morsel, unless it is the empty one. -/
def Morsels.next (ms : Morsels N) : Option (List (Tuple N) × Morsels N) :=
  match eq : ms.list with
  | [] => none
  | m :: rest => some (m, ⟨rest, fun member => ms.nonempty (eq ▸ List.mem_cons_of_mem m member)⟩)

theorem Morsels.list_of_next {ms later : Morsels N} {m : List (Tuple N)}
    (next : ms.next = some (m, later)) : ms.list = m :: later.list := by
  unfold Morsels.next at next
  split at next <;> cases next
  next eq => exact eq

theorem Morsels.list_of_next_none {ms : Morsels N} (next : ms.next = none) : ms.list = [] := by
  unfold Morsels.next at next
  split at next
  next eq => exact eq
  next => cases next

/-- The morsels worker `w` gets if the workers call `next` in the given order. -/
def deal (w : Nat) : MorselIterator N → List Nat → Morsels N
  | _, [] => ⟨[], List.not_mem_nil⟩
  | it, v :: order =>
    let rest := deal w it.next.2 order
    if fresh : v = w ∧ it.next.1 ≠ [] then
      ⟨it.next.1 :: rest.list, by
        rw [List.mem_cons, not_or]
        exact ⟨Ne.symm fresh.2, rest.nonempty⟩⟩
    else rest

/-- The tuples worker `w` scans. -/
def scanOf (w : Nat) (it : MorselIterator N) (order : List Nat) : List (Tuple N) :=
  (deal w it order).list.flatten

/-! ### The state -/

structure Core (N : TupleSize) where
  pool : Pool
  bufs : BufId → OutputBuffer N
  budget : Nat → Int
  done : ConnId → Bool
  lastBytes : ConnId → Nat
  bytesSent : Nat
  bytesRecv : Nat
  recvInserts : Nat
  /-- The tuples the scan loop went through. -/
  scanned : List (Tuple N)
  /-- The buffers handed to the connections of a partition, each with its connection. -/
  handed : Nat → List (Nat × OutputBuffer N)
  /-- What each receive returned, by connection. -/
  received : List (ConnId × List UInt8)
  /-- The keys passed to `insert_batch` by the scan. -/
  scanKeys : List UInt64
  /-- The keys passed to `insert_batch` from received data, by connection. -/
  recvKeys : List (ConnId × UInt64)
  /-- How many buffers were received from a partition. -/
  buffersIn : Nat → Nat

/-- The state the constructors leave; `Worker` does not initialise `done`. -/
def Core.new (N : TupleSize) (done : ConnId → Bool) : Core N where
  pool := Pool.new
  bufs _ := OutputBuffer.new N
  budget _ := 2
  done := done
  lastBytes _ := 0
  bytesSent := 0
  bytesRecv := 0
  recvInserts := 0
  scanned := []
  handed _ := []
  received := []
  scanKeys := []
  recvKeys := []
  buffersIn _ := 0

namespace Core

/-- A tuple of the worker's own partition. -/
def scanLocal (cfg : Config) (s : Core N) (t : Tuple N) : Core N :=
  { s with
    scanned := s.scanned ++ [t]
    scanKeys := if cfg.useHashtable then s.scanKeys ++ [t.key] else s.scanKeys }

/-- Get a cleared fill buffer if the target has none. -/
def openFill (s : Core N) (p : Nat) : Option (Core N) :=
  match s.pool.held (.fill p) with
  | some _ => some s
  | none =>
    match s.pool.pop (.fill p) with
    | some (b, pool) =>
      some { s with pool, bufs := Function.update s.bufs b (s.bufs b).clear }
    | none => none

/-- Copy a tuple into the fill buffer of its partition. -/
def fill (s : Core N) (p : Nat) (t : Tuple N) : Option (Core N) :=
  match s.openFill p with
  | none => none
  | some s =>
    match s.pool.held (.fill p) with
    | none => none
    | some b =>
      match (s.bufs b).put t with
      | none => none
      | some buf =>
        some { s with bufs := Function.update s.bufs b buf, scanned := s.scanned ++ [t] }

def fillFull (s : Core N) (p : Nat) : Bool :=
  match s.pool.held (.fill p) with
  | some b => (s.bufs b).full
  | none => false

/-- Swap the fill buffer with the empty send buffer of a connection. -/
def hand (s : Core N) (p c : Nat) : Option (Core N) :=
  match s.pool.held (.fill p), s.pool.pass (.fill p) (.send (p, c)) with
  | some b, some pool =>
    some { s with pool, handed := Function.update s.handed p (s.handed p ++ [(c, s.bufs b)]) }
  | _, _ => none

def freeSend (s : Core N) (k : ConnId) : Option (Core N) :=
  match s.pool.push (.send k) with
  | some pool => some { s with pool }
  | none => none

def takeRecv (s : Core N) (k : ConnId) : Option (Core N) :=
  match s.pool.pop (.recv k) with
  | some (_, pool) => some { s with pool }
  | none => none

def freeRecv (s : Core N) (k : ConnId) : Option (Core N) :=
  match s.pool.push (.recv k) with
  | some pool => some { s with pool }
  | none => none

/-- The kernel stores received bytes in the receive buffer. -/
def storeRecv (s : Core N) (k : ConnId) (off : Nat) (bytes : List UInt8) : Option (Core N) :=
  match s.pool.held (.recv k) with
  | none => none
  | some b =>
    match (s.bufs b).store off bytes with
    | none => none
    | some buf => some { s with bufs := Function.update s.bufs b buf }

/-- Insert every tuple of the receive buffer. -/
def insertRecv (cfg : Config) (s : Core N) (k : ConnId) : Option (Core N) :=
  match s.pool.held (.recv k) with
  | none => none
  | some b =>
    if cfg.useHashtable then
      some
        { s with
          recvKeys := s.recvKeys ++ (keysIn N (s.bufs b).data).map fun key => (k, key)
          recvInserts := s.recvInserts + N.perBuffer }
    else some s

/-- A whole buffer came from the target of a connection. -/
def grant (cfg : Config) (s : Core N) (p : Nat) : Core N :=
  { s with
    budget := if cfg.useBudget then Function.update s.budget p (s.budget p + 1) else s.budget
    buffersIn := Function.update s.buffersIn p (s.buffersIn p + 1) }

/-- A buffer was handed to a connection of the target. -/
def charge (cfg : Config) (s : Core N) (p : Nat) : Core N :=
  { s with
    budget := if cfg.useBudget then Function.update s.budget p (s.budget p - 1) else s.budget }

/-! ### What the operations did -/

variable {cfg : Config} {s t : Core N} {k : ConnId}

theorem freeSend_inv (freed : s.freeSend k = some t) :
    ∃ b pool, s.pool.held (.send k) = some b ∧
      pool.held = Function.update s.pool.held (.send k) none ∧ t = { s with pool } := by
  unfold freeSend at freed
  split at freed
  next pool pushed =>
    obtain ⟨b, held, -, after⟩ := Pool.push_spec pushed
    exact ⟨b, pool, held, after, (Option.some.inj freed).symm⟩
  next => cases freed

theorem freeRecv_inv (freed : s.freeRecv k = some t) :
    ∃ b pool, s.pool.held (.recv k) = some b ∧
      pool.held = Function.update s.pool.held (.recv k) none ∧ t = { s with pool } := by
  unfold freeRecv at freed
  split at freed
  next pool pushed =>
    obtain ⟨b, held, -, after⟩ := Pool.push_spec pushed
    exact ⟨b, pool, held, after, (Option.some.inj freed).symm⟩
  next => cases freed

theorem takeRecv_inv (taken : s.takeRecv k = some t) :
    ∃ b pool, s.pool.held (.recv k) = none ∧
      pool.held = Function.update s.pool.held (.recv k) (some b) ∧ t = { s with pool } := by
  unfold takeRecv at taken
  split at taken
  next b pool popped =>
    obtain ⟨-, vacant, after⟩ := Pool.pop_spec popped
    exact ⟨b, pool, vacant, after, (Option.some.inj taken).symm⟩
  next => cases taken

theorem storeRecv_inv {off : Nat} {bytes : List UInt8}
    (stored : s.storeRecv k off bytes = some t) :
    ∃ b buf, s.pool.held (.recv k) = some b ∧ (s.bufs b).store off bytes = some buf ∧
      t = { s with bufs := Function.update s.bufs b buf } := by
  unfold storeRecv at stored
  split at stored
  next => cases stored
  next b receives =>
    split at stored
    next => cases stored
    next buf written => exact ⟨b, buf, receives, written, (Option.some.inj stored).symm⟩

theorem insertRecv_inv (inserted : s.insertRecv cfg k = some t) :
    ∃ b, s.pool.held (.recv k) = some b ∧
      t = if cfg.useHashtable then
          { s with
            recvKeys := s.recvKeys ++ (keysIn N (s.bufs b).data).map fun key => (k, key)
            recvInserts := s.recvInserts + N.perBuffer }
        else s := by
  unfold insertRecv at inserted
  split at inserted
  next => cases inserted
  next b receives =>
    refine ⟨b, receives, ?_⟩
    split at inserted
    next use => rw [if_pos use, Option.some.inj inserted]
    next off => rw [if_neg off, Option.some.inj inserted]

end Core

end UringDb.Shuffle
