import UringDb.Lib.Blocks
import UringDb.Shuffle.TupleIterator

/-!
# Tuples, output buffers and the pool of buffers

`OutputBuffer` of `shufflev2.cpp`, and the buffers of a worker: those on the stack
`unused_buffers` and those that one of the pointers `fill_buffer`, `send_buffer` and
`recv_buffer` holds. A pool carries the fact that no buffer is in two places.
-/
namespace UringDb.Shuffle

def maxPartitions : Nat := 8
def maxConns : Nat := 8
def numBuffers : Nat := maxPartitions * (1 + 2 * maxConns)

def bufferSize : Nat := 2 ^ 20

/-- The tuple sizes `main` instantiates the workers with. -/
structure TupleSize where
  bytes : Nat
  supported : bytes ∈ [16, 32, 64, 128, 256, 512, 1024, 2048, 4096, 8192, 16384]

/-- `Buffer::max`, the tuples that fit into a buffer. -/
def TupleSize.perBuffer (N : TupleSize) : Nat := bufferSize / N.bytes

theorem TupleSize.bounds (N : TupleSize) : 16 ≤ N.bytes ∧ N.bytes ∣ bufferSize := by
  have all : ∀ n ∈ [16, 32, 64, 128, 256, 512, 1024, 2048, 4096, 8192, 16384],
      16 ≤ n ∧ bufferSize % n = 0 := by decide
  obtain ⟨least, divides⟩ := all N.bytes N.supported
  exact ⟨least, Nat.dvd_of_mod_eq_zero divides⟩

theorem TupleSize.pos (N : TupleSize) : 0 < N.bytes :=
  Nat.lt_of_lt_of_le (by decide) N.bounds.1

theorem TupleSize.perBuffer_mul (N : TupleSize) : N.perBuffer * N.bytes = bufferSize :=
  Nat.div_mul_cancel N.bounds.2

theorem TupleSize.perBuffer_pos (N : TupleSize) : 0 < N.perBuffer := by
  apply Nat.pos_of_ne_zero
  intro none
  have size := N.perBuffer_mul
  rw [none, Nat.zero_mul] at size
  exact absurd size (by decide)

variable {N : TupleSize}

/-- A `Tuple<N>` as it lies in memory: its key and then its value. -/
structure Tuple (N : TupleSize) where
  bytes : List UInt8
  length_eq : bytes.length = N.bytes
deriving DecidableEq

def keyOf (tuple : List UInt8) : UInt64 := loadKey (tuple.take keySize)

def Tuple.key (t : Tuple N) : UInt64 := keyOf t.bytes

/-- The tuples in a whole number of buffers, or in a part of one. -/
def tuplesIn (N : TupleSize) (bytes : List UInt8) : List (List UInt8) :=
  blocks N.bytes (bytes.length / N.bytes) bytes

def keysIn (N : TupleSize) (bytes : List UInt8) : List UInt64 := (tuplesIn N bytes).map keyOf

theorem length_tuplesIn (bytes : List UInt8) :
    (tuplesIn N bytes).length = bytes.length / N.bytes := length_blocks

theorem tuplesIn_of_full {bytes : List UInt8} (full : bytes.length = bufferSize) :
    tuplesIn N bytes = blocks N.bytes N.perBuffer bytes := by
  rw [tuplesIn, full, TupleSize.perBuffer]

/-! ### Output buffers -/

/-- `buf_idx`, the number under which a buffer is registered with the ring, is left out. -/
structure OutputBuffer (N : TupleSize) where
  idx : Nat
  data : List UInt8
  idx_le : idx ≤ N.perBuffer
  length_eq : data.length = bufferSize

namespace OutputBuffer

/-- Buffers are zeroed when they are allocated. -/
def new (N : TupleSize) : OutputBuffer N :=
  ⟨0, List.replicate bufferSize 0, Nat.zero_le _, List.length_replicate⟩

def full (buf : OutputBuffer N) : Bool := buf.idx = N.perBuffer

def clear (buf : OutputBuffer N) : OutputBuffer N :=
  { buf with idx := 0, idx_le := Nat.zero_le _ }

theorem slot_le (buf : OutputBuffer N) {i : Nat} (inside : i < N.perBuffer) :
    i * N.bytes + N.bytes ≤ buf.data.length := by
  rw [buf.length_eq, ← N.perBuffer_mul, ← Nat.succ_mul]
  exact Nat.mul_le_mul_right _ inside

/-- The `memcpy` of a tuple into the slot that `get_slot` returns. -/
def put (buf : OutputBuffer N) (t : Tuple N) : Option (OutputBuffer N) :=
  if vacant : buf.full = false then
    have inside : buf.idx < N.perBuffer :=
      Nat.lt_of_le_of_ne buf.idx_le (of_decide_eq_false vacant)
    some
      { idx := buf.idx + 1
        data := overwrite buf.data (buf.idx * N.bytes) t.bytes
        idx_le := inside
        length_eq := by
          rw [length_overwrite (by rw [t.length_eq]; exact buf.slot_le inside), buf.length_eq] }
  else none

/-- Bytes the kernel stores at an offset. -/
def store (buf : OutputBuffer N) (off : Nat) (bytes : List UInt8) : Option (OutputBuffer N) :=
  if inside : off + bytes.length ≤ bufferSize then
    some
      { buf with
        data := overwrite buf.data off bytes
        length_eq := by
          rw [length_overwrite (buf.length_eq.symm ▸ inside), buf.length_eq] }
  else none

/-- The tuples put into a buffer since it was cleared. -/
def filled (buf : OutputBuffer N) : List (List UInt8) := blocks N.bytes buf.idx buf.data

@[simp] theorem length_filled (buf : OutputBuffer N) : buf.filled.length = buf.idx :=
  length_blocks

theorem filled_clear (buf : OutputBuffer N) : buf.clear.filled = [] := rfl

theorem filled_of_full {buf : OutputBuffer N} (full : buf.idx = N.perBuffer) :
    buf.filled = tuplesIn N buf.data := by
  rw [filled, full, tuplesIn_of_full buf.length_eq]

theorem put_spec {buf after : OutputBuffer N} {t : Tuple N} (written : buf.put t = some after) :
    after.idx = buf.idx + 1 ∧ after.filled = buf.filled ++ [t.bytes] := by
  unfold put at written
  split at written
  next vacant =>
    cases written
    have inside : buf.idx * N.bytes ≤ buf.data.length := by
      rw [buf.length_eq, ← N.perBuffer_mul]
      exact Nat.mul_le_mul_right _ buf.idx_le
    exact ⟨rfl, blocks_overwrite t.length_eq inside⟩
  next => cases written

end OutputBuffer

/-! ### The pool -/

/-- Connection `c` of partition `p`. -/
abbrev ConnId := Nat × Nat

abbrev BufId := Fin numBuffers

/-- The pointers to buffers: `fill_buffer` of a target, `send_buffer` and `recv_buffer` of a
connection. -/
inductive Holder
  | fill (p : Nat)
  | send (k : ConnId)
  | recv (k : ConnId)
deriving DecidableEq

/-- A buffer is on the stack, or with a holder. -/
def Located (unused : List BufId) (held : Holder → Option BufId) :
    Option Holder → BufId → Prop
  | none, b => b ∈ unused
  | some x, b => held x = some b

structure Pool where
  unused : List BufId
  held : Holder → Option BufId
  nodup : unused.Nodup
  one : ∀ b, ∃! place, Located unused held place b

namespace Pool

variable {P Q : Pool} {x y : Holder} {b : BufId}

theorem place_unique {place place' : Option Holder} (here : Located P.unused P.held place b)
    (there : Located P.unused P.held place' b) : place = place' :=
  (P.one b).unique here there

theorem held_inj (hx : P.held x = some b) (hy : P.held y = some b) : x = y :=
  Option.some.inj (@place_unique P b (some x) (some y) hx hy)

theorem not_mem_unused (held : P.held x = some b) : b ∉ P.unused := by
  intro member
  have same := @place_unique P b none (some x) member held
  cases same

/-- If one buffer moved to a place and no other moved, each is still in one place. -/
theorem one_of_moved {unused : List BufId} {held : Holder → Option BufId} {b : BufId}
    {target : Option Holder}
    (moved : ∀ place c, Located unused held place c ↔
      if c = b then place = target else Located P.unused P.held place c) (c : BufId) :
    ∃! place, Located unused held place c := by
  by_cases same : c = b
  · refine ⟨target, (moved target c).mpr (by rw [if_pos same]), ?_⟩
    intro place located
    rw [moved, if_pos same] at located
    exact located
  · obtain ⟨place, located, unique⟩ := P.one c
    refine ⟨place, (moved place c).mpr (by rwa [if_neg same]), ?_⟩
    intro other at_other
    rw [moved, if_neg same] at at_other
    exact unique other at_other

theorem moved_pop {rest : List BufId} (top : P.unused = b :: rest) (vacant : P.held x = none)
    (place : Option Holder) (c : BufId) :
    Located rest (Function.update P.held x (some b)) place c ↔
      if c = b then place = some x else Located P.unused P.held place c := by
  have onStack : Located P.unused P.held none b := by
    rw [Located, top]
    exact List.mem_cons_self
  -- the buffer was on the stack, so no pointer held it
  have free (y : Holder) : P.held y ≠ some b := fun held => by
    have clash := @place_unique P b none (some y) onStack held
    cases clash
  have fresh : b ∉ rest := (List.nodup_cons.mp (top ▸ P.nodup)).1
  by_cases same : c = b
  · rw [if_pos same, same]
    cases place with
    | none => simp [Located, fresh]
    | some y => by_cases here : y = x <;> simp [Located, here, free]
  · rw [if_neg same]
    cases place with
    | none => simp [Located, top, same]
    | some y => by_cases here : y = x <;> simp [Located, here, vacant, Ne.symm same]

theorem moved_push (held : P.held x = some b) (place : Option Holder) (c : BufId) :
    Located (b :: P.unused) (Function.update P.held x none) place c ↔
      if c = b then place = none else Located P.unused P.held place c := by
  have only {y : Holder} (other : y ≠ x) : P.held y ≠ some b := fun too =>
    other (held_inj too held)
  by_cases same : c = b
  · rw [if_pos same, same]
    cases place with
    | none => simp [Located]
    | some y => by_cases here : y = x <;> simp [Located, here, only]
  · rw [if_neg same]
    cases place with
    | none => simp [Located, same]
    | some y => by_cases here : y = x <;> simp [Located, here, held, Ne.symm same]

theorem moved_pass (held : P.held x = some b) (vacant : P.held y = none) (place : Option Holder)
    (c : BufId) :
    Located P.unused (Function.update (Function.update P.held x none) y (some b)) place c ↔
      if c = b then place = some y else Located P.unused P.held place c := by
  have apart : x ≠ y := by
    rintro rfl
    rw [vacant] at held
    cases held
  have only {z : Holder} (other : z ≠ x) : P.held z ≠ some b := fun too =>
    other (held_inj too held)
  by_cases same : c = b
  · rw [if_pos same, same]
    cases place with
    | none => simp [Located, not_mem_unused held]
    | some z =>
      by_cases target : z = y
      · simp [Located, target]
      · by_cases source : z = x <;> simp [Located, target, source, only, apart]
  · rw [if_neg same]
    cases place with
    | none => rfl
    | some z =>
      by_cases target : z = y
      · simp [Located, target, vacant, Ne.symm same]
      · by_cases source : z = x <;> simp [Located, target, source, apart, held, Ne.symm same]

/-- A pointer that holds nothing takes the top of the stack. -/
def pop (P : Pool) (x : Holder) : Option (BufId × Pool) :=
  match top : P.unused, vacant : P.held x with
  | b :: rest, none =>
    some (b,
      { unused := rest
        held := Function.update P.held x (some b)
        nodup := (List.nodup_cons.mp (top ▸ P.nodup)).2
        one := one_of_moved (moved_pop top vacant) })
  | _, _ => none

/-- The buffer of a pointer goes back on the stack. -/
def push (P : Pool) (x : Holder) : Option Pool :=
  match held : P.held x with
  | some b =>
    if P.unused.length < numBuffers then
      some
        { unused := b :: P.unused
          held := Function.update P.held x none
          nodup := List.nodup_cons.mpr ⟨not_mem_unused held, P.nodup⟩
          one := one_of_moved (moved_push held) }
    else none
  | none => none

/-- The buffer of one pointer goes to another that holds nothing. -/
def pass (P : Pool) (x y : Holder) : Option Pool :=
  match held : P.held x, vacant : P.held y with
  | some b, none =>
    some
      { unused := P.unused
        held := Function.update (Function.update P.held x none) y (some b)
        nodup := P.nodup
        one := one_of_moved (moved_pass held vacant) }
  | _, _ => none

theorem pop_spec (popped : P.pop x = some (b, Q)) :
    P.unused = b :: Q.unused ∧ P.held x = none ∧ Q.held = Function.update P.held x (some b) := by
  unfold pop at popped
  split at popped
  next top vacant =>
    cases popped
    exact ⟨top, vacant, rfl⟩
  next => cases popped

theorem push_spec (pushed : P.push x = some Q) :
    ∃ b, P.held x = some b ∧ Q.unused = b :: P.unused ∧ Q.held = Function.update P.held x none := by
  unfold push at pushed
  split at pushed
  next b held =>
    split at pushed
    next =>
      cases pushed
      exact ⟨b, held, rfl, rfl⟩
    next => cases pushed
  next => cases pushed

theorem pass_spec (passed : P.pass x y = some Q) :
    ∃ b, P.held x = some b ∧ P.held y = none ∧ Q.unused = P.unused ∧
      Q.held = Function.update (Function.update P.held x none) y (some b) := by
  unfold pass at passed
  split at passed
  next b held vacant =>
    cases passed
    exact ⟨b, held, vacant, rfl, rfl⟩
  next => cases passed

theorem one_of_all_unused (b : BufId) :
    ∃! place, Located (List.finRange numBuffers).reverse (fun _ => none) place b := by
  refine ⟨none, List.mem_reverse.mpr (List.mem_finRange b), ?_⟩
  intro place located
  cases place with
  | none => rfl
  | some x => cases located

/-- All buffers are pushed one after another. -/
def new : Pool where
  unused := (List.finRange numBuffers).reverse
  held _ := none
  nodup := (List.reverse_perm _).nodup_iff.mpr (List.nodup_finRange _)
  one := one_of_all_unused

end Pool

end UringDb.Shuffle
