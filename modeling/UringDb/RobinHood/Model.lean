import UringDb.Lib.Ring

/-!
# The robin-hood map of the buffer manager

`RHBSU64Map` of `buffer_mgr/rh_backshift_u64_map.hpp`, an open-addressed table with a control byte
per slot: zero for an empty slot, else one more than the distance of the slot from the home of its
key. The capacity is a power of two, and the hash is a parameter. A loop without a bound of its own
gets fuel, and `none` says that the fuel was not enough.
-/
namespace UringDb.RobinHood

variable {V : Type}

def emptyKey : UInt64 := 0xFFFFFFFFFFFFFFFF

structure Entry (V : Type) where
  key : UInt64
  val : V
deriving DecidableEq

structure RHBSU64Map (V : Type) where
  /-- The binary logarithm of the capacity. -/
  bits : Nat
  entries : Nat → Entry V
  ctrl : Nat → Nat
  sz : Nat

namespace RHBSU64Map

def n (m : RHBSU64Map V) : Nat := 2 ^ m.bits

def mask (m : RHBSU64Map V) : Nat := m.n - 1

def index (m : RHBSU64Map V) (h : UInt64) : Nat := h.toNat &&& m.mask

def next (m : RHBSU64Map V) (i : Nat) : Nat := (i + 1) &&& m.mask

def new [Inhabited V] (bits : Nat) : RHBSU64Map V where
  bits := bits
  entries _ := ⟨emptyKey, default⟩
  ctrl _ := 0
  sz := 0

/-- Write an entry and its control byte. -/
def put (m : RHBSU64Map V) (i : Nat) (e : Entry V) (c : Nat) : RHBSU64Map V :=
  { m with entries := Function.update m.entries i e, ctrl := Function.update m.ctrl i c }

/-! ### Insertion -/

/-- The entry `insert` carries, with its `dist`. -/
structure Hand (V : Type) where
  entry : Entry V
  dist : Nat

/-- The same entry one slot further. -/
def Hand.further (hand : Hand V) : Hand V := { hand with dist := hand.dist + 1 }

/-- The robin-hood swap: a slot whose entry is closer to its home is taken from it. -/
def exchange (m : RHBSU64Map V) (i : Nat) (hand : Hand V) : RHBSU64Map V × Hand V :=
  if m.ctrl i < hand.dist then (m.put i hand.entry hand.dist, ⟨m.entries i, m.ctrl i⟩)
  else (m, hand)

/-- How `insert` ends; the last two are its failed `ensure`s. -/
inductive Outcome
  | inserted
  | updated
  | overflow
  | refused
deriving DecidableEq

def insertLoop : Nat → RHBSU64Map V → Nat → Hand V → Option (Outcome × RHBSU64Map V)
  | 0, _, _, _ => none
  | fuel + 1, m, i, hand =>
    if m.ctrl i = 0 then
      some (.inserted, { m.put i hand.entry hand.dist with sz := m.sz + 1 })
    else if (m.entries i).key = hand.entry.key then
      some (.updated, { m with entries := Function.update m.entries i hand.entry })
    else
      let (m, hand) := m.exchange i hand
      if hand.further.dist = 255 then some (.overflow, m)
      else insertLoop fuel m (m.next i) hand.further

/-- In every turn but the last the control bytes and `dist` grow by one in total. -/
def insertFuel (m : RHBSU64Map V) : Nat := 255 * (m.n + 1)

def hash (x : UInt64) : UInt64 :=
  let x := x + 0x9e3779b97f4a7c15
  let x := (x ^^^ (x >>> 30)) * 0xbf58476d1ce4e5b9
  let x := (x ^^^ (x >>> 27)) * 0x94d049bb133111eb
  x ^^^ (x >>> 31)

section

variable (hash : UInt64 → UInt64)

def home (m : RHBSU64Map V) (k : UInt64) : Nat := m.index (hash k)

/-- `insert`; the table is also what it leaves behind when it fails. -/
def insert (m : RHBSU64Map V) (k : UInt64) (v : V) : Option (Outcome × RHBSU64Map V) :=
  if k = emptyKey then some (.refused, m)
  else insertLoop m.insertFuel m (m.home hash k) ⟨⟨k, v⟩, 1⟩

/-! ### Lookup and deletion -/

/-- The loop of `find` and `erase`: the slot of the key. -/
def locate (m : RHBSU64Map V) (k : UInt64) : Nat → Nat → Nat → Option Nat
  | 0, _, _ => none
  | fuel + 1, i, dist =>
    if m.ctrl i = 0 then none
    else if m.ctrl i < dist then none
    else if (m.entries i).key = k then some i
    else if dist + 1 = 255 then none
    else locate m k fuel (m.next i) (dist + 1)

def slotOf (m : RHBSU64Map V) (k : UInt64) : Option Nat :=
  if k = emptyKey then none else m.locate k 254 (m.home hash k) 1

def find (m : RHBSU64Map V) (k : UInt64) : Option V :=
  (m.slotOf hash k).map fun i => (m.entries i).val

/-- `backshift_delete` from the head of its loop. -/
def backshiftDelete : Nat → RHBSU64Map V → Nat → Nat → Option (RHBSU64Map V)
  | 0, _, _, _ => none
  | fuel + 1, m, j, k =>
    if m.ctrl k ≤ 1 then
      some (m.put j { m.entries j with key := emptyKey } 0)
    else backshiftDelete fuel (m.put j (m.entries k) (m.ctrl k - 1)) k (m.next k)

def erase (m : RHBSU64Map V) (k : UInt64) : Option (Bool × RHBSU64Map V) :=
  match m.slotOf hash k with
  | none => some (false, m)
  | some i =>
    (backshiftDelete m.n m i (m.next i)).map fun m => (true, { m with sz := m.sz - 1 })

end

/-! ### Small facts -/

section

variable {hash : UInt64 → UInt64} (m : RHBSU64Map V) (i c : Nat) (e : Entry V)

theorem n_pos : 0 < m.n := Nat.two_pow_pos m.bits

theorem next_eq : m.next i = (i + 1) % m.n := Ring.and_mask (i + 1) m.bits

theorem home_lt (k : UInt64) : m.home hash k < m.n := by
  rw [home, index, mask, n, Ring.and_mask]
  exact Nat.mod_lt _ m.n_pos

theorem next_lt : m.next i < m.n := by
  rw [next_eq]
  exact Nat.mod_lt _ m.n_pos

@[simp] theorem put_n : (m.put i e c).n = m.n := rfl

@[simp] theorem put_next (j : Nat) : (m.put i e c).next j = m.next j := rfl

@[simp] theorem put_home (k : UInt64) : (m.put i e c).home hash k = m.home hash k := rfl

@[simp] theorem put_ctrl_self : (m.put i e c).ctrl i = c := Function.update_self ..

@[simp] theorem put_entries_self : (m.put i e c).entries i = e := Function.update_self ..

theorem put_ctrl_of_ne {j : Nat} (apart : j ≠ i) : (m.put i e c).ctrl j = m.ctrl j :=
  Function.update_of_ne apart ..

theorem put_entries_of_ne {j : Nat} (apart : j ≠ i) : (m.put i e c).entries j = m.entries j :=
  Function.update_of_ne apart ..

end

/-! ### The insertion as a sequence of turns -/

/-- What `insert` does in its last turn. -/
inductive Finishes (m : RHBSU64Map V) (i : Nat) (hand : Hand V) : Outcome → RHBSU64Map V → Prop
  | inserted (free : m.ctrl i = 0) :
    Finishes m i hand .inserted { m.put i hand.entry hand.dist with sz := m.sz + 1 }
  | updated (taken : m.ctrl i ≠ 0) (same : (m.entries i).key = hand.entry.key) :
    Finishes m i hand .updated { m with entries := Function.update m.entries i hand.entry }
  | overflow (taken : m.ctrl i ≠ 0) (other : (m.entries i).key ≠ hand.entry.key)
    (far : (m.exchange i hand).2.further.dist = 255) :
    Finishes m i hand .overflow (m.exchange i hand).1

/-- What holds before the first turn and is kept by every turn but the last holds before the
last one. -/
theorem insertLoop_last {P : RHBSU64Map V → Nat → Hand V → Prop}
    (keeps : ∀ m i hand, P m i hand → m.ctrl i ≠ 0 → (m.entries i).key ≠ hand.entry.key →
      (m.exchange i hand).2.further.dist ≠ 255 →
      P (m.exchange i hand).1 ((m.exchange i hand).1.next i) (m.exchange i hand).2.further)
    {fuel : Nat} {m : RHBSU64Map V} {i : Nat} {hand : Hand V} {out : Outcome} {t : RHBSU64Map V}
    (start : P m i hand) (ends : insertLoop fuel m i hand = some (out, t)) :
    ∃ m i hand, P m i hand ∧ Finishes m i hand out t := by
  induction fuel generalizing m i hand with
  | zero => cases ends
  | succ fuel ih =>
    simp only [insertLoop] at ends
    split at ends
    next free =>
      cases ends
      exact ⟨m, i, hand, start, .inserted free⟩
    next taken =>
      split at ends
      next same =>
        cases ends
        exact ⟨m, i, hand, start, .updated taken same⟩
      next other =>
        split at ends
        next far =>
          cases ends
          exact ⟨m, i, hand, start, .overflow taken other far⟩
        next near => exact ih (keeps m i hand start taken other near) ends

theorem exchange_of_lt {m : RHBSU64Map V} {i : Nat} {hand : Hand V}
    (closer : m.ctrl i < hand.dist) :
    m.exchange i hand = (m.put i hand.entry hand.dist, ⟨m.entries i, m.ctrl i⟩) :=
  if_pos closer

theorem exchange_of_le {m : RHBSU64Map V} {i : Nat} {hand : Hand V}
    (further : hand.dist ≤ m.ctrl i) : m.exchange i hand = (m, hand) :=
  if_neg (Nat.not_lt.mpr further)

theorem exchange_bits (m : RHBSU64Map V) (i : Nat) (hand : Hand V) :
    (m.exchange i hand).1.bits = m.bits := by
  unfold exchange
  split <;> rfl

theorem exchange_sz (m : RHBSU64Map V) (i : Nat) (hand : Hand V) :
    (m.exchange i hand).1.sz = m.sz := by
  unfold exchange
  split <;> rfl

end RHBSU64Map

end UringDb.RobinHood
