import UringDb.Lib.Ring

/-!
# Ring buffers with wrapping counters

A queue in a buffer of `2 ^ bits` cells. `head` and `tail` count all pops and pushes modulo
`2 ^ width`; their difference is the length, and their low bits are positions. As long as the
capacity is less than the range of the counters, the queue is a list, also where they wrap.
-/
namespace UringDb

structure SpscRing (α : Type) (bits width : Nat) where
  buf : Nat → α
  head : BitVec width
  tail : BitVec width

namespace SpscRing

variable {α : Type} {bits width : Nat}

/-- The cell of a count: its low bits. -/
def cell (bits : Nat) (count : BitVec width) : Nat := count.toNat &&& (2 ^ bits - 1)

section

variable (r : SpscRing α bits width)

def size : Nat := (r.tail - r.head).toNat

def empty : Bool := r.head == r.tail

def full : Bool := r.size == 2 ^ bits

def push (v : α) : Option (SpscRing α bits width) :=
  if r.full then none
  else some { r with buf := Function.update r.buf (cell bits r.tail) v, tail := r.tail + 1 }

def pop : Option (α × SpscRing α bits width) :=
  if r.empty then none else some (r.buf (cell bits r.head), { r with head := r.head + 1 })

/-- The elements from the head to the tail. -/
def toList : List α :=
  (List.range r.size).map fun i => r.buf ((r.head.toNat + i) % 2 ^ bits)

end

variable {r s : SpscRing α bits width} {v : α}

theorem length_toList (r : SpscRing α bits width) : r.toList.length = r.size := by
  rw [toList, List.length_map, List.length_range]

theorem empty_iff : r.empty = true ↔ r.toList = [] := by
  rw [empty, beq_iff_eq, ← List.length_eq_zero_iff, length_toList, size]
  constructor
  · intro same
    simp [same]
  · intro none
    have zero : r.tail - r.head = 0 := BitVec.eq_of_toNat_eq (by simpa using none)
    exact (sub_eq_zero.mp zero).symm

/-- The capacity is less than the range of the counters, so masking and wrapping commute. -/
theorem cell_eq (small : bits < width) (count : BitVec width) (i : Nat) :
    cell bits (count + BitVec.ofNat width i) = (count.toNat + i) % 2 ^ bits := by
  have divides : 2 ^ bits ∣ 2 ^ width := Nat.pow_dvd_pow 2 (Nat.le_of_lt small)
  rw [cell, Ring.and_mask, BitVec.toNat_add, BitVec.toNat_ofNat, Nat.add_mod_mod,
    Nat.mod_mod_of_dvd _ divides]

theorem tail_eq (r : SpscRing α bits width) : r.tail = r.head + BitVec.ofNat width r.size := by
  rw [size, BitVec.ofNat_toNat, BitVec.setWidth_eq, BitVec.add_comm, BitVec.sub_add_cancel]

theorem cell_tail (small : bits < width) :
    cell bits r.tail = (r.head.toNat + r.size) % 2 ^ bits := by
  rw [r.tail_eq, cell_eq small]

theorem toNat_succ (count : BitVec width) : (count + 1).toNat = (count.toNat + 1) % 2 ^ width := by
  have one : (1 : BitVec width).toNat = 1 % 2 ^ width := BitVec.toNat_ofNat 1 width
  rw [BitVec.toNat_add, one, Nat.add_mod_mod]

theorem push_toList (small : bits < width) (fits : r.size ≤ 2 ^ bits) (pushed : r.push v = some s) :
    s.toList = r.toList ++ [v] := by
  unfold push at pushed
  split at pushed <;> cases pushed
  next room =>
    rw [full, beq_iff_eq] at room
    have range : 2 ^ bits < 2 ^ width := Nat.pow_lt_pow_right (by decide) small
    have grown : (r.tail + 1 - r.head).toNat = r.size + 1 := by
      rw [add_sub_right_comm, toNat_succ]
      exact Nat.mod_eq_of_lt (by change r.size + 1 < 2 ^ width; omega)
    rw [toList, size, grown, List.range_succ, List.map_append]
    simp only [List.map_singleton, cell_tail small, Function.update_self]
    congr 1
    apply List.map_congr_left
    intro i member
    rw [List.mem_range] at member
    refine Function.update_of_ne (fun same => ?_) _ _
    have equal := Ring.add_inj (by omega) (by omega) same
    omega

theorem push_isSome (room : r.toList.length < 2 ^ bits) : ∃ s, r.push v = some s := by
  rw [length_toList] at room
  unfold push
  rw [if_neg]
  · exact ⟨_, rfl⟩
  · rw [full, beq_iff_eq]
    omega

theorem pop_toList (small : bits < width) (popped : r.pop = some (v, s)) :
    r.toList = v :: s.toList := by
  unfold pop at popped
  split at popped
  · cases popped
  next some_left =>
    have positive : 0 < r.size := by
      rw [empty_iff, ← List.length_eq_zero_iff, length_toList] at some_left
      omega
    cases popped
    obtain ⟨n, length⟩ := Nat.exists_eq_succ_of_ne_zero (Nat.ne_of_gt positive)
    have shrunk : (r.tail - (r.head + 1)).toNat = n := by
      have back : r.tail - r.head = r.tail - (r.head + 1) + 1 := by ring
      have value : r.size = ((r.tail - (r.head + 1)).toNat + 1) % 2 ^ width := by
        rw [size, back, toNat_succ]
      have below := (r.tail - (r.head + 1)).isLt
      by_cases wraps : (r.tail - (r.head + 1)).toNat + 1 = 2 ^ width
      · rw [wraps, Nat.mod_self] at value
        omega
      · rw [Nat.mod_eq_of_lt (by omega)] at value
        omega
    rw [toList, length, List.range_succ_eq_map, List.map_cons, List.map_map, toList, size, shrunk]
    congr 1
    · rw [cell, Ring.and_mask, Nat.add_zero]
    · apply List.map_congr_left
      intro i _
      have next := cell_eq small (r.head + 1) i
      have same := cell_eq small r.head (i + 1)
      rw [BitVec.ofNat_add, BitVec.add_comm (BitVec.ofNat width i), ← BitVec.add_assoc] at same
      rw [Function.comp_apply, ← same, ← next]
      rfl

theorem pop_isSome (some_left : r.toList ≠ []) : ∃ v s, r.pop = some (v, s) := by
  unfold pop
  rw [if_neg]
  · exact ⟨_, _, rfl⟩
  · rwa [empty_iff]

end SpscRing

end UringDb
