import Mathlib

/-!
# Memory in blocks

A stretch of memory is a list. Part of it can be overwritten, and it can be read as blocks of
one size, of which the `i`-th starts at position `i * n`.
-/
namespace UringDb

variable {α : Type}

/-- Write `ys` over what stands at position `off`. -/
def overwrite (xs : List α) (off : Nat) (ys : List α) : List α :=
  xs.take off ++ ys ++ xs.drop (off + ys.length)

/-- The `i`-th block of size `n`. -/
def block (n : Nat) (xs : List α) (i : Nat) : List α := (xs.drop (i * n)).take n

/-- The first `count` blocks of size `n`. -/
def blocks (n count : Nat) (xs : List α) : List (List α) := (List.range count).map (block n xs)

section Overwrite

variable {xs ys : List α} {off : Nat}

theorem length_overwrite (inside : off + ys.length ≤ xs.length) :
    (overwrite xs off ys).length = xs.length := by
  rw [overwrite, List.length_append, List.length_append, List.length_take, List.length_drop]
  omega

theorem take_overwrite (inside : off ≤ xs.length) :
    (overwrite xs off ys).take (off + ys.length) = xs.take off ++ ys := by
  rw [overwrite, List.take_append_of_le_length]
  · apply List.take_of_length_le
    rw [List.length_append, List.length_take]
    omega
  · rw [List.length_append, List.length_take]
    omega

theorem take_overwrite_of_le {k : Nat} (inside : off ≤ xs.length) (before : k ≤ off) :
    (overwrite xs off ys).take k = xs.take k := by
  rw [overwrite, List.append_assoc, List.take_append_of_le_length, List.take_take,
    Nat.min_eq_left before]
  rw [List.length_take]
  omega

end Overwrite

/-! ### Blocks -/

variable {n count : Nat} {xs ys : List α}

@[simp] theorem length_blocks : (blocks n count xs).length = count := by
  rw [blocks, List.length_map, List.length_range]

theorem block_eq (i : Nat) : block n xs i = (xs.take (i * n + n)).drop (i * n) := by
  rw [block, List.drop_take, Nat.add_sub_cancel_left]

theorem blocks_succ : blocks n (count + 1) xs = blocks n count xs ++ [block n xs count] := by
  rw [blocks, List.range_succ, List.map_append, blocks]
  rfl

theorem blocks_congr (same : xs.take (count * n) = ys.take (count * n)) :
    blocks n count xs = blocks n count ys := by
  rw [blocks, blocks]
  apply List.map_congr_left
  intro i less
  -- block `i` is cut out of the part on which the lists agree
  have inside : i * n + n ≤ count * n := by
    rw [← Nat.succ_mul]
    exact Nat.mul_le_mul_right n (List.mem_range.mp less)
  have cut (zs : List α) : zs.take (i * n + n) = (zs.take (count * n)).take (i * n + n) := by
    rw [List.take_take, Nat.min_eq_left inside]
  rw [block_eq, block_eq, cut xs, cut ys, same]

theorem blocks_overwrite (size : ys.length = n) (inside : count * n ≤ xs.length) :
    blocks n (count + 1) (overwrite xs (count * n) ys) = blocks n count xs ++ [ys] := by
  rw [blocks_succ, blocks_congr (take_overwrite_of_le inside (Nat.le_refl _)), block_eq]
  have upTo : (overwrite xs (count * n) ys).take (count * n + n) = xs.take (count * n) ++ ys := by
    have written := @take_overwrite _ xs ys _ inside
    rwa [size] at written
  rw [upTo, List.drop_left' (List.length_take_of_le inside)]

end UringDb
