import UringDb.Lib.Guard

/-!
# Rounding up to a power of two

The three functions called `next_pow2`: the lambdas in `BufferManager::init` of
`buffer_mgr/bm.cpp` and `buffer_mgr/mt/bm.cpp`, and the one in `utils/utils.hpp`. A count of
leading zeros of zero and a shift that leaves its type are undefined, here `none`.
-/
namespace UringDb.BufferMgr

/-- The least power of two that is not below `x`. -/
def RoundedUp (x r : Nat) : Prop := IsLeast {p | (∃ k, p = 2 ^ k) ∧ x ≤ p} r

/-! ### The primitives -/

/-- `__builtin_clzl`. -/
def builtinClzl (x : Nat) : Option Nat := if x = 0 then none else some (63 - x.log2)

/-- `std::bit_width`. -/
def bitWidth (x : Nat) : Nat := if x = 0 then 0 else x.log2 + 1

/-- `1 << n`, which is an `int`. -/
def shiftInt (n : Nat) : Option Nat := if n < 31 then some (2 ^ n) else none

/-- `1ull << n`. -/
def shiftUll (n : Nat) : Option Nat := if n < 64 then some (2 ^ n) else none

/-! ### The three functions -/

/-- `next_pow2` in the single-threaded `init`. -/
def nextPow2Single (x : Nat) : Option Nat := do
  let zeros ← builtinClzl ((x + 2 ^ 64 - 1) % 2 ^ 64)
  shiftInt (64 - zeros)

/-- `next_pow2` in the multi-threaded `init`. -/
def nextPow2Multi (x : Nat) : Option Nat := do
  let zeros ← builtinClzl ((x + 2 ^ 64 - 1) % 2 ^ 64)
  shiftUll (64 - zeros)

/-- `next_pow2` in `utils.hpp`. -/
def nextPow2 (n : Nat) : Option Nat :=
  if n ≤ 1 then some 1
  else if 2 ^ 63 < n then some 0
  else shiftUll (bitWidth (n - 1))

/-! ### What they compute -/

theorem roundedUp_one : RoundedUp 1 1 := by
  refine ⟨⟨⟨0, rfl⟩, le_refl 1⟩, ?_⟩
  rintro p ⟨-, above⟩
  exact above

theorem roundedUp_of_between {x k : Nat} (above : 2 ^ k < x) (below : x ≤ 2 ^ (k + 1)) :
    RoundedUp x (2 ^ (k + 1)) := by
  refine ⟨⟨⟨k + 1, rfl⟩, below⟩, ?_⟩
  rintro p ⟨⟨j, rfl⟩, large⟩
  have more := (Nat.pow_lt_pow_iff_right (by decide)).mp (lt_of_lt_of_le above large)
  exact Nat.pow_le_pow_right (by decide) more

/-- The bits of `x - 1` are the exponent of the next power of two. -/
theorem roundedUp_log2 {x : Nat} (two : 2 ≤ x) : RoundedUp x (2 ^ ((x - 1).log2 + 1)) := by
  have positive : x - 1 ≠ 0 := by omega
  have bounds := (Nat.log2_eq_iff positive).mp rfl
  exact roundedUp_of_between (by omega) (by omega)

variable {x : Nat}

theorem word_pred (one : 1 ≤ x) (word : x ≤ 2 ^ 63) : (x + 2 ^ 64 - 1) % 2 ^ 64 = x - 1 := by
  omega

theorem clz_eq (two : 2 ≤ x) (word : x ≤ 2 ^ 63) :
    ∃ zeros, builtinClzl (x - 1) = some zeros ∧ 64 - zeros = (x - 1).log2 + 1 ∧
      (x - 1).log2 < 63 := by
  have positive : x - 1 ≠ 0 := by omega
  have short : (x - 1).log2 < 63 := (Nat.log2_lt positive).mpr (by omega)
  refine ⟨63 - (x - 1).log2, ?_, by omega, short⟩
  rw [builtinClzl, if_neg positive]

theorem nextPow2Single_eq (two : 2 ≤ x) (word : x ≤ 2 ^ 63) :
    nextPow2Single x = shiftInt ((x - 1).log2 + 1) := by
  obtain ⟨zeros, counted, distance, -⟩ := clz_eq two word
  rw [nextPow2Single, word_pred (by omega) word, counted, Option.bind_eq_bind, Option.bind_some,
    distance]

theorem nextPow2Multi_eq (two : 2 ≤ x) (word : x ≤ 2 ^ 63) :
    nextPow2Multi x = some (2 ^ ((x - 1).log2 + 1)) := by
  obtain ⟨zeros, counted, distance, short⟩ := clz_eq two word
  rw [nextPow2Multi, word_pred (by omega) word, counted, Option.bind_eq_bind, Option.bind_some,
    distance, shiftUll, if_pos (by omega)]

theorem nextPow2_eq (two : 2 ≤ x) (word : x ≤ 2 ^ 63) :
    nextPow2 x = some (2 ^ ((x - 1).log2 + 1)) := by
  obtain ⟨-, -, -, short⟩ := clz_eq two word
  have positive : x - 1 ≠ 0 := by omega
  rw [nextPow2, if_neg (by omega), if_neg (by omega), bitWidth, if_neg positive, shiftUll,
    if_pos (by omega)]

/-- The shift of an `int` stays in its type up to `2 ^ 30`. -/
theorem log2_pred_lt_iff (two : 2 ≤ x) : (x - 1).log2 + 1 < 31 ↔ x ≤ 2 ^ 30 := by
  have positive : x - 1 ≠ 0 := by omega
  rw [Nat.add_lt_iff_lt_sub_right, Nat.log2_lt positive]
  omega

/-- **Where each of the three rounds up**: the single-threaded one from 2 to `2 ^ 30`, the
multi-threaded one from 2 on, the third everywhere. -/
theorem roundings_iff (x : Nat) (one : 1 ≤ x) (word : x ≤ 2 ^ 63) :
    ((∃ r, nextPow2Single x = some r ∧ RoundedUp x r) ↔ 2 ≤ x ∧ x ≤ 2 ^ 30) ∧
    ((∃ r, nextPow2Multi x = some r ∧ RoundedUp x r) ↔ 2 ≤ x) ∧
    (∃ r, nextPow2 x = some r ∧ RoundedUp x r) := by
  rcases Nat.lt_or_ge 1 x with two | least
  · have rounded := roundedUp_log2 two
    refine ⟨?_, ?_, _, nextPow2_eq two word, rounded⟩
    · rw [nextPow2Single_eq two word, shiftInt, ← log2_pred_lt_iff two]
      constructor
      · rintro ⟨r, defined, -⟩
        refine ⟨two, ?_⟩
        by_contra wide
        rw [if_neg wide] at defined
        cases defined
      · rintro ⟨-, narrow⟩
        exact ⟨_, if_pos narrow, rounded⟩
    · exact ⟨fun _ => two, fun _ => ⟨_, nextPow2Multi_eq two word, rounded⟩⟩
  · -- at one, the leading zeros of zero are counted
    obtain rfl : x = 1 := le_antisymm least one
    have single : nextPow2Single 1 = none := rfl
    have multi : nextPow2Multi 1 = none := rfl
    refine ⟨?_, ?_, 1, rfl, roundedUp_one⟩
    · rw [single]
      constructor
      · rintro ⟨r, defined, -⟩
        cases defined
      · rintro ⟨two, -⟩
        exact absurd two (by decide)
    · rw [multi]
      constructor
      · rintro ⟨r, defined, -⟩
        cases defined
      · intro two
        exact absurd two (by decide)

theorem roundings_iff_thousand :
    ∃ r, nextPow2Single 1000 = some r ∧ RoundedUp 1000 r ∧ nextPow2Single 1000 = some 1024 := by
  obtain ⟨r, defined, rounded⟩ := (roundings_iff 1000 (by decide) (by decide)).1.mpr (by decide)
  exact ⟨r, defined, rounded, rfl⟩

/-- One worker slot, and a table for more than `2 ^ 30` pages. -/
theorem roundings_undefined :
    nextPow2Multi 1 = none ∧ nextPow2Single 1 = none ∧ nextPow2Single (2 ^ 30 + 1) = none := by
  decide

end UringDb.BufferMgr
