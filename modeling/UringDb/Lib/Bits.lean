import Mathlib

/-!
# Iterating over the set bits of a word

`x & (x - 1)` clears the lowest set bit, whose index is the number of trailing zeros.
-/
namespace UringDb

section

variable {x k : Nat}

theorem mod_of_lowest (set : x.testBit k = true) (low : ∀ j < k, x.testBit j = false) :
    x % 2 ^ (k + 1) = 2 ^ k := by
  refine Nat.eq_of_testBit_eq fun j => ?_
  rw [Nat.testBit_mod_two_pow, Nat.testBit_two_pow]
  rcases Nat.lt_trichotomy j k with less | rfl | more
  · simp [low j less, Nat.ne_of_gt less]
  · simp [set]
  · simp [Nat.ne_of_lt more, Nat.not_lt.mpr more]

theorem testBit_sub_one (set : x.testBit k = true) (low : ∀ j < k, x.testBit j = false) (i : Nat) :
    (x.testBit i && (x - 1).testBit i) = (x.testBit i && decide (i ≠ k)) := by
  have rest := mod_of_lowest set low
  have parts := Nat.div_add_mod x (2 ^ (k + 1))
  have less : x - 1 = 2 ^ (k + 1) * (x / 2 ^ (k + 1)) + (2 ^ k - 1) := by
    have := Nat.two_pow_pos k
    omega
  have fits : 2 ^ k < 2 ^ (k + 1) := Nat.pow_lt_pow_right (by decide) (Nat.lt_succ_self k)
  rw [less, Nat.testBit_two_pow_mul_add _ (by omega), Nat.testBit_two_pow_sub_one]
  rcases Nat.lt_trichotomy i k with lower | rfl | higher
  · simp [low i lower]
  · simp
  · rw [if_neg (by omega), Nat.testBit_div_two_pow, Nat.sub_add_cancel higher]
    simp [Nat.ne_of_gt higher]

end

theorem getLsbD_clear_lowest {w : Nat} {x : BitVec w} (some : x ≠ 0#w) (i : Nat) :
    (x &&& (x - 1#w)).getLsbD i = (x.getLsbD i && decide (i ≠ x.ctz.toNat)) := by
  have positive : 1 ≤ x.toNat := by
    have : x.toNat ≠ 0 := fun zero => some (BitVec.eq_of_toNat_eq (by simpa using zero))
    omega
  have wide : 1 < 2 ^ w := by
    have := x.isLt
    omega
  have one : (1#w).toNat = 1 := by
    rw [BitVec.toNat_ofNat, Nat.mod_eq_of_lt wide]
  have less : (x - 1#w).toNat = x.toNat - 1 := by
    rw [BitVec.toNat_sub_of_le (by rw [BitVec.le_def, one]; exact positive), one]
  have cleared := testBit_sub_one (BitVec.getLsbD_true_ctz_of_ne_zero some)
    (fun j lower => BitVec.getLsbD_false_of_lt_ctz lower) i
  rw [BitVec.getLsbD_and]
  rw [← less] at cleared
  exact cleared

end UringDb
