import UringDb.Lib.Lex

/-!
# Numbers in memory

A number in `w` bytes, the least significant one first, and the bytes in reverse order, which
compare like the numbers.
-/
namespace UringDb

abbrev Byte := Fin 256

namespace Bytes

/-- Write a number into `w` bytes. -/
def store : Nat → Nat → List Byte
  | 0, _ => []
  | w + 1, n => Fin.ofNat 256 n :: store w (n / 256)

/-- Read a number. -/
def load : List Byte → Nat
  | [] => 0
  | b :: bytes => b + 256 * load bytes

/-- Reverse the order of the bytes. -/
def bswap (w n : Nat) : Nat := load (store w n).reverse

@[simp] theorem length_store (w n : Nat) : (store w n).length = w := by
  induction w generalizing n with
  | zero => rfl
  | succ w ih => rw [store, List.length_cons, ih]

theorem load_store {w n : Nat} (fits : n < 256 ^ w) : load (store w n) = n := by
  induction w generalizing n with
  | zero => exact (Nat.lt_one_iff.mp fits).symm
  | succ w ih =>
    have less : n / 256 < 256 ^ w := by
      rw [Nat.pow_succ] at fits
      exact Nat.div_lt_of_lt_mul (Nat.mul_comm .. ▸ fits)
    rw [store, load, ih less, Fin.val_ofNat]
    omega

theorem store_load (bytes : List Byte) : store bytes.length (load bytes) = bytes := by
  induction bytes with
  | nil => rfl
  | cons b bytes ih =>
    have small := b.isLt
    have rest : (b + 256 * load bytes) / 256 = load bytes := by omega
    have first : Fin.ofNat 256 (b + 256 * load bytes) = b := by
      ext
      rw [Fin.val_ofNat]
      omega
    rw [List.length_cons, load, store, first, rest, ih]

theorem load_lt (bytes : List Byte) : load bytes < 256 ^ bytes.length := by
  induction bytes with
  | nil => exact Nat.one_pos
  | cons b bytes ih =>
    have small := b.isLt
    rw [load, List.length_cons, Nat.pow_succ]
    omega

theorem store_bswap (w n : Nat) : store w (bswap w n) = (store w n).reverse := by
  have read := store_load (store w n).reverse
  rwa [List.length_reverse, length_store] at read

theorem bswap_bswap {w n : Nat} (fits : n < 256 ^ w) : bswap w (bswap w n) = n := by
  rw [bswap, store_bswap, List.reverse_reverse, load_store fits]

theorem bswap_lt (w n : Nat) : bswap w n < 256 ^ w := by
  have less := load_lt (store w n).reverse
  rwa [List.length_reverse, length_store] at less

/-- The most significant byte decides first. -/
theorem reverse_store_lt {w m n : Nat} (fits : m < 256 ^ w) (fits' : n < 256 ^ w)
    (rest rest' : List Byte) :
    (store w m).reverse ++ rest < (store w n).reverse ++ rest' ↔
      m < n ∨ m = n ∧ rest < rest' := by
  induction w generalizing m n rest rest' with
  | zero =>
    obtain rfl := Nat.lt_one_iff.mp fits
    obtain rfl := Nat.lt_one_iff.mp fits'
    simp only [store, List.reverse_nil, List.nil_append, lt_self_iff_false, false_or, true_and]
  | succ w ih =>
    rw [Nat.pow_succ] at fits fits'
    rw [store, store, List.reverse_cons, List.reverse_cons, List.append_assoc, List.append_assoc,
      List.singleton_append, List.singleton_append,
      ih (Nat.div_lt_of_lt_mul (Nat.mul_comm .. ▸ fits))
        (Nat.div_lt_of_lt_mul (Nat.mul_comm .. ▸ fits')),
      List.cons_lt_cons_iff, Fin.lt_def, Fin.ext_iff, Fin.val_ofNat, Fin.val_ofNat]
    -- what decides is the upper part, else the last byte, else what follows
    by_cases tail : rest < rest'
    · simp only [tail, and_true]
      omega
    · simp only [tail, and_false, or_false]
      omega

end Bytes

end UringDb
