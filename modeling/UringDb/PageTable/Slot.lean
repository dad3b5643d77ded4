import Mathlib

/-!
# Page-table slot words

One slot of `AtomicPageTable` is a 64-bit word: 0 for EMPTY, 1 for TOMBSTONE, and
otherwise `(pid + 1)` above the 24 bits of the buffer id. Page ids and buffer ids are
natural numbers; `pack` checks the ranges in which the word arithmetic does not wrap.
-/
namespace UringDb

namespace Slot

def bidBits : Nat := 24
def bidMask : Nat := (1 <<< bidBits) - 1
def pidLimit : Nat := (1 <<< (64 - bidBits)) - 1
def emptySlot : Nat := 0
def tombstoneSlot : Nat := 1

def isEmpty (raw : Nat) : Bool := raw == emptySlot

def isTombstone (raw : Nat) : Bool := raw == tombstoneSlot

def isLive (raw : Nat) : Bool := !isEmpty raw && !isTombstone raw

def pid (raw : Nat) : Nat := (raw >>> bidBits) - 1

def bid (raw : Nat) : Nat := raw &&& bidMask

/-- The word `pack` builds once its two `ensure` checks have passed. -/
def word (pid bid : Nat) : Nat := ((pid + 1) <<< bidBits) ||| bid

def pack (pid bid : Nat) : Option Nat :=
  if pid < pidLimit ∧ bid ≤ bidMask then some (word pid bid) else none

theorem word_eq (p b : Nat) (fits : b ≤ bidMask) : word p b = (p + 1) * 2 ^ 24 + b := by
  have small : b < 2 ^ 24 := by
    have : bidMask = 2 ^ 24 - 1 := by decide
    omega
  rw [word, bidBits, ← Nat.shiftLeft_add_eq_or_of_lt small, Nat.shiftLeft_eq]

theorem pid_word (p b : Nat) (fits : b ≤ bidMask) : pid (word p b) = p := by
  have mask : bidMask = 2 ^ 24 - 1 := by decide
  rw [pid, word_eq p b fits, bidBits, Nat.shiftRight_eq_div_pow]
  omega

theorem bid_word (p b : Nat) (fits : b ≤ bidMask) : bid (word p b) = b := by
  have mask : bidMask = 2 ^ 24 - 1 := by decide
  rw [bid, word_eq p b fits, mask, Nat.and_two_pow_sub_one_eq_mod]
  omega

theorem isLive_word (p b : Nat) (fits : b ≤ bidMask) : isLive (word p b) = true := by
  have large : 2 ^ 24 ≤ word p b := by rw [word_eq p b fits]; omega
  simp only [isLive, isEmpty, isTombstone, emptySlot, tombstoneSlot, Bool.and_eq_true,
    Bool.not_eq_true', beq_eq_false_iff_ne]
  omega

theorem word_lt (p b : Nat) (bounded : p < pidLimit) (fits : b ≤ bidMask) :
    word p b < 2 ^ 64 := by
  have limit : pidLimit = 2 ^ 40 - 1 := by decide
  have mask : bidMask = 2 ^ 24 - 1 := by decide
  rw [word_eq p b fits]
  omega

theorem isLive_iff (raw : Nat) : isLive raw = true ↔ raw ≠ emptySlot ∧ raw ≠ tombstoneSlot := by
  simp [isLive, isEmpty, isTombstone]

@[simp] theorem isLive_empty : isLive emptySlot = false := rfl

@[simp] theorem isLive_tombstone : isLive tombstoneSlot = false := rfl

end Slot

end UringDb
