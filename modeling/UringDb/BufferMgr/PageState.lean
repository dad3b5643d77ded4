import Mathlib

/-!
# The page-state word

`PageState` packs a lock mode, a 48-bit version and three flags into one atomic
64-bit word. The model works on the unpacked `Word`; `encode` is the packing, and the
lemmas about it say that the constructors the code builds words with are the ones
below as long as the version does not wrap, and that comparing packed words (which is
what a compare-and-swap does) is comparing unpacked ones.
-/
namespace UringDb.PageState

def unlocked : Nat := 0
def maxShared : Nat := 252
def locked : Nat := 253
def marked : Nat := 254
def evicted : Nat := 255

structure Word where
  mode : Nat
  version : Nat
  io : Bool
  evicting : Bool
  dirty : Bool
  deriving DecidableEq, Repr

namespace Word

def sameVersion (w : Word) (mode : Nat) : Word := { w with mode := mode }

def nextVersion (w : Word) (mode : Nat) : Word := { w with mode := mode, version := w.version + 1 }

def nextVersionNoFlags (w : Word) (mode : Nat) : Word :=
  ⟨mode, w.version + 1, false, false, false⟩

/-- `init_unlocked` and the all-zero word of a fresh allocation. -/
def ofMode (mode : Nat) : Word := ⟨mode, 0, false, false, false⟩

def free (w : Word) : Bool := w.mode == unlocked || w.mode == marked

/-- `try_lock_x_dirty`: the word the compare-and-swap installs, if it is tried at all. -/
def lockXDirty (expected : Word) : Option Word :=
  if expected.free then some { expected.sameVersion locked with dirty := true } else none

def lockS (expected : Word) : Option Word :=
  if expected.mode < maxShared then some (expected.sameVersion (expected.mode + 1))
  else if expected.mode = marked then some (expected.sameVersion 1)
  else none

def clearMark (expected : Word) : Option Word :=
  if expected.mode = marked then some (expected.sameVersion unlocked) else none

def unlockS (w : Word) : Word := w.sameVersion (w.mode - 1)

def unlockSMarked (w : Word) : Word :=
  if w.mode = 1 then w.sameVersion marked else w.sameVersion (w.mode - 1)

end Word

/-! ### The packed word -/

def flagsMask : Nat := 0xFF
def versionMask : Nat := (2 ^ 48 - 1) <<< 8

def sameVersion64 (old mode : Nat) : Nat := (old &&& (versionMask ||| flagsMask)) ||| mode <<< 56

def nextVersion64 (old mode : Nat) : Nat :=
  (old &&& flagsMask) ||| (((old &&& versionMask) + 1 <<< 8) &&& versionMask) ||| mode <<< 56

def nextVersionNoFlags64 (old mode : Nat) : Nat :=
  (((old &&& versionMask) + 1 <<< 8) &&& versionMask) ||| mode <<< 56

def getState64 (w : Nat) : Nat := w >>> 56

def getVersion64 (w : Nat) : Nat := (w &&& versionMask) >>> 8

namespace Word

def flags (w : Word) : Nat := w.io.toNat + 2 * w.evicting.toNat + 4 * w.dirty.toNat

def encode (w : Word) : Nat := w.flags + w.version * 2 ^ 8 + w.mode * 2 ^ 56

theorem flags_lt (w : Word) : w.flags < 8 := by
  have h1 := w.io.toNat_lt
  have h2 := w.evicting.toNat_lt
  have h3 := w.dirty.toNat_lt
  unfold flags
  omega

end Word

theorem and_field (x k n : Nat) :
    x &&& ((2 ^ n - 1) <<< k) = x / 2 ^ k % 2 ^ n * 2 ^ k := by
  apply Nat.eq_of_testBit_eq
  intro i
  rw [Nat.testBit_and, Nat.testBit_shiftLeft, Nat.testBit_two_pow_sub_one, mul_comm,
    Nat.testBit_two_pow_mul, Nat.testBit_mod_two_pow, Nat.testBit_div_two_pow]
  by_cases above : k ≤ i
  · simp [above, Bool.and_comm]
  · simp [above]

theorem or_field (low high k : Nat) (fits : low < 2 ^ k) :
    low ||| high <<< k = low + high * 2 ^ k := by
  rw [Nat.lor_comm, ← Nat.shiftLeft_add_eq_or_of_lt fits, Nat.shiftLeft_eq]
  omega

theorem masks : versionMask ||| flagsMask = (2 ^ 56 - 1) <<< 0 := by decide

section

variable {w : Word} (fits : w.version < 2 ^ 48)

include fits

theorem encode_version : w.encode &&& versionMask = w.version * 2 ^ 8 := by
  have flags := w.flags_lt
  rw [versionMask, and_field, Word.encode]
  omega

theorem getVersion64_encode : getVersion64 w.encode = w.version := by
  rw [getVersion64, encode_version fits, Nat.shiftRight_eq_div_pow]
  omega

theorem getState64_encode : getState64 w.encode = w.mode := by
  have flags := w.flags_lt
  rw [getState64, Nat.shiftRight_eq_div_pow, Word.encode]
  omega

theorem sameVersion64_encode (mode : Nat) :
    sameVersion64 w.encode mode = (w.sameVersion mode).encode := by
  have flags := w.flags_lt
  rw [sameVersion64, masks, and_field, or_field _ _ _ (by omega)]
  simp only [Word.encode, Word.sameVersion, Word.flags] at flags ⊢
  omega

/-- The packed word determines the unpacked one. -/
theorem encode_inj {w' : Word} (fits' : w'.version < 2 ^ 48) :
    w.encode = w'.encode ↔ w = w' := by
  refine ⟨fun same => ?_, fun same => by rw [same]⟩
  have mode := (getState64_encode fits).symm.trans
    ((congrArg getState64 same).trans (getState64_encode fits'))
  have version := (getVersion64_encode fits).symm.trans
    ((congrArg getVersion64 same).trans (getVersion64_encode fits'))
  have flags : w.flags = w'.flags := by
    simp only [Word.encode, mode, version] at same
    omega
  obtain ⟨m, v, io, evicting, dirty⟩ := w
  obtain ⟨m', v', io', evicting', dirty'⟩ := w'
  dsimp only at mode version
  subst mode version
  revert flags
  cases io <;> cases io' <;> cases evicting <;> cases evicting' <;> cases dirty <;> cases dirty' <;>
    simp [Word.flags]

end

section

variable {w : Word} (fits : w.version + 1 < 2 ^ 48)

include fits

theorem bumped_version :
    ((w.encode &&& versionMask) + 1 <<< 8) &&& versionMask = (w.version + 1) * 2 ^ 8 := by
  rw [encode_version (by omega), versionMask, and_field]
  omega

theorem nextVersionNoFlags64_encode (mode : Nat) :
    nextVersionNoFlags64 w.encode mode = (w.nextVersionNoFlags mode).encode := by
  rw [nextVersionNoFlags64, bumped_version fits, or_field _ _ _ (by omega)]
  simp [Word.encode, Word.nextVersionNoFlags, Word.flags]

theorem nextVersion64_encode (mode : Nat) :
    nextVersion64 w.encode mode = (w.nextVersion mode).encode := by
  have flags := w.flags_lt
  have low : w.encode &&& flagsMask = w.flags := by
    have mask : flagsMask = (2 ^ 8 - 1) <<< 0 := by decide
    rw [mask, and_field, Word.encode]
    omega
  have join := or_field w.flags (w.version + 1) 8 (by omega)
  rw [Nat.shiftLeft_eq] at join
  rw [nextVersion64, bumped_version fits, low, join, or_field _ _ _ (by omega)]
  simp [Word.encode, Word.nextVersion, Word.flags]

end

/-- **Words are packed faithfully.** As long as the version does not wrap around, a
compare-and-swap and the masks and shifts on 64 bits do what the fields of a word say. -/
theorem packed_refines {w w' : Word} (fits : w.version + 1 < 2 ^ 48) (fits' : w'.version < 2 ^ 48)
    (mode : Nat) : (w.encode = w'.encode ↔ w = w') ∧ getState64 w.encode = w.mode ∧
      getVersion64 w.encode = w.version ∧
      sameVersion64 w.encode mode = (w.sameVersion mode).encode ∧
      nextVersion64 w.encode mode = (w.nextVersion mode).encode ∧
      nextVersionNoFlags64 w.encode mode = (w.nextVersionNoFlags mode).encode := by
  have now := Nat.lt_of_succ_lt fits
  exact ⟨encode_inj now fits', getState64_encode now, getVersion64_encode now,
    sameVersion64_encode now mode, nextVersion64_encode fits mode,
    nextVersionNoFlags64_encode fits mode⟩

theorem packed_refines_unlock :
    nextVersion64 (Word.encode ⟨locked, 6, false, false, true⟩) marked =
      Word.encode ⟨marked, 7, false, false, true⟩ := by
  have fits : (Word.mk locked 6 false false true).version + 1 < 2 ^ 48 := by decide
  exact (packed_refines fits (Nat.lt_of_succ_lt fits) marked).2.2.2.2.1

end UringDb.PageState
