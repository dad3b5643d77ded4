import UringDb.Lib.Bytes
import UringDb.Lib.OrderCodec

/-!
# Typed fields and their folded form

`tpcc/types.hpp` and `tpcc/types.cpp`. Folded fields are byte strings; `unfold` reads from the
start of its input and returns the number of bytes read. It answers `none` where the source
would read behind the input or an assertion fails.
-/
namespace UringDb.Tpcc

open Bytes

abbrev Integer := Int32
abbrev Timestamp := Int64

/-- The first `n` bytes in comparison. -/
def memcmp : Nat → List Byte → List Byte → Ordering
  | n + 1, a :: as, b :: bs => if a < b then .lt else if b < a then .gt else memcmp n as bs
  | _, _, _ => .eq

/-- Compare over the common length; then the shorter string comes first. -/
def less (a b : List Byte) : Bool :=
  match memcmp (min a.length b.length) a b with
  | .lt => true
  | .gt => false
  | .eq => a.length < b.length

/-- The first `length` bytes of `data`. -/
structure Varchar (maxLength : Nat) where
  data : List Byte
  fits : data.length ≤ maxLength
deriving DecidableEq

def Varchar.less {maxLength : Nat} (x other : Varchar maxLength) : Bool :=
  Tpcc.less x.data other.data

/-! ### Numbers -/

/-- A number of `w` bytes is folded by `flip`, which makes it unsigned, and a byte swap. -/
def foldNumber {α : Type} (w : Nat) (flip : α → Nat) (x : α) : List Byte :=
  store w (bswap w (flip x))

def unfoldNumber {α : Type} (w : Nat) (unflip : Nat → α) (input : List Byte) : Option (α × Nat) :=
  if w ≤ input.length then some (unflip (bswap w (load (input.take w))), w) else none

/-- The operand is widened to the type of `1ul << 31`, and the result narrowed again. -/
def flipInteger (x : Integer) : Nat := (x.toInt64.toUInt64 ^^^ ((1 : UInt64) <<< 31)).toUInt32.toNat

def unflipInteger (n : Nat) : Integer :=
  ((UInt32.ofNat n).toUInt64 ^^^ ((1 : UInt64) <<< 31)).toUInt32.toInt32

def flipTimestamp (x : Timestamp) : Nat := (x.toUInt64 ^^^ ((1 : UInt64) <<< 63)).toNat

def unflipTimestamp (n : Nat) : Timestamp := (UInt64.ofNat n ^^^ ((1 : UInt64) <<< 63)).toInt64

def integer : Codec Byte Integer where
  encode := foldNumber 4 flipInteger
  decode := unfoldNumber 4 unflipInteger
  size := 4
  Valid _ := True
  Less x y := x < y

def timestamp : Codec Byte Timestamp where
  encode := foldNumber 8 flipTimestamp
  decode := unfoldNumber 8 unflipTimestamp
  size := 8
  Valid _ := True
  Less x y := x < y

/-! ### Strings -/

def foldVarchar {len : Nat} (x : Varchar len) : List Byte := x.data ++ [0]

def unfoldVarchar (len : Nat) (input : List Byte) : Option (Varchar len × Nat) := do
  let l ← input.idxOf? 0
  if fits : (input.take l).length ≤ len then some (⟨input.take l, fits⟩, l + 1) else none

/-- The size is that of the structure: a 16 bit length, the data, and padding. -/
def varchar (len : Nat) : Codec Byte (Varchar len) where
  encode := foldVarchar
  decode := unfoldVarchar len
  size := 2 + (len + 1) / 2 * 2
  Valid x := 0 ∉ x.data
  Less x y := x.less y = true

/-! ### Comparison of strings -/

theorem less_iff (a b : List Byte) : less a b = true ↔ a < b := by
  unfold less
  induction a generalizing b with
  | nil =>
    cases b with
    | nil => decide
    | cons y b => simp [memcmp]
  | cons x a ih =>
    cases b with
    | nil => simp [memcmp]
    | cons y b =>
      have common : min (x :: a).length (y :: b).length = min a.length b.length + 1 := by
        rw [List.length_cons, List.length_cons, Nat.succ_min_succ]
      rw [common, memcmp, List.cons_lt_cons_iff, ← ih]
      by_cases below : x < y
      · simp only [below, if_true, true_or]
      · by_cases above : y < x
        · simp only [below, above, if_true, if_false, ne_of_gt above, false_and, or_self,
            Bool.false_eq_true]
        · obtain rfl := le_antisymm (not_lt.mp above) (not_lt.mp below)
          simp only [lt_self_iff_false, if_false, false_or, true_and, List.length_cons,
            Nat.add_lt_add_iff_right]

theorem Varchar.ext_data {len : Nat} {x y : Varchar len} : x = y ↔ x.data = y.data := by
  cases x
  cases y
  exact Varchar.mk.injEq .. ▸ Iff.rfl

/-! ### Laws of the numbers -/

theorem xor_two_pow_of_lt {n w : Nat} (fits : n < 2 ^ w) : n ^^^ 2 ^ w = n + 2 ^ w := by
  have join := Nat.two_pow_add_eq_or_of_lt fits 1
  rw [Nat.mul_one] at join
  rw [Nat.add_comm, join]
  refine Nat.eq_of_testBit_eq fun i => ?_
  rw [Nat.testBit_xor, Nat.testBit_or, Nat.testBit_two_pow]
  by_cases top : w = i
  · subst top
    simp [Nat.testBit_lt_two_pow fits]
  · simp [top]

theorem xor_two_pow_of_ge {n w : Nat} (fits : n < 2 ^ w) : (n + 2 ^ w) ^^^ 2 ^ w = n := by
  rw [← xor_two_pow_of_lt fits, Nat.xor_assoc, Nat.xor_self, Nat.xor_zero]

theorem lawful_number {α : Type} {c : Codec Byte α} {w : Nat} {flip : α → Nat}
    {unflip : Nat → α} (encode : c.encode = foldNumber w flip)
    (decode : c.decode = unfoldNumber w unflip) (size : c.size = w)
    (fits : ∀ x, flip x < 256 ^ w) (back : ∀ x, unflip (flip x) = x)
    (order : ∀ x y, c.Less x y ↔ flip x < flip y) : c.Lawful where
  round_trip := by
    intro x _ rest
    have bytes : (store w (bswap w (flip x))).length = w := length_store _ _
    rw [encode, decode, foldNumber, unfoldNumber, List.take_left' bytes, load_store (bswap_lt _ _),
      bswap_bswap (fits x), back, if_pos, bytes]
    rw [List.length_append]
    omega
  order := by
    intro x y _ _ rest rest'
    have same : x = y ↔ flip x = flip y := by
      constructor
      · exact congrArg flip
      · intro same
        rw [← back x, same, back]
    rw [encode, foldNumber, foldNumber, store_bswap, store_bswap,
      reverse_store_lt (fits x) (fits y), order, same]
  short := by
    intro x _
    rw [encode, size, foldNumber, length_store]

/-- With its sign bit flipped, a number counts from the least one. -/
theorem toNat_xor_sign {w : Nat} (b : BitVec (w + 1)) :
    ((b.toNat ^^^ 2 ^ w : Nat) : Int) = b.toInt + 2 ^ w := by
  have range := b.isLt
  have double : 2 ^ (w + 1) = 2 ^ w * 2 := Nat.pow_succ ..
  rw [BitVec.toInt_eq_toNat_cond]
  split
  next small =>
    rw [xor_two_pow_of_lt (by omega)]
    push_cast
    rfl
  next large =>
    obtain ⟨n, split⟩ := Nat.exists_eq_add_of_le' (show 2 ^ w ≤ b.toNat by omega)
    rw [split, xor_two_pow_of_ge (by omega), double]
    push_cast
    omega

theorem toUInt32_toInt64 (x : Integer) : x.toInt64.toUInt64.toUInt32 = x.toUInt32 := by
  apply UInt32.toBitVec_inj.mp
  change (x.toBitVec.signExtend 64).setWidth 32 = x.toBitVec
  ext i inside
  rw [BitVec.getElem_setWidth, BitVec.getLsbD_signExtend, if_pos inside, decide_eq_true (by omega),
    Bool.true_and, BitVec.getLsbD_eq_getElem]

theorem flipInteger_eq_xor (x : Integer) : flipInteger x = x.toUInt32.toNat ^^^ 2 ^ 31 := by
  rw [flipInteger, UInt64.toUInt32_xor, toUInt32_toInt64]
  exact UInt32.toNat_xor ..

theorem lawful_integer : integer.Lawful := by
  refine lawful_number rfl rfl rfl ?_ ?_ ?_
  · intro x
    exact UInt32.toNat_lt _
  · intro x
    rw [unflipInteger, flipInteger, UInt32.ofNat_toNat, UInt64.toUInt32_xor, UInt64.toUInt32_xor,
      UInt32.toUInt32_toUInt64, toUInt32_toInt64, UInt32.xor_assoc, UInt32.xor_self,
      UInt32.xor_zero, Int32.toInt32_toUInt32]
  · intro x y
    have left := toNat_xor_sign x.toBitVec
    have right := toNat_xor_sign y.toBitVec
    change x < y ↔ _
    rw [Int32.lt_iff_toInt_lt, flipInteger_eq_xor, flipInteger_eq_xor, ← Int.ofNat_lt]
    change _ ↔ ((x.toBitVec.toNat ^^^ 2 ^ 31 : Nat) : Int) < (y.toBitVec.toNat ^^^ 2 ^ 31 : Nat)
    rw [left, right]
    exact (Int.add_lt_add_iff_right _).symm

theorem lawful_timestamp : timestamp.Lawful := by
  refine lawful_number rfl rfl rfl ?_ ?_ ?_
  · intro x
    exact UInt64.toNat_lt _
  · intro x
    rw [unflipTimestamp, flipTimestamp, UInt64.ofNat_toNat, UInt64.xor_assoc, UInt64.xor_self,
      UInt64.xor_zero, Int64.toInt64_toUInt64]
  · intro x y
    have left := toNat_xor_sign x.toBitVec
    have right := toNat_xor_sign y.toBitVec
    change x < y ↔ (x.toUInt64 ^^^ _).toNat < (y.toUInt64 ^^^ _).toNat
    rw [Int64.lt_iff_toInt_lt, UInt64.toNat_xor, UInt64.toNat_xor, ← Int.ofNat_lt]
    change _ ↔ ((x.toBitVec.toNat ^^^ 2 ^ 63 : Nat) : Int) < (y.toBitVec.toNat ^^^ 2 ^ 63 : Nat)
    rw [left, right]
    exact (Int.add_lt_add_iff_right _).symm

/-! ### Laws of the strings -/

theorem idxOf_terminator {a : List Byte} (free : 0 ∉ a) (rest : List Byte) :
    (a ++ 0 :: rest).idxOf? 0 = some a.length := by
  induction a with
  | nil => rfl
  | cons x a ih =>
    rw [List.mem_cons, not_or] at free
    rw [List.cons_append, List.idxOf?_cons, if_neg, ih free.2, Option.map_some, List.length_cons]
    rw [beq_iff_eq]
    exact Ne.symm free.1

theorem lawful_varchar (len : Nat) : (varchar len).Lawful where
  round_trip := by
    intro x free rest
    change unfoldVarchar len (x.data ++ [0] ++ rest) = some (x, (x.data ++ [0]).length)
    rw [List.append_assoc, List.singleton_append, unfoldVarchar,
      idxOf_terminator free]
    simp only [Option.bind_eq_bind, Option.bind_some, List.take_left]
    rw [dif_pos x.fits, List.length_append, List.length_singleton]
  order := by
    intro x y free free' rest rest'
    change x.data ++ [0] ++ rest < y.data ++ [0] ++ rest' ↔ x.less y = true ∨ _
    rw [List.append_assoc, List.append_assoc, Varchar.less, less_iff, Varchar.ext_data]
    exact Codec.terminated_lt free free' rest rest'
  short := by
    intro x _
    have fits := x.fits
    change (x.data ++ [0]).length ≤ 2 + (len + 1) / 2 * 2
    rw [List.length_append, List.length_singleton]
    omega

end UringDb.Tpcc
