import UringDb.Lib.Ring

/-!
# Rings of provided buffers

`BufRing` of `utils/iou_bufring.hpp`. The ring that is shared with the kernel is liburing's: each
function gives the calls it makes into that library, and what `io_uring_buf_ring_mask` returns is
a parameter. The constructor walks a pointer over the buffers; the lookups multiply the 16-bit
id, which is promoted to `int`, by the 32-bit `buf_size`, and so compute modulo `2 ^ 32` before
they add the result to the 64-bit pointer. Offsets and counts of type `int` are natural numbers
here: they count buffers of a ring, of which there are at most 32768.
-/
namespace UringDb

def isPowerOfTwo (x : UInt32) : Bool := x != 0 && x &&& (x - 1) == 0

/-! ### The library -/

/-- What one call of `io_uring_buf_ring_add` describes. -/
structure IoUringBuf where
  addr : UInt64
  len : UInt32
  bid : UInt16
deriving DecidableEq

/-- The calls that fill the ring, with their arguments after `br`. -/
inductive RingCall where
  | add (entry : IoUringBuf) (mask : Int) (bufOffset : Nat)
  | advance (count : Nat)
deriving DecidableEq

/-- `struct io_uring_cqe`, of which only the flags are looked at. -/
structure IoUringCqe where
  flags : UInt32

/-- `cqe->flags >> IORING_CQE_BUFFER_SHIFT`. -/
def IoUringCqe.bid (cqe : IoUringCqe) : UInt16 := (cqe.flags >>> 16).toUInt16

/-! ### The code -/

/-- The constructor fails unless both checks pass. -/
structure BufRing where
  buf : UInt64
  nrBufs : UInt32
  bufSize : UInt32
  brMask : Int
  powerOfTwo : isPowerOfTwo nrBufs = true
  atMost : nrBufs ≤ 32768

namespace BufRing

/-- The loop of the constructor, with `left` rounds to go. -/
def registerLoop (r : BufRing) : Nat → UInt32 → UInt64 → List RingCall
  | 0, _, _ => []
  | left + 1, i, ptr =>
    .add ⟨ptr, r.bufSize, i.toUInt16⟩ r.brMask i.toNat ::
      r.registerLoop left (i + 1) (ptr + r.bufSize.toUInt64)

/-- The constructor, given the memory that was allocated for it. -/
def new (ioUringBufRingMask : UInt32 → Int) (buf : UInt64) (nrBufs bufSize : UInt32) :
    Option (BufRing × List RingCall) :=
  if accepted : isPowerOfTwo nrBufs = true ∧ nrBufs ≤ 32768 then
    let r : BufRing :=
      ⟨buf, nrBufs, bufSize, ioUringBufRingMask nrBufs, accepted.1, accepted.2⟩
    some (r, r.registerLoop nrBufs.toNat 0 buf ++ [.advance nrBufs.toNat])
  else none

/-- `ptr += bid * buf_size`, which all lookups share. -/
def address (r : BufRing) (bid : UInt16) : UInt64 :=
  r.buf + (bid.toUInt32 * r.bufSize).toUInt64

def addFromCqe (r : BufRing) (cqe : IoUringCqe) : List RingCall :=
  [.add ⟨r.address cqe.bid, r.bufSize, cqe.bid⟩ r.brMask 0, .advance 1]

def getBuffer (r : BufRing) (cqe : IoUringCqe) : UInt64 := r.address cqe.bid

/-- `bid = (bid + 1) & (nr_bufs - 1)`. -/
def nextBid (r : BufRing) (bid : UInt16) : UInt16 :=
  ((bid.toUInt32 + 1) &&& (r.nrBufs - 1)).toUInt16

/-- The loop of `add_bundle_from_cqe`, for a number of rounds; the call behind it advances by the
number of rounds that were made. -/
def bundleLoop (r : BufRing) : Nat → UInt16 → UInt32 → Nat → Option (List RingCall)
  | 0, _, _, _ => none
  | fuel + 1, bid, nBytes, nrBids =>
    if nBytes = 0 then some [.advance nrBids]
    else
      (r.bundleLoop fuel (r.nextBid bid) (if nBytes > r.bufSize then nBytes - r.bufSize else 0)
        (nrBids + 1)).map (.add ⟨r.address bid, r.bufSize, bid⟩ r.brMask nrBids :: ·)

def addBundleFromCqe (r : BufRing) (fuel : Nat) (cqe : IoUringCqe) (nBytes : UInt32) :
    Option (List RingCall) :=
  r.bundleLoop fuel cqe.bid nBytes 0

/-! ### What is asked for -/

/-- Entries added one behind the other and then handed over, as the library asks for: each at the
offset of those before it, all by one advance. -/
def handOver (r : BufRing) : List IoUringBuf → Nat → List RingCall
  | [], offset => [.advance offset]
  | entry :: rest, offset => .add entry r.brMask offset :: r.handOver rest (offset + 1)

/-- The number of buffers that `nBytes` bytes take. -/
def bundleSize (r : BufRing) (nBytes : UInt32) : Nat :=
  (nBytes.toNat + r.bufSize.toNat - 1) / r.bufSize.toNat

/-- Every id is registered once, and every lookup of an id gives the address it is registered
with. A bundle may have any size here: what counts is what it adds. -/
structure AddressesAgree (r : BufRing) (registered : List IoUringBuf) : Prop where
  ids : registered.map (fun entry => entry.bid.toNat) = List.range r.nrBufs.toNat
  getBuffer : ∀ entry ∈ registered, ∀ cqe : IoUringCqe, cqe.bid = entry.bid →
    r.getBuffer cqe = entry.addr
  addFromCqe : ∀ entry ∈ registered, ∀ cqe : IoUringCqe, cqe.bid = entry.bid →
    r.addFromCqe cqe = r.handOver [entry] 0
  addBundleFromCqe : ∀ fuel cqe nBytes calls, r.addBundleFromCqe fuel cqe nBytes = some calls →
    ∀ added mask offset, .add added mask offset ∈ calls →
      ∀ entry ∈ registered, added.bid = entry.bid → added = entry

/-- A bundle of no more bytes than the ring has is handed back whole: as many entries as it took
buffers, whose ids follow each other around the ring. -/
structure Recycled (r : BufRing) (cqe : IoUringCqe) (nBytes : UInt32) (entries : List IoUringBuf) :
    Prop where
  consecutive : entries.map (fun entry => entry.bid.toNat % r.nrBufs.toNat) =
    (List.range (r.bundleSize nBytes)).map fun k => (cqe.bid.toNat + k) % r.nrBufs.toNat
  once : (entries.map fun entry => entry.bid.toNat % r.nrBufs.toNat).Nodup
  inside : cqe.bid.toNat < r.nrBufs.toNat → ∀ entry ∈ entries, entry.bid.toNat < r.nrBufs.toNat

def BundlesRecycled (r : BufRing) : Prop :=
  ∀ cqe nBytes fuel, nBytes.toNat ≤ r.nrBufs.toNat * r.bufSize.toNat →
    r.bundleSize nBytes < fuel →
    ∃ entries, r.addBundleFromCqe fuel cqe nBytes = some (r.handOver entries 0) ∧
      r.Recycled cqe nBytes entries

variable (r : BufRing)

/-! ### Calls -/

theorem mem_handOver {entries : List IoUringBuf} {added : IoUringBuf} {mask : Int}
    {start offset : Nat} (called : .add added mask offset ∈ r.handOver entries start) :
    added ∈ entries := by
  induction entries generalizing start with
  | nil => cases List.mem_singleton.mp called
  | cons entry rest ih =>
    rcases List.mem_cons.mp called with first | later
    · cases first
      exact List.mem_cons_self
    · exact List.mem_cons_of_mem _ (ih later)

/-! ### Masks -/

theorem nrBufs_pos : 0 < r.nrBufs.toNat := by
  have checks := r.powerOfTwo
  rw [isPowerOfTwo, Bool.and_eq_true, bne_iff_ne] at checks
  refine Nat.pos_of_ne_zero fun zero => checks.1 ?_
  exact UInt32.toNat_inj.mp zero

theorem nrBufs_le : r.nrBufs.toNat ≤ 32768 := UInt32.le_iff_toNat_le.mp r.atMost

theorem toNat_pred : (r.nrBufs - 1).toNat = r.nrBufs.toNat - 1 :=
  UInt32.toNat_sub_of_le _ _ (UInt32.le_iff_toNat_le.mpr r.nrBufs_pos)

/-- The number of buffers is a power of two, so the mask takes the remainder. -/
theorem and_pred (x : Nat) : x &&& (r.nrBufs.toNat - 1) = x % r.nrBufs.toNat := by
  have checks := r.powerOfTwo
  rw [isPowerOfTwo, Bool.and_eq_true, beq_iff_eq] at checks
  have cleared : r.nrBufs.toNat &&& (r.nrBufs.toNat - 1) = 0 := by
    have words := congrArg UInt32.toNat checks.2
    rwa [UInt32.toNat_and, toNat_pred] at words
  obtain ⟨k, power⟩ := (Nat.and_sub_one_eq_zero_iff_isPowerOfTwo (Nat.ne_of_gt r.nrBufs_pos)).mp
    cleared
  rw [power, Nat.and_two_pow_sub_one_eq_mod]

theorem toNat_nextBid (bid : UInt16) :
    (r.nextBid bid).toNat = (bid.toNat + 1) % r.nrBufs.toNat := by
  have small := r.nrBufs_le
  have below := Nat.mod_lt (bid.toNat + 1) r.nrBufs_pos
  have narrow := bid.toNat_lt
  have sum : (bid.toUInt32 + 1).toNat = bid.toNat + 1 := by
    rw [UInt32.toNat_add, UInt16.toNat_toUInt32, UInt32.toNat_one, Nat.mod_eq_of_lt (by omega)]
  rw [nextBid, UInt32.toNat_toUInt16, UInt32.toNat_and, sum, toNat_pred, and_pred,
    Nat.mod_eq_of_lt (by omega)]

/-! ### Addresses -/

/-- What the constructor registers for an id. -/
def registration (k : Nat) : IoUringBuf :=
  ⟨r.buf + UInt64.ofNat (k * r.bufSize.toNat), r.bufSize, UInt16.ofNat k⟩

def entry (bid : UInt16) : IoUringBuf := ⟨r.address bid, r.bufSize, bid⟩

theorem registerLoop_eq (left : Nat) {i : UInt32} {ptr : UInt64}
    (rounds : i.toNat + left < 2 ^ 16)
    (walked : ptr = r.buf + UInt64.ofNat (i.toNat * r.bufSize.toNat)) :
    r.registerLoop left i ptr ++ [.advance (i.toNat + left)] =
      r.handOver ((List.range' i.toNat left).map r.registration) i.toNat := by
  induction left generalizing i ptr with
  | zero => rfl
  | succ left ih =>
    have next : (i + 1).toNat = i.toNat + 1 := by
      rw [UInt32.toNat_add, UInt32.toNat_one, Nat.mod_eq_of_lt (by omega)]
    have id : i.toUInt16 = UInt16.ofNat i.toNat := rfl
    have further : ptr + r.bufSize.toUInt64 =
        r.buf + UInt64.ofNat ((i + 1).toNat * r.bufSize.toNat) := by
      rw [walked, next, Nat.succ_mul, UInt64.ofNat_add, UInt64.add_assoc,
        UInt64.ofNat_uInt32ToNat]
    have rest := ih (by omega) further
    rw [next, Nat.add_assoc, Nat.add_comm 1] at rest
    rw [registerLoop, List.cons_append, rest, List.range'_succ, List.map_cons, handOver,
      registration, ← walked, id]

theorem new_calls {ringMask : UInt32 → Int} {buf : UInt64} {nrBufs bufSize : UInt32} {r : BufRing}
    {calls : List RingCall} (constructed : new ringMask buf nrBufs bufSize = some (r, calls)) :
    r.buf = buf ∧ r.nrBufs = nrBufs ∧ r.bufSize = bufSize ∧
      calls = r.handOver ((List.range r.nrBufs.toNat).map r.registration) 0 := by
  unfold new at constructed
  split at constructed
  next accepted =>
    simp only [Option.some.injEq, Prod.mk.injEq] at constructed
    obtain ⟨rfl, rfl⟩ := constructed
    refine ⟨rfl, rfl, rfl, ?_⟩
    generalize made : BufRing.mk buf nrBufs bufSize (ringMask nrBufs) accepted.1 accepted.2 = r
    have same : nrBufs = r.nrBufs := by rw [← made]
    have start : buf = r.buf + UInt64.ofNat ((0 : UInt32).toNat * r.bufSize.toNat) := by
      rw [UInt32.toNat_zero, Nat.zero_mul, ← made]
      exact (UInt64.add_zero buf).symm
    have small := r.nrBufs_le
    have calls := r.registerLoop_eq r.nrBufs.toNat (by rw [UInt32.toNat_zero]; omega) start
    rw [UInt32.toNat_zero, Nat.zero_add, ← List.range_eq_range'] at calls
    rw [same]
    exact calls
  next => cases constructed

theorem handOver_injective {entries others : List IoUringBuf} {offset : Nat}
    (same : r.handOver entries offset = r.handOver others offset) : entries = others := by
  induction entries generalizing others offset with
  | nil =>
    cases others with
    | nil => rfl
    | cons => cases (List.cons.inj same).1
  | cons entry rest ih =>
    cases others with
    | nil => cases (List.cons.inj same).1
    | cons =>
      obtain ⟨first, later⟩ := List.cons.inj same
      cases first
      rw [ih later]

/-- A lookup computes with 32 bits, so it agrees up to four gigabytes. -/
theorem address_eq_iff (bid : UInt16) :
    r.address bid = (r.registration bid.toNat).addr ↔ bid.toNat * r.bufSize.toNat < 2 ^ 32 := by
  have product : (bid.toUInt32 * r.bufSize).toUInt64.toNat =
      bid.toNat * r.bufSize.toNat % 2 ^ 32 := by
    rw [UInt32.toNat_toUInt64, UInt32.toNat_mul, UInt16.toNat_toUInt32]
  have fits : bid.toNat * r.bufSize.toNat < 2 ^ 64 := by
    have id := bid.toNat_lt
    have size := r.bufSize.toNat_lt
    calc bid.toNat * r.bufSize.toNat ≤ 2 ^ 16 * 2 ^ 32 :=
          Nat.mul_le_mul (Nat.le_of_lt id) (Nat.le_of_lt size)
      _ < 2 ^ 64 := by decide
  rw [address, registration, UInt64.add_right_inj, ← UInt64.toNat_inj, product,
    UInt64.toNat_ofNat_of_lt' fits]
  constructor
  · intro same
    rw [← same]
    exact Nat.mod_lt _ (Nat.two_pow_pos 32)
  · exact Nat.mod_eq_of_lt

/-- It suffices that the last buffer is reached. -/
theorem addresses_iff :
    (∀ bid : UInt16, bid.toNat < r.nrBufs.toNat → bid.toNat * r.bufSize.toNat < 2 ^ 32) ↔
      (r.nrBufs.toNat - 1) * r.bufSize.toNat < 2 ^ 32 := by
  have small := r.nrBufs_le
  have positive := r.nrBufs_pos
  constructor
  · intro all
    have last : (UInt16.ofNat (r.nrBufs.toNat - 1)).toNat = r.nrBufs.toNat - 1 :=
      UInt16.toNat_ofNat_of_lt' (by rw [UInt16.size]; omega)
    have reached := all (UInt16.ofNat (r.nrBufs.toNat - 1)) (by omega)
    rwa [last] at reached
  · intro reached bid below
    refine Nat.lt_of_le_of_lt (Nat.mul_le_mul_right _ ?_) reached
    omega

/-! ### Bundles -/

/-- The ids a bundle of a number of buffers goes through. -/
def bundleBids : UInt16 → Nat → List UInt16
  | _, 0 => []
  | bid, count + 1 => bid :: bundleBids (r.nextBid bid) count

theorem bundleSize_zero : r.bundleSize 0 = 0 := by
  rw [bundleSize, UInt32.toNat_zero, Nat.zero_add]
  rcases Nat.eq_zero_or_pos r.bufSize.toNat with none | size
  · rw [none, Nat.div_zero]
  · exact Nat.div_eq_of_lt (Nat.sub_lt size Nat.one_pos)

theorem bundleSize_step {nBytes : UInt32} (more : nBytes ≠ 0) (size : 0 < r.bufSize.toNat) :
    r.bundleSize nBytes =
      r.bundleSize (if nBytes > r.bufSize then nBytes - r.bufSize else 0) + 1 := by
  have positive : 0 < nBytes.toNat := by
    refine Nat.pos_of_ne_zero fun zero => more ?_
    exact UInt32.toNat_inj.mp zero
  split
  next above =>
    have less := UInt32.lt_iff_toNat_lt.mp above
    have rest : nBytes.toNat + r.bufSize.toNat - 1 =
        nBytes.toNat - r.bufSize.toNat + r.bufSize.toNat - 1 + r.bufSize.toNat := by omega
    rw [bundleSize, rest, Nat.add_div_right _ size, bundleSize,
      UInt32.toNat_sub_of_le _ _ (UInt32.le_of_lt above)]
  next within =>
    have le := Nat.le_of_not_lt fun less => within (UInt32.lt_iff_toNat_lt.mpr less)
    rw [bundleSize_zero, bundleSize, Nat.div_eq_iff size]
    omega

theorem bundleSize_le {nBytes : UInt32}
    (within : nBytes.toNat ≤ r.nrBufs.toNat * r.bufSize.toNat) :
    r.bundleSize nBytes ≤ r.nrBufs.toNat := by
  rcases Nat.eq_zero_or_pos r.bufSize.toNat with none | size
  · rw [bundleSize, none, Nat.div_zero]
    exact Nat.zero_le _
  · rw [bundleSize, ← Nat.lt_succ_iff, Nat.div_lt_iff_lt_mul size, Nat.succ_mul]
    omega

/-- Whatever the loop has done when it is over, it has added ids that follow each other. -/
theorem bundleLoop_calls {fuel : Nat} {bid : UInt16} {nBytes : UInt32} {nrBids : Nat}
    {calls : List RingCall} (over_ : r.bundleLoop fuel bid nBytes nrBids = some calls) :
    ∃ count, calls = r.handOver ((r.bundleBids bid count).map r.entry) nrBids := by
  induction fuel generalizing bid nBytes nrBids calls with
  | zero => cases over_
  | succ fuel ih =>
    unfold bundleLoop at over_
    split at over_
    · cases over_
      exact ⟨0, rfl⟩
    · obtain ⟨rest, later, rfl⟩ := Option.map_eq_some_iff.mp over_
      obtain ⟨count, rfl⟩ := ih later
      exact ⟨count + 1, rfl⟩

/-- The loop is over after as many rounds as the bytes take buffers. -/
theorem bundleLoop_returns {fuel : Nat} {bid : UInt16} {nBytes : UInt32} {nrBids : Nat}
    (size : nBytes ≠ 0 → 0 < r.bufSize.toNat) (enough : r.bundleSize nBytes < fuel) :
    r.bundleLoop fuel bid nBytes nrBids =
      some (r.handOver ((r.bundleBids bid (r.bundleSize nBytes)).map r.entry) nrBids) := by
  induction fuel generalizing bid nBytes nrBids with
  | zero => exact absurd enough (Nat.not_lt_zero _)
  | succ fuel ih =>
    unfold bundleLoop
    split
    next zero =>
      subst zero
      rw [bundleSize_zero]
      rfl
    next more =>
      have step := r.bundleSize_step more (size more)
      rw [step] at enough ⊢
      rw [ih (fun _ => size more) (Nat.lt_of_succ_lt_succ enough)]
      rfl

theorem bundleBids_consecutive (bid : UInt16) (count : Nat) :
    (r.bundleBids bid count).map (fun b => b.toNat % r.nrBufs.toNat) =
      (List.range count).map fun k => (bid.toNat + k) % r.nrBufs.toNat := by
  induction count generalizing bid with
  | zero => rfl
  | succ count ih =>
    rw [bundleBids, List.map_cons, ih, List.range_succ_eq_map, List.map_cons, List.map_map,
      Nat.add_zero]
    congr 1
    refine List.map_congr_left fun k _ => ?_
    rw [toNat_nextBid, Nat.mod_add_mod, Function.comp_apply, Nat.add_assoc, Nat.add_comm 1]

theorem bundleBids_inside {bid : UInt16} (inside : bid.toNat < r.nrBufs.toNat) (count : Nat) :
    ∀ b ∈ r.bundleBids bid count, b.toNat < r.nrBufs.toNat := by
  induction count generalizing bid with
  | zero =>
    intro b member
    cases member
  | succ count ih =>
    intro b member
    rcases List.mem_cons.mp member with rfl | later
    · exact inside
    · refine ih ?_ b later
      rw [toNat_nextBid]
      exact Nat.mod_lt _ r.nrBufs_pos

theorem bundlesRecycled : r.BundlesRecycled := by
  intro cqe nBytes fuel within enough
  have room := r.bundleSize_le within
  have size : nBytes ≠ 0 → 0 < r.bufSize.toNat := by
    intro more
    refine Nat.pos_of_ne_zero fun none => more (UInt32.toNat_inj.mp ?_)
    rw [none, Nat.mul_zero] at within
    exact Nat.le_zero.mp within
  refine ⟨_, r.bundleLoop_returns size enough, ?_⟩
  have consecutive : ((r.bundleBids cqe.bid (r.bundleSize nBytes)).map r.entry).map
      (fun entry => entry.bid.toNat % r.nrBufs.toNat) =
      (List.range (r.bundleSize nBytes)).map fun k => (cqe.bid.toNat + k) % r.nrBufs.toNat := by
    rw [List.map_map]
    exact r.bundleBids_consecutive _ _
  refine ⟨consecutive, ?_, ?_⟩
  · rw [consecutive]
    refine List.Nodup.map_on ?_ List.nodup_range
    intro k inside j inside' same
    exact Ring.add_inj (Nat.lt_of_lt_of_le (List.mem_range.mp inside) room)
      (Nat.lt_of_lt_of_le (List.mem_range.mp inside') room) same
  · intro inside entry member
    obtain ⟨b, listed, rfl⟩ := List.mem_map.mp member
    exact r.bundleBids_inside inside _ b listed

/-! ### Lookups -/

theorem registration_bid {k : Nat} (inside : k < r.nrBufs.toNat) :
    (r.registration k).bid.toNat = k := by
  have small := r.nrBufs_le
  exact UInt16.toNat_ofNat_of_lt' (by rw [UInt16.size]; omega)

/-- Up to four gigabytes a lookup registers what the constructor did. -/
theorem entry_eq_registration (reached : (r.nrBufs.toNat - 1) * r.bufSize.toNat < 2 ^ 32) {k : Nat}
    (inside : k < r.nrBufs.toNat) {bid : UInt16} (same : bid = (r.registration k).bid) :
    r.entry bid = r.registration k := by
  have id : bid.toNat = k := by rw [same, registration_bid r inside]
  have agrees := (r.address_eq_iff bid).mpr (r.addresses_iff.mpr reached bid (by omega))
  rw [id] at agrees
  rw [entry, agrees, same]
  rfl

theorem addressesAgree_of_reached (reached : (r.nrBufs.toNat - 1) * r.bufSize.toNat < 2 ^ 32) :
    r.AddressesAgree ((List.range r.nrBufs.toNat).map r.registration) where
  ids := by
    rw [List.map_map]
    refine (List.map_congr_left fun k member => ?_).trans (List.map_id _)
    exact r.registration_bid (List.mem_range.mp member)
  getBuffer entry member cqe same := by
    obtain ⟨k, inside, rfl⟩ := List.mem_map.mp member
    exact congrArg IoUringBuf.addr
      (r.entry_eq_registration reached (List.mem_range.mp inside) same)
  addFromCqe entry member cqe same := by
    obtain ⟨k, inside, rfl⟩ := List.mem_map.mp member
    rw [← r.entry_eq_registration reached (List.mem_range.mp inside) same]
    rfl
  addBundleFromCqe fuel cqe nBytes calls bundle added mask offset called entry member same := by
    obtain ⟨k, inside, rfl⟩ := List.mem_map.mp member
    obtain ⟨count, rfl⟩ := r.bundleLoop_calls bundle
    obtain ⟨bid, -, rfl⟩ := List.mem_map.mp (r.mem_handOver called)
    exact r.entry_eq_registration reached (List.mem_range.mp inside) same

def cqeOf (bid : UInt16) : IoUringCqe := ⟨bid.toUInt32 <<< 16⟩

theorem bid_cqeOf (bid : UInt16) : (cqeOf bid).bid = bid := by
  have narrow := bid.toNat_lt
  have shift : (16 : UInt32).toNat % 32 = 16 := rfl
  apply UInt16.toNat_inj.mp
  rw [cqeOf, IoUringCqe.bid, UInt32.toNat_toUInt16, UInt32.toNat_shiftRight, UInt32.toNat_shiftLeft,
    shift, UInt16.toNat_toUInt32, Nat.shiftLeft_eq, Nat.shiftRight_eq_div_pow]
  omega

theorem reached_of_agree
    (agree : r.AddressesAgree ((List.range r.nrBufs.toNat).map r.registration)) :
    (r.nrBufs.toNat - 1) * r.bufSize.toNat < 2 ^ 32 := by
  refine r.addresses_iff.mp fun bid below => (r.address_eq_iff bid).mp ?_
  have member := List.mem_map_of_mem (f := r.registration) (List.mem_range.mpr below)
  have id : bid = (r.registration bid.toNat).bid :=
    UInt16.toNat_inj.mp (r.registration_bid below).symm
  have found := agree.getBuffer _ member (cqeOf bid) ((bid_cqeOf bid).trans id)
  rwa [BufRing.getBuffer, bid_cqeOf] at found

/-- Addresses agree and bundles are recycled exactly when the last buffer starts below four
gigabytes; only the addresses depend on it. -/
theorem addresses_and_bundles_iff {ringMask : UInt32 → Int} {buf : UInt64}
    {nrBufs bufSize : UInt32} {r : BufRing} {calls : List RingCall}
    (constructed : new ringMask buf nrBufs bufSize = some (r, calls)) :
    (∃ registered, calls = r.handOver registered 0 ∧ r.AddressesAgree registered) ∧
        r.BundlesRecycled ↔ (nrBufs.toNat - 1) * bufSize.toNat < 2 ^ 32 := by
  obtain ⟨-, rfl, rfl, rfl⟩ := new_calls constructed
  constructor
  · rintro ⟨⟨registered, same, agree⟩, -⟩
    rw [← r.handOver_injective same] at agree
    exact r.reached_of_agree agree
  · intro reached
    exact ⟨⟨_, rfl, r.addressesAgree_of_reached reached⟩, r.bundlesRecycled⟩

/-- The mask as liburing documents it. -/
def entriesMask (ringEntries : UInt32) : Int := ringEntries.toNat - 1

theorem addresses_and_bundles_pages :
    ∃ r calls, new entriesMask 4096 64 65536 = some (r, calls) ∧
      (∃ registered, calls = r.handOver registered 0 ∧ r.AddressesAgree registered) ∧
      r.BundlesRecycled := by
  obtain ⟨r, calls, constructed⟩ : ∃ r calls, new entriesMask 4096 64 65536 = some (r, calls) :=
    ⟨_, _, rfl⟩
  exact ⟨r, calls, constructed, (addresses_and_bundles_iff constructed).mpr (by decide)⟩

/-- 32768 buffers of 256 kilobytes: the constructor puts buffer 16384 four gigabytes behind the
first one, and `get_buffer` returns the first one for it. -/
theorem getBuffer_wraps : ∃ r registered,
    new entriesMask 4096 32768 262144 = some (r, r.handOver registered 0) ∧
    (⟨4096 + 2 ^ 32, 262144, 16384⟩ : IoUringBuf) ∈ registered ∧
    (cqeOf 16384).bid = 16384 ∧ r.getBuffer (cqeOf 16384) = 4096 := by
  obtain ⟨r, calls, constructed⟩ :
      ∃ r calls, new entriesMask 4096 32768 262144 = some (r, calls) := ⟨_, _, rfl⟩
  obtain ⟨buf, count, size, rfl⟩ := new_calls constructed
  refine ⟨r, _, constructed, ?_, bid_cqeOf 16384, ?_⟩
  · rw [count]
    refine List.mem_map.mpr ⟨16384, List.mem_range.mpr (by decide), ?_⟩
    rw [registration, buf, size]
    decide
  · rw [getBuffer, bid_cqeOf, address, buf, size]
    decide

end BufRing

end UringDb
