import UringDb.Lib.Spans
import UringDb.Remotescan.EpollServer

/-!
# The drives of a server

The constructor of `RaidLayout` in `remotescan/raid.cpp`, and what `RaidLayout::map` makes of the
offsets of requests. Stripes go round the drives, and a drive that is too small for its rounds
begins again at its first stripe.
-/
namespace UringDb.Remotescan

/-- `usable_bytes`: whole stripes. -/
def usableBytesOf (cfg : Config) (logicalBytes : Nat) : Nat :=
  logicalBytes - logicalBytes % cfg.stripeSize

/-- The constructor, with the sizes the drives report. A stripe size of zero has no remainders. -/
def RaidLayout.new (cfg : Config) (logicalBytes : List Nat)
    (each : logicalBytes.length = cfg.ssds.length) : Option (RaidLayout cfg) :=
  if fits : ∀ bytes ∈ logicalBytes, 0 < cfg.stripeSize ∧
      cfg.stripeSize ≤ usableBytesOf cfg bytes then
    some
      { usableBytes := logicalBytes.map (usableBytesOf cfg)
        count := by rw [List.length_map, each]
        usable := by
          intro usable member
          obtain ⟨bytes, listed, rfl⟩ := List.mem_map.mp member
          exact (fits bytes listed).2 }
  else none

/-- The smallest `usable_bytes`. -/
def RaidLayout.smallest {cfg : Config} (raid : RaidLayout cfg) : Nat :=
  raid.usableBytes.min?.getD 0

variable {cfg : Config} {raid : RaidLayout cfg}

/-! ### What the constructor leaves -/

/-- Every drive has whole stripes, at least one. -/
structure RaidLayout.Striped (raid : RaidLayout cfg) : Prop where
  stripe : raid.usableBytes ≠ [] → 0 < cfg.stripeSize
  whole : ∀ bytes ∈ raid.usableBytes, cfg.stripeSize ∣ bytes

theorem RaidLayout.striped_of_new {logicalBytes : List Nat}
    {each : logicalBytes.length = cfg.ssds.length}
    (built : RaidLayout.new cfg logicalBytes each = some raid) : raid.Striped := by
  unfold RaidLayout.new at built
  split at built <;> cases built
  next fits =>
    constructor
    · intro some
      obtain ⟨bytes, member⟩ := List.exists_mem_of_ne_nil _ (mt List.map_eq_nil_iff.mpr some)
      exact (fits bytes member).1
    · intro usable member
      obtain ⟨bytes, -, rfl⟩ := List.mem_map.mp member
      exact Nat.dvd_sub_mod bytes

theorem RaidLayout.bytesOf_mem {i : Nat} (inside : i < raid.usableBytes.length) :
    raid.bytesOf i ∈ raid.usableBytes := by
  rw [RaidLayout.bytesOf, List.getD_eq_getElem _ _ inside]
  exact List.getElem_mem inside

theorem RaidLayout.smallest_le {bytes : Nat} (member : bytes ∈ raid.usableBytes) :
    raid.smallest ≤ bytes := by
  obtain ⟨least, found⟩ := Option.isSome_iff_exists.mp
    (List.isSome_min?_of_mem member)
  rw [RaidLayout.smallest, found, Option.getD_some]
  exact (List.min?_eq_some_iff.mp found).2 bytes member

/-! ### Where a request goes -/

/-- Where `map` puts an offset, without the wrapping of 64-bit numbers. -/
def RaidLayout.place (raid : RaidLayout cfg) (offset : Nat) : StripeAddress :=
  let drives := raid.usableBytes.length
  let stripeNr := offset / cfg.stripeSize
  ⟨stripeNr % drives,
    stripeNr / drives * cfg.stripeSize % raid.bytesOf (stripeNr % drives) +
      offset % cfg.stripeSize⟩

theorem rounds_le (offset stripe drives : Nat) :
    offset / stripe / drives * stripe + offset % stripe ≤ offset := by
  have rounds := Nat.mul_le_mul_right stripe (Nat.div_le_self (offset / stripe) drives)
  have parts := Nat.div_add_mod' offset stripe
  omega

theorem RaidLayout.map_eq_some_iff {offset len : Nat} {address : StripeAddress}
    (word : offset < 2 ^ 64) : raid.map offset len = some address ↔
      raid.usableBytes ≠ [] ∧ offset % kBlockSize = 0 ∧ len % kBlockSize = 0 ∧
        offset % cfg.stripeSize + len ≤ cfg.stripeSize ∧ raid.place offset = address := by
  have rounds := rounds_le offset cfg.stripeSize raid.usableBytes.length
  have base := Nat.mod_le (offset / cfg.stripeSize / raid.usableBytes.length * cfg.stripeSize)
    (raid.bytesOf (offset / cfg.stripeSize % raid.usableBytes.length))
  have small : offset / cfg.stripeSize / raid.usableBytes.length * cfg.stripeSize < 2 ^ 64 := by
    omega
  simp only [RaidLayout.map, guard_bind_eq_some_iff, Option.some.injEq]
  rw [Nat.mod_eq_of_lt small, Nat.mod_eq_of_lt (a := _ + _) (by omega)]
  rfl

theorem RaidLayout.Striped.place_le (striped : raid.Striped) {offset len : Nat}
    (drives : raid.usableBytes ≠ []) (fits : offset % cfg.stripeSize + len ≤ cfg.stripeSize) :
    (raid.place offset).ssdIdx < raid.usableBytes.length ∧
      (raid.place offset).driveOffset + len ≤ raid.bytesOf (raid.place offset).ssdIdx := by
  have inside := Nat.mod_lt (offset / cfg.stripeSize) (List.length_pos_iff.mpr drives)
  refine ⟨inside, ?_⟩
  have member := RaidLayout.bytesOf_mem inside
  have whole := striped.whole _ member
  have positive := lt_of_lt_of_le (striped.stripe drives) (raid.usable _ member)
  -- the round begins at a stripe of the drive, which has room for it
  have aligned : cfg.stripeSize ∣ offset / cfg.stripeSize / raid.usableBytes.length *
      cfg.stripeSize % raid.bytesOf (offset / cfg.stripeSize % raid.usableBytes.length) :=
    (Nat.dvd_mod_iff whole).mpr (Nat.dvd_mul_left ..)
  have room := add_le_of_dvd aligned whole (Nat.mod_lt _ positive)
  unfold RaidLayout.place
  dsimp only
  omega

/-- Below the end of the smallest drive no drive begins again. -/
theorem RaidLayout.place_of_lt {offset : Nat} (drives : raid.usableBytes ≠ [])
    (below : offset < raid.usableBytes.length * raid.smallest) :
    raid.place offset = ⟨offset / cfg.stripeSize % raid.usableBytes.length,
      offset / cfg.stripeSize / raid.usableBytes.length * cfg.stripeSize +
        offset % cfg.stripeSize⟩ := by
  have some := List.length_pos_iff.mpr drives
  have least := RaidLayout.smallest_le (RaidLayout.bytesOf_mem
    (Nat.mod_lt (offset / cfg.stripeSize) some))
  have rounds : offset / cfg.stripeSize / raid.usableBytes.length * cfg.stripeSize *
      raid.usableBytes.length ≤ offset := by
    rw [Nat.mul_right_comm]
    exact le_trans (Nat.mul_le_mul_right _ (Nat.div_mul_le_self _ _)) (Nat.div_mul_le_self _ _)
  have less : offset / cfg.stripeSize / raid.usableBytes.length * cfg.stripeSize <
      raid.smallest := by
    rw [Nat.mul_comm raid.usableBytes.length] at below
    exact Nat.lt_of_mul_lt_mul_right (lt_of_le_of_lt rounds below)
  unfold RaidLayout.place
  dsimp only
  rw [Nat.mod_eq_of_lt (lt_of_lt_of_le less least)]

/-- A drive, a round and a place in the stripe come from one offset only. -/
theorem offset_unique {stripe drives x y : Nat} (positive : 0 < stripe)
    (drive : x / stripe % drives = y / stripe % drives)
    (place : x / stripe / drives * stripe + x % stripe =
      y / stripe / drives * stripe + y % stripe) : x = y := by
  have inStripe : x % stripe = y % stripe := by
    have taken := congrArg (· % stripe) place
    simpa only [Nat.mul_add_mod_self_right, Nat.mod_mod] using taken
  have round : x / stripe / drives = y / stripe / drives := by
    rw [inStripe, Nat.add_right_cancel_iff] at place
    exact Nat.eq_of_mul_eq_mul_right positive place
  have number : x / stripe = y / stripe := by
    rw [← Nat.div_add_mod (x / stripe) drives, ← Nat.div_add_mod (y / stripe) drives, round, drive]
  rw [← Nat.div_add_mod x stripe, ← Nat.div_add_mod y stripe, number, inStripe]

theorem apart_of_blocks {x y : Nat} (first : x % kBlockSize = 0) (second : y % kBlockSize = 0)
    (ne : x ≠ y) : Span.Apart ⟨x, kBlockSize⟩ ⟨y, kBlockSize⟩ := by
  simp only [Span.Apart, Span.stop, kBlockSize] at *
  omega

theorem RaidLayout.place_blocks {offset : Nat} (drives : raid.usableBytes ≠ [])
    (stripe : cfg.stripeSize % kBlockSize = 0) (block : offset % kBlockSize = 0)
    (below : offset < raid.usableBytes.length * raid.smallest) :
    (raid.place offset).driveOffset % kBlockSize = 0 := by
  rw [RaidLayout.place_of_lt drives below]
  have stripes := Nat.dvd_of_mod_eq_zero stripe
  apply Nat.mod_eq_zero_of_dvd
  apply Dvd.dvd.add (Dvd.dvd.mul_left stripes _)
  exact (Nat.dvd_mod_iff stripes).mpr (Nat.dvd_of_mod_eq_zero block)

/-- **The mapping stays on the drives and gives every block its own place.** -/
theorem raid_mapping (cfg : Config) (logicalBytes : List Nat)
    (each : logicalBytes.length = cfg.ssds.length) (raid : RaidLayout cfg)
    (built : RaidLayout.new cfg logicalBytes each = some raid)
    (stripe : cfg.stripeSize % kBlockSize = 0) :
    (∀ offset len address, offset < 2 ^ 64 → raid.map offset len = some address →
      address.ssdIdx < raid.usableBytes.length ∧
      address.driveOffset + len ≤ raid.bytesOf address.ssdIdx) ∧
    (∀ x y, x < 2 ^ 64 → y < 2 ^ 64 → x % kBlockSize = 0 → y % kBlockSize = 0 → x ≠ y →
      x < raid.usableBytes.length * raid.smallest → y < raid.usableBytes.length * raid.smallest →
      ∃ a b, raid.map x kBlockSize = some a ∧ raid.map y kBlockSize = some b ∧
        (a.ssdIdx = b.ssdIdx →
          Span.Apart ⟨a.driveOffset, kBlockSize⟩ ⟨b.driveOffset, kBlockSize⟩)) := by
  have striped := RaidLayout.striped_of_new built
  constructor
  · intro offset len address word mapped
    obtain ⟨drives, -, -, fits, rfl⟩ := (RaidLayout.map_eq_some_iff word).mp mapped
    exact striped.place_le drives fits
  · intro x y wordX wordY blockX blockY ne belowX belowY
    have drives : raid.usableBytes ≠ [] := by
      intro none
      rw [none, List.length_nil, Nat.zero_mul] at belowX
      exact absurd belowX (Nat.not_lt_zero x)
    have positive := striped.stripe drives
    have whole := Nat.dvd_of_mod_eq_zero stripe
    have accepted : ∀ z, z < 2 ^ 64 → z % kBlockSize = 0 →
        raid.map z kBlockSize = some (raid.place z) := by
      intro z word block
      refine (RaidLayout.map_eq_some_iff word).mpr ⟨drives, block, Nat.mod_self _, ?_, rfl⟩
      exact fits_of_dvd whole (Nat.dvd_of_mod_eq_zero block) positive
    refine ⟨_, _, accepted x wordX blockX, accepted y wordY blockY, fun drive => ?_⟩
    refine apart_of_blocks (RaidLayout.place_blocks drives stripe blockX belowX)
      (RaidLayout.place_blocks drives stripe blockY belowY) fun place => ne ?_
    rw [RaidLayout.place_of_lt drives belowX, RaidLayout.place_of_lt drives belowY] at drive place
    exact offset_unique positive drive place

def unequalDrives : Config := { twoRequests .server 16384 with ssds := ["first", "second"] }

def unequalRaid : RaidLayout unequalDrives where
  usableBytes := [32768, 65536]
  count := rfl
  usable := by
    intro bytes member
    rcases List.mem_cons.mp member with rfl | other
    · decide
    · rw [List.mem_singleton.mp other]
      decide

theorem raid_mapping_unequal :
    RaidLayout.new unequalDrives [40000, 70000] rfl = some unequalRaid ∧
    (∃ a b, unequalRaid.map 0 kBlockSize = some a ∧ unequalRaid.map 16384 kBlockSize = some b ∧
      (a.ssdIdx = b.ssdIdx →
        Span.Apart ⟨a.driveOffset, kBlockSize⟩ ⟨b.driveOffset, kBlockSize⟩)) := by
  have built : RaidLayout.new unequalDrives [40000, 70000] rfl = some unequalRaid := rfl
  have mapping := raid_mapping unequalDrives [40000, 70000] rfl unequalRaid built (by decide)
  exact ⟨built, mapping.2 0 16384 (by decide) (by decide) (by decide) (by decide) (by decide)
    (by decide) (by decide)⟩

end UringDb.Remotescan
