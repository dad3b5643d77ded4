import UringDb.Lib.Guard
import UringDb.Lib.Spans

/-!
# Where pages are on the devices and in the registered buffers

`BufferManager::ssd_target` of `buffer_mgr/mt/bm.cpp` with the commands of `utils/nvme.hpp`, and the
buffers that `buffer_mgr/bm.cpp` and `buffer_mgr/mt/bm.cpp` register for the memory of the pool. A
frame is found in them by a division, while the registration adds up lengths.
-/
namespace UringDb

def pageSize : Nat := 4096

namespace BufferMgr

/-! ### Devices -/

/-- An entry of `ssd_fds`, `device_nsids` and `device_lba_shifts`, which are filled together. -/
structure Device where
  fd : Int
  nsid : Nat
  lbaShift : Nat
deriving DecidableEq

structure SSDTarget where
  ssdIdx : Nat
  fd : Int
  offset : Nat
  nsid : Nat
  lbaShift : Nat
deriving DecidableEq

def ssdTarget (ssds : List Device) (pid : Nat) : Option SSDTarget := do
  guard (ssds ≠ [])
  let ssdIdx := pid % ssds.length
  let offset := pid / ssds.length * pageSize % 2 ^ 64
  let device ← ssds[ssdIdx]?
  some ⟨ssdIdx, device.fd, offset, device.nsid, device.lbaShift⟩

inductive NvmeOpcode
  | read | write
deriving DecidableEq

/-- The fields of `nvme_uring_cmd` that are set; `addr` is the frame. -/
structure NvmeUringCmd where
  opcode : NvmeOpcode
  cdw10 : Nat
  cdw11 : Nat
  cdw12 : Nat
  addr : Nat
  dataLen : Nat
  nsid : Nat
deriving DecidableEq

/-- What both preparations do. The words of a command have 32 bits. -/
def prepNvme (opcode : NvmeOpcode) (buf len offset nsidValue lbaShiftValue : Nat) :
    NvmeUringCmd :=
  let slba := offset >>> lbaShiftValue
  let nlb := ((len >>> lbaShiftValue) + 2 ^ 32 - 1) % 2 ^ 32
  { opcode
    cdw10 := (slba &&& 0xffffffff) % 2 ^ 32
    cdw11 := (slba >>> 32) % 2 ^ 32
    cdw12 := nlb
    addr := buf
    dataLen := len
    nsid := nsidValue }

def prepNvmeRead (buf len offset nsidValue lbaShiftValue : Nat) : NvmeUringCmd :=
  prepNvme .read buf len offset nsidValue lbaShiftValue

def prepNvmeWrite (buf len offset nsidValue lbaShiftValue : Nat) : NvmeUringCmd :=
  prepNvme .write buf len offset nsidValue lbaShiftValue

def NvmeUringCmd.slba (cmd : NvmeUringCmd) : Nat := cmd.cdw11 * 2 ^ 32 + cmd.cdw10

def NvmeUringCmd.blocks (cmd : NvmeUringCmd) : Nat := cmd.cdw12 + 1

/-- The bytes a command is about, on a device with blocks of `2 ^ lbaShift` bytes. -/
def NvmeUringCmd.bytes (cmd : NvmeUringCmd) (lbaShift : Nat) : Span :=
  ⟨cmd.slba * 2 ^ lbaShift, cmd.blocks * 2 ^ lbaShift⟩

theorem words_eq {slba : Nat} (fits : slba < 2 ^ 64) :
    (slba >>> 32) % 2 ^ 32 * 2 ^ 32 + (slba &&& 0xffffffff) % 2 ^ 32 = slba := by
  have low : slba &&& 0xffffffff = slba % 2 ^ 32 := Nat.and_two_pow_sub_one_eq_mod slba 32
  rw [low, Nat.mod_mod, Nat.shiftRight_eq_div_pow, Nat.mod_eq_of_lt (by omega),
    Nat.div_add_mod']

theorem prepNvme_page {opcode : NvmeOpcode} {buf offset nsid shift : Nat}
    (small : shift ≤ 12) (page : pageSize ∣ offset) (fits : offset < 2 ^ 64) :
    (prepNvme opcode buf pageSize offset nsid shift).slba = offset / 2 ^ shift ∧
      (prepNvme opcode buf pageSize offset nsid shift).blocks = pageSize / 2 ^ shift ∧
      (prepNvme opcode buf pageSize offset nsid shift).bytes shift = ⟨offset, pageSize⟩ := by
  have whole : 2 ^ shift ∣ pageSize := Nat.pow_dvd_pow 2 small
  have start : (prepNvme opcode buf pageSize offset nsid shift).slba = offset / 2 ^ shift := by
    have word : offset >>> shift < 2 ^ 64 := by
      rw [Nat.shiftRight_eq_div_pow]
      exact lt_of_le_of_lt (Nat.div_le_self ..) fits
    rw [← Nat.shiftRight_eq_div_pow]
    exact words_eq word
  have blocks : (prepNvme opcode buf pageSize offset nsid shift).blocks =
      pageSize / 2 ^ shift := by
    have some := Nat.div_pos (Nat.le_of_dvd (by decide) whole) (Nat.two_pow_pos shift)
    have few : pageSize / 2 ^ shift ≤ 4096 := Nat.div_le_self ..
    change ((pageSize >>> shift) + 2 ^ 32 - 1) % 2 ^ 32 + 1 = _
    rw [Nat.shiftRight_eq_div_pow]
    omega
  refine ⟨start, blocks, ?_⟩
  rw [NvmeUringCmd.bytes, start, blocks, Nat.div_mul_cancel (whole.trans page),
    Nat.div_mul_cancel whole]

variable {ssds : List Device}

theorem ssdTarget_eq (nonempty : ssds ≠ []) {pid : Nat} (small : pid < 2 ^ 40) :
    ∃ device, ssds[pid % ssds.length]? = some device ∧ ssdTarget ssds pid = some
      ⟨pid % ssds.length, device.fd, pid / ssds.length * pageSize, device.nsid,
        device.lbaShift⟩ := by
  have inside := Nat.mod_lt pid (List.length_pos_iff.mpr nonempty)
  have listed := List.getElem?_eq_getElem inside
  have offset : pid / ssds.length * pageSize < 2 ^ 64 := by
    have round := Nat.div_le_self pid ssds.length
    unfold pageSize
    omega
  refine ⟨_, listed, ?_⟩
  rw [ssdTarget, guard_bind, if_pos nonempty]
  dsimp only
  rw [listed, Nat.mod_eq_of_lt offset]
  rfl

/-- **A page has its own bytes on its SSD**, and the commands name just these. -/
theorem page_addressing (ssds : List Device) (nonempty : ssds ≠ [])
    (shifts : ∀ device ∈ ssds, 9 ≤ device.lbaShift ∧ device.lbaShift ≤ 12) :
    (∀ pid < 2 ^ 40, ∃ target device, ssdTarget ssds pid = some target ∧
      ssds[pid % ssds.length]? = some device ∧ target.ssdIdx = pid % ssds.length ∧
      target.fd = device.fd ∧ target.nsid = device.nsid ∧
      target.offset = pid / ssds.length * pageSize ∧
      ∀ buf, ∀ cmd ∈ [prepNvmeRead buf pageSize target.offset target.nsid target.lbaShift,
          prepNvmeWrite buf pageSize target.offset target.nsid target.lbaShift],
        cmd.slba = target.offset / 2 ^ device.lbaShift ∧
        cmd.blocks = pageSize / 2 ^ device.lbaShift ∧
        cmd.bytes device.lbaShift = ⟨target.offset, pageSize⟩) ∧
    (∀ pid < 2 ^ 40, ∀ other < 2 ^ 40, pid ≠ other → ∀ a b, ssdTarget ssds pid = some a →
      ssdTarget ssds other = some b → a.ssdIdx = b.ssdIdx →
      Span.Apart ⟨a.offset, pageSize⟩ ⟨b.offset, pageSize⟩) := by
  constructor
  · intro pid small
    obtain ⟨device, listed, located⟩ := ssdTarget_eq nonempty small
    refine ⟨_, device, located, listed, rfl, rfl, rfl, rfl, fun buf cmd member => ?_⟩
    have shift := (shifts device (List.mem_of_getElem? listed)).2
    have round := Nat.div_le_self pid ssds.length
    have page : pageSize ∣ pid / ssds.length * pageSize := Nat.dvd_mul_left ..
    have fits : pid / ssds.length * pageSize < 2 ^ 64 := by
      unfold pageSize
      omega
    rcases List.mem_cons.mp member with rfl | other
    · exact prepNvme_page shift page fits
    · rw [List.mem_singleton.mp other]
      exact prepNvme_page shift page fits
  · intro pid small other small' ne a b first second same
    obtain ⟨device, -, located⟩ := ssdTarget_eq nonempty small
    obtain ⟨device', -, located'⟩ := ssdTarget_eq nonempty small'
    cases first.symm.trans located
    cases second.symm.trans located'
    -- pages of one SSD differ in their round
    have rounds : pid / ssds.length ≠ other / ssds.length := by
      intro round
      apply ne
      rw [← Nat.div_add_mod pid ssds.length, ← Nat.div_add_mod other ssds.length, round]
      exact congrArg _ same
    simp only [Span.Apart, Span.stop, pageSize]
    omega

def twoSsds : List Device := [⟨5, 1, 9⟩, ⟨6, 1, 12⟩]

theorem page_addressing_two : twoSsds ≠ [] ∧
    ssdTarget twoSsds 7 = some ⟨1, 6, 12288, 1, 12⟩ ∧
    ∃ target device, ssdTarget twoSsds 7 = some target ∧ twoSsds[1]? = some device ∧
      (prepNvmeRead 0 pageSize target.offset target.nsid target.lbaShift).bytes device.lbaShift =
        ⟨target.offset, pageSize⟩ := by
  have nonempty : twoSsds ≠ [] := by decide
  refine ⟨nonempty, by decide, ?_⟩
  obtain ⟨target, device, located, listed, -, -, -, -, commands⟩ :=
    (page_addressing twoSsds nonempty (by decide)).1 7 (by decide)
  exact ⟨target, device, located, listed, (commands 0 _ List.mem_cons_self).2.2⟩

/-! ### Registered buffers -/

def regBufSize : Nat := 2 ^ 30

/-- The iovecs from `offset` on, by their distance from `pages`. -/
def iovecs (memSize : Nat) : Nat → Nat → List Span
  | 0, _ => []
  | n + 1, offset =>
    let len := min regBufSize ((memSize + 2 ^ 64 - offset) % 2 ^ 64)
    ⟨offset, len⟩ :: iovecs memSize n ((offset + len) % 2 ^ 64)

def numBufs (pageCount : Nat) : Nat :=
  (pageCount * pageSize % 2 ^ 64 + regBufSize - 1) / regBufSize % 2 ^ 32

/-- The iovecs that both versions register for a pool. -/
def registerBuffers (pageCount : Nat) : List Span :=
  iovecs (pageCount * pageSize % 2 ^ 64) (numBufs pageCount) 0

def bufIdx (bid : Nat) : Nat := bid * pageSize % 2 ^ 64 / regBufSize

/-- Where the iovec `i` begins in `memSize` bytes. -/
def iovStart (memSize i : Nat) : Nat := min (i * regBufSize) memSize

def iovLen (memSize i : Nat) : Nat := min regBufSize (memSize - iovStart memSize i)

theorem iovStart_succ (memSize i : Nat) :
    iovStart memSize (i + 1) = iovStart memSize i + iovLen memSize i := by
  unfold iovStart iovLen iovStart
  rw [Nat.succ_mul]
  omega

theorem iovecs_eq {memSize : Nat} (fits : memSize < 2 ^ 63) (n k : Nat) :
    iovecs memSize n (iovStart memSize k) =
      (List.range' k n).map fun i => ⟨iovStart memSize i, iovLen memSize i⟩ := by
  induction n generalizing k with
  | zero => rfl
  | succ n ih =>
    have before : iovStart memSize k ≤ memSize := Nat.min_le_right ..
    have next : iovStart memSize (k + 1) ≤ memSize := Nat.min_le_right ..
    have left : (memSize + 2 ^ 64 - iovStart memSize k) % 2 ^ 64 =
        memSize - iovStart memSize k := by omega
    have added : (iovStart memSize k + iovLen memSize k) % 2 ^ 64 =
        iovStart memSize (k + 1) := by
      rw [← iovStart_succ]
      omega
    rw [List.range'_succ, List.map_cons, ← ih, iovecs, left, ← added]
    rfl

section Pool

variable {pageCount : Nat}

theorem memSize_eq (small : pageCount < 2 ^ 40) :
    pageCount * pageSize % 2 ^ 64 = pageCount * pageSize := by
  unfold pageSize
  omega

theorem registerBuffers_eq (small : pageCount < 2 ^ 40) :
    registerBuffers pageCount = (List.range (numBufs pageCount)).map fun i =>
      ⟨iovStart (pageCount * pageSize) i, iovLen (pageCount * pageSize) i⟩ := by
  have fits : pageCount * pageSize < 2 ^ 63 := by
    unfold pageSize
    omega
  have start : iovStart (pageCount * pageSize) 0 = 0 := by
    rw [iovStart, Nat.zero_mul, Nat.zero_min]
  rw [registerBuffers, memSize_eq small, List.range_eq_range', ← iovecs_eq fits, start]

theorem numBufs_bounds (small : pageCount < 2 ^ 40) :
    pageCount * pageSize ≤ numBufs pageCount * regBufSize ∧
      numBufs pageCount * regBufSize < pageCount * pageSize + regBufSize := by
  rw [numBufs, memSize_eq small]
  unfold pageSize regBufSize
  omega

theorem lt_numBufs (small : pageCount < 2 ^ 40) {i : Nat} :
    i < numBufs pageCount ↔ i * regBufSize < pageCount * pageSize := by
  obtain ⟨enough, few⟩ := numBufs_bounds small
  unfold regBufSize at *
  omega

theorem frame_inside {bid : Nat} (small : pageCount < 2 ^ 40) (inside : bid < pageCount) :
    bufIdx bid < numBufs pageCount ∧
      iovStart (pageCount * pageSize) (bufIdx bid) ≤ bid * pageSize ∧
      bid * pageSize + pageSize ≤ iovStart (pageCount * pageSize) (bufIdx bid + 1) := by
  rw [lt_numBufs small, bufIdx, memSize_eq (lt_trans inside small)]
  unfold iovStart regBufSize pageSize
  omega

/-- **The registered buffers are the memory of the pool, and every frame is in the one it is
looked for in.** The index also fits an `int`, and the 16 bits of a submission if there are no
more buffers than these can tell apart. -/
theorem frames_registered (pageCount : Nat) (small : pageCount < 2 ^ 40) :
    Follow 0 (pageCount * pageSize) (registerBuffers pageCount) ∧
    (∀ iov ∈ registerBuffers pageCount, 0 < iov.len) ∧
    (∀ bid < pageCount, ∃ iov, (registerBuffers pageCount)[bufIdx bid]? = some iov ∧
      iov.start ≤ bid * pageSize ∧ bid * pageSize + pageSize ≤ iov.stop ∧ bufIdx bid < 2 ^ 31 ∧
      ((registerBuffers pageCount).length ≤ 2 ^ 16 → bufIdx bid < 2 ^ 16)) := by
  have enough := numBufs_bounds small
  rw [registerBuffers_eq small]
  refine ⟨?_, fun iov member => ?_, fun bid inside => ?_⟩
  · have follow := @Follow.of_range (iovStart (pageCount * pageSize))
      (iovLen (pageCount * pageSize)) (numBufs pageCount) fun i _ => iovStart_succ _ i
    have first : iovStart (pageCount * pageSize) 0 = 0 := by
      rw [iovStart, Nat.zero_mul, Nat.zero_min]
    have last : iovStart (pageCount * pageSize) (numBufs pageCount) = pageCount * pageSize :=
      Nat.min_eq_right enough.1
    rwa [first, last] at follow
  · obtain ⟨i, listed, rfl⟩ := List.mem_map.mp member
    have begins := (lt_numBufs small).mp (List.mem_range.mp listed)
    unfold iovLen iovStart regBufSize at *
    dsimp only
    omega
  · obtain ⟨found, starts, stops⟩ := frame_inside small inside
    refine ⟨⟨iovStart (pageCount * pageSize) (bufIdx bid), iovLen (pageCount * pageSize)
      (bufIdx bid)⟩, ?_, starts, ?_, ?_, fun few => ?_⟩
    · rw [List.getElem?_map, List.getElem?_range found]
      rfl
    · rw [iovStart_succ] at stops
      exact stops
    · unfold pageSize regBufSize at *
      omega
    · rw [List.length_map, List.length_range] at few
      exact lt_of_lt_of_le found few

/-- A pool of one buffer and a half. -/
theorem frames_registered_half :
    registerBuffers 393216 = [⟨0, 2 ^ 30⟩, ⟨2 ^ 30, 2 ^ 29⟩] ∧
    ∃ iov, (registerBuffers 393216)[bufIdx 300000]? = some iov ∧
      iov.start ≤ 300000 * pageSize ∧ 300000 * pageSize + pageSize ≤ iov.stop := by
  obtain ⟨iov, found, starts, stops, -⟩ :=
    (frames_registered 393216 (by decide)).2.2 300000 (by decide)
  exact ⟨by decide, iov, found, starts, stops⟩

end Pool

end BufferMgr

end UringDb
