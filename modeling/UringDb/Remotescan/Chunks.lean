import UringDb.Lib.Spans
import UringDb.Remotescan.Client

/-!
# Two ways to divide a scan

`RangeHelper::nth_chunk` of `utils/range_helper.hpp` has a closed formula for the chunk of a
worker. The remote scan adds up what the workers before it have. Both give every worker the same
requests, and the bytes of the workers follow each other without a gap.
-/
namespace UringDb

/-- `RangeHelper::nth_chunk`, with 64-bit arithmetic. -/
def nthChunk (start stop chunks n : Nat) : Nat × Nat :=
  let totalSize := (stop + 2 ^ 64 - start) % 2 ^ 64
  let left := totalSize % chunks
  let pSize := (totalSize - left) / chunks
  let offset := (start + min n left) % 2 ^ 64
  let s := (offset + pSize * n) % 2 ^ 64
  let e := (offset + pSize * (n + 1) + if n < left then 1 else 0) % 2 ^ 64
  (s, e)

open Remotescan

section Chunk

variable {total chunks n : Nat}

/-- Nothing wraps, so the formula is what it says. -/
theorem nthChunk_eq (fits : total < 2 ^ 64) (inside : n < chunks) :
    nthChunk 0 total chunks n = (chunkStart total chunks n, chunkStart total chunks (n + 1)) := by
  have size : (total + 2 ^ 64 - 0) % 2 ^ 64 = total := by omega
  have share : (total - total % chunks) / chunks = total / chunks := by
    rw [← Nat.div_add_mod total chunks, Nat.mul_add_mod, Nat.mod_mod, Nat.add_sub_cancel,
      Nat.mul_div_cancel_left _ (Nat.zero_lt_of_lt inside), Nat.div_add_mod]
  have starts := @chunkStart_le total chunks n (Nat.le_of_lt inside)
  have ends := @chunkStart_le total chunks (n + 1) inside
  have next := chunkStart_succ total chunks n
  have begins : chunkStart total chunks n = min n (total % chunks) + total / chunks * n := by
    rw [chunkStart, Nat.mul_comm, Nat.add_comm]
  have first : (min n (total % chunks) % 2 ^ 64 + total / chunks * n) % 2 ^ 64 =
      chunkStart total chunks n := by
    rw [Nat.mod_add_mod, ← begins, Nat.mod_eq_of_lt (by omega)]
  have last : (min n (total % chunks) % 2 ^ 64 + total / chunks * (n + 1) +
      if n < total % chunks then 1 else 0) % 2 ^ 64 = chunkStart total chunks (n + 1) := by
    rw [Nat.add_assoc, Nat.mod_add_mod, Nat.mul_succ, Nat.add_assoc, ← Nat.add_assoc, ← begins,
      ← next, Nat.mod_eq_of_lt (by omega)]
  unfold nthChunk
  dsimp only
  rw [size, share, Nat.zero_add, first, last]

end Chunk

end UringDb

namespace UringDb.Remotescan

variable {cfg : Config}

def byteRange (cfg : Config) (workerIdx : Nat) : Span :=
  ⟨workerStartOffset cfg workerIdx, workerScanBytes cfg workerIdx⟩

theorem totalRequests_eq_zero (untargeted : ¬hasScanTarget cfg = true) : totalRequests cfg = 0 := by
  rw [hasScanTarget, decide_eq_true_eq, Nat.not_lt, Nat.le_zero] at untargeted
  rw [totalRequests, untargeted, Nat.zero_div]

theorem workerStartRequest_chunk {w : Nat} (inside : w ≤ cfg.numWorkers) :
    workerStartRequest cfg w = chunkStart (totalRequests cfg) cfg.numWorkers w := by
  by_cases target : hasScanTarget cfg = true
  · exact workerStartRequest_eq target inside
  · rw [workerStartRequest, if_neg target, totalRequests_eq_zero target, chunkStart, Nat.zero_div, Nat.zero_mod,
      Nat.mul_zero, Nat.min_zero]

theorem workerNumRequests_chunk (cfg : Config) (w : Nat) :
    workerNumRequests cfg w = totalRequests cfg / cfg.numWorkers +
      if w < totalRequests cfg % cfg.numWorkers then 1 else 0 := by
  by_cases target : hasScanTarget cfg = true
  · rw [workerNumRequests, if_pos target]
  · rw [workerNumRequests, if_neg target, totalRequests_eq_zero target, Nat.zero_div, Nat.zero_mod,
      if_neg (Nat.not_lt_zero w)]

/-- With a target, the bytes of the workers follow each other. -/
theorem byteRanges_follow (divided : cfg.Divided) (target : hasScanTarget cfg = true) :
    Follow 0 cfg.scanBytes ((List.range cfg.numWorkers).map (byteRange cfg)) := by
  have start : ∀ i < cfg.numWorkers, byteRange cfg i =
      ⟨requestsBefore cfg i * cfg.requestSize, workerNumRequests cfg i * cfg.requestSize⟩ := by
    intro i inside
    rw [byteRange, workerStartOffset_eq divided target inside,
      workerScanBytes_eq divided target inside]
  have same : (List.range cfg.numWorkers).map (byteRange cfg) =
      (List.range cfg.numWorkers).map fun i =>
        ⟨requestsBefore cfg i * cfg.requestSize, workerNumRequests cfg i * cfg.requestSize⟩ :=
    List.map_congr_left fun i member => start i (List.mem_range.mp member)
  have follow := @Follow.of_range (fun i => requestsBefore cfg i * cfg.requestSize)
    (fun i => workerNumRequests cfg i * cfg.requestSize) cfg.numWorkers fun i _ => by
      rw [requestsBefore_succ target, Nat.add_mul]
  have first : requestsBefore cfg 0 * cfg.requestSize = 0 := by
    rw [requestsBefore_zero, Nat.zero_mul]
  have last : requestsBefore cfg cfg.numWorkers * cfg.requestSize = cfg.scanBytes := by
    rw [requestsBefore_numWorkers divided, divided.scanBytes_eq]
  rw [same, ← last]
  rw [first] at follow
  exact follow

/-- **The two divisions agree, and the workers' bytes are the whole scan.** -/
theorem divisions_agree (cfg : Config) (total : Nat) (workers : 0 < cfg.numWorkers)
    (request : 0 < cfg.requestSize) (whole : cfg.scanBytes = total * cfg.requestSize) :
    (∀ i < cfg.numWorkers, nthChunk 0 total cfg.numWorkers i =
      (workerStartRequest cfg i, workerStartRequest cfg i + workerNumRequests cfg i)) ∧
    (∀ i, i + 1 < cfg.numWorkers → (nthChunk 0 total cfg.numWorkers i).2 =
      (nthChunk 0 total cfg.numWorkers (i + 1)).1) ∧
    (∀ i j, workerNumRequests cfg i ≤ workerNumRequests cfg j + 1) ∧
    (∀ i < cfg.numWorkers, ∀ b, (byteRange cfg i).Has b → b < cfg.scanBytes) ∧
    (∀ b < cfg.scanBytes, ∃! i, i < cfg.numWorkers ∧ (byteRange cfg i).Has b) := by
  have divided : cfg.Divided := ⟨workers, by rw [whole, Nat.mul_mod_left]⟩
  have requests : totalRequests cfg = total := by
    rw [totalRequests, whole, Nat.mul_div_cancel _ request]
  have fits : total < 2 ^ 64 := requests ▸ totalRequests_lt cfg
  have chunk : ∀ i < cfg.numWorkers, nthChunk 0 total cfg.numWorkers i =
      (chunkStart total cfg.numWorkers i, chunkStart total cfg.numWorkers (i + 1)) :=
    fun i inside => nthChunk_eq fits inside
  refine ⟨fun i inside => ?_, fun i inside => ?_, fun i j => ?_, fun i inside b has => ?_,
    fun b below => ?_⟩
  · rw [chunk i inside, workerStartRequest_chunk (Nat.le_of_lt inside), requests,
      workerNumRequests_chunk, requests, chunkStart_succ]
  · rw [chunk i (Nat.lt_of_succ_lt inside), chunk (i + 1) inside]
  · rw [workerNumRequests_chunk, workerNumRequests_chunk]
    split <;> split <;> omega
  · by_cases target : hasScanTarget cfg = true
    · have member := List.mem_map_of_mem (f := byteRange cfg) (List.mem_range.mpr inside)
      exact lt_of_lt_of_le has.2 ((byteRanges_follow divided target).inside _ member).2
    · -- without a target the ranges are empty
      have empty : (byteRange cfg i).stop = (byteRange cfg i).start := by
        rw [Span.stop, byteRange, workerScanBytes, workerNumRequests, if_neg target,
          Nat.zero_mul, Nat.zero_mod, Nat.add_zero]
      have clash := lt_of_le_of_lt has.1 has.2
      rw [empty] at clash
      exact absurd clash (lt_irrefl _)
  · have target : hasScanTarget cfg = true := decide_eq_true (Nat.zero_lt_of_lt below)
    exact (byteRanges_follow divided target).existsUnique (Nat.zero_le b) below

def threeWorkers : Config :=
  { oneBlock 1 with
    numWorkers := 3
    scanBytes := 7 * 4096
    numWorkers_lt := by decide
    scanBytes_lt := by decide }

theorem divisions_agree_three : nthChunk 0 7 3 1 = (3, 5) ∧
    nthChunk 0 7 3 1 = (workerStartRequest threeWorkers 1,
      workerStartRequest threeWorkers 1 + workerNumRequests threeWorkers 1) ∧
    ∃! i, i < 3 ∧ (byteRange threeWorkers i).Has 20000 := by
  have agree := divisions_agree threeWorkers 7 (by decide) (by decide) rfl
  exact ⟨by decide, agree.1 1 (by decide), agree.2.2.2.2 20000 (by decide)⟩

end UringDb.Remotescan
