import Mathlib

/-!
# Configuration of the remote scan

`remotescan/config.cpp`: the checks of `Config::parse`, and the part of the scan each worker has.
Numbers are natural numbers below the bound of their C++ type, and arithmetic wraps where the
source's does. The options that only choose how a request is carried out are left out.
-/
namespace UringDb.Remotescan

def kBlockSize : Nat := 4096

inductive Mode
  | server | client
deriving DecidableEq

inductive Backend
  | ioUring | epollLibaio
deriving DecidableEq

structure Config where
  mode : Mode
  backend : Backend
  sendZc : Bool
  numWorkers : Nat
  ringEntries : Nat
  numSockets : Nat
  scanBytes : Nat
  duration : Nat
  requestSize : Nat
  stripeSize : Nat
  ssds : List String
  numWorkers_lt : numWorkers < 2 ^ 32
  ringEntries_lt : ringEntries < 2 ^ 32
  numSockets_lt : numSockets < 2 ^ 32
  scanBytes_lt : scanBytes < 2 ^ 64
  duration_lt : duration < 2 ^ 64
  requestSize_lt : requestSize < 2 ^ 32
  stripeSize_lt : stripeSize < 2 ^ 32

def kDefaultIoUringRingEntries : Nat := 4096
def kDefaultEpollLibaioRingEntries : Nat := 64

def defaultRingEntries : Backend → Nat
  | .ioUring => kDefaultIoUringRingEntries
  | .epollLibaio => kDefaultEpollLibaioRingEntries

theorem defaultRingEntries_lt (backend : Backend) : defaultRingEntries backend < 2 ^ 32 := by
  cases backend <;> decide

/-- Fill in the default for the ring. -/
def Config.fillDefaults (cfg : Config) : Config :=
  if cfg.ringEntries = 0 then
    { cfg with
      ringEntries := defaultRingEntries cfg.backend
      ringEntries_lt := defaultRingEntries_lt cfg.backend }
  else cfg

/-- The checks on what was given on the command line. -/
def Config.checks (cfg : Config) : Bool :=
  0 < cfg.numSockets &&
  0 < cfg.numWorkers &&
  0 < cfg.requestSize &&
  cfg.requestSize ≤ cfg.stripeSize &&
  cfg.requestSize % kBlockSize = 0 &&
  cfg.stripeSize % kBlockSize = 0 &&
  cfg.scanBytes % cfg.requestSize = 0 &&
  (0 < cfg.scanBytes || 0 < cfg.duration) &&
  (cfg.mode ≠ .client || decide (0 < cfg.scanBytes) != decide (0 < cfg.duration)) &&
  (match cfg.backend with
    | .ioUring => (2 * cfg.numSockets + 64) % 2 ^ 32 ≤ cfg.ringEntries
    | .epollLibaio => cfg.numSockets ≤ cfg.ringEntries) &&
  (cfg.mode ≠ .server || !cfg.ssds.isEmpty) &&
  (!cfg.sendZc || cfg.mode = .server)

/-- `Config::parse` behind the reading of the options. -/
def Config.parse (options : Config) : Option Config :=
  let cfg := options.fillDefaults
  if cfg.checks then some cfg else none

def hasScanTarget (cfg : Config) : Bool := 0 < cfg.scanBytes

def hasDurationTarget (cfg : Config) : Bool := 0 < cfg.duration

def totalRequests (cfg : Config) : Nat := cfg.scanBytes / cfg.requestSize

def workerNumRequests (cfg : Config) (workerIdx : Nat) : Nat :=
  if hasScanTarget cfg then
    let total := totalRequests cfg
    let base := total / cfg.numWorkers
    let rem := total % cfg.numWorkers
    base + if workerIdx < rem then 1 else 0
  else 0

def workerStartRequest (cfg : Config) (workerIdx : Nat) : Nat :=
  if hasScanTarget cfg then
    (List.range workerIdx).foldl (fun start i => (start + workerNumRequests cfg i) % 2 ^ 64) 0
  else 0

def workerStartOffset (cfg : Config) (workerIdx : Nat) : Nat :=
  if hasScanTarget cfg then workerStartRequest cfg workerIdx * cfg.requestSize % 2 ^ 64
  else workerIdx * (10 * 2 ^ 30) % 2 ^ 64

def workerScanBytes (cfg : Config) (workerIdx : Nat) : Nat :=
  workerNumRequests cfg workerIdx * cfg.requestSize % 2 ^ 64

/-! ### Accepted configurations -/

/-- What the checks say about the sizes. -/
structure Config.Accepted (cfg : Config) : Prop where
  sockets : 0 < cfg.numSockets
  workers : 0 < cfg.numWorkers
  request : 0 < cfg.requestSize
  stripe : cfg.requestSize ≤ cfg.stripeSize
  requestBlocks : cfg.requestSize % kBlockSize = 0
  stripeBlocks : cfg.stripeSize % kBlockSize = 0
  wholeRequests : cfg.scanBytes % cfg.requestSize = 0
  target : 0 < cfg.scanBytes ∨ 0 < cfg.duration
  oneTarget : cfg.mode = .client → (0 < cfg.scanBytes ↔ ¬0 < cfg.duration)
  someSsd : cfg.mode = .server → cfg.ssds ≠ []

theorem Config.accepted_of_parse {options cfg : Config} (parsed : options.parse = some cfg) :
    cfg.Accepted := by
  unfold Config.parse at parsed
  dsimp only at parsed
  split at parsed <;> cases parsed
  next checked =>
    simp only [Config.checks, Bool.and_eq_true, decide_eq_true_eq, Bool.or_eq_true, bne_iff_ne,
      ne_eq, decide_eq_decide, Bool.not_eq_true', List.isEmpty_eq_false_iff] at checked
    obtain ⟨⟨⟨⟨⟨⟨⟨⟨⟨⟨⟨sockets, workers⟩, request⟩, stripe⟩, requestBlocks⟩, stripeBlocks⟩,
      wholeRequests⟩, target⟩, oneTarget⟩, -⟩, someSsd⟩, -⟩ := checked
    refine ⟨sockets, workers, request, stripe, requestBlocks, stripeBlocks, wholeRequests, target,
      ?_, ?_⟩
    · intro mode
      have exclusive := oneTarget.resolve_left fun other => other mode
      tauto
    · intro mode
      exact someSsd.resolve_left fun other => other mode

variable {cfg : Config}

/-- A number of whole requests for some workers. -/
structure Config.Divided (cfg : Config) : Prop where
  workers : 0 < cfg.numWorkers
  wholeRequests : cfg.scanBytes % cfg.requestSize = 0

theorem Config.Accepted.divided (accepted : cfg.Accepted) : cfg.Divided :=
  ⟨accepted.workers, accepted.wholeRequests⟩

theorem Config.Divided.scanBytes_eq (divided : cfg.Divided) :
    cfg.scanBytes = totalRequests cfg * cfg.requestSize := by
  rw [totalRequests, Nat.div_mul_cancel (Nat.dvd_of_mod_eq_zero divided.wholeRequests)]

/-! ### The parts of the workers -/

/-- Where the chunk of a worker begins, if all of them together have `total`. -/
def chunkStart (total chunks n : Nat) : Nat := n * (total / chunks) + min n (total % chunks)

theorem chunkStart_le {total chunks n : Nat} (inside : n ≤ chunks) :
    chunkStart total chunks n ≤ total := by
  have parts := Nat.div_add_mod total chunks
  have scaled := Nat.mul_le_mul_right (total / chunks) inside
  have clamped := Nat.min_le_right n (total % chunks)
  unfold chunkStart
  omega

theorem chunkStart_succ (total chunks n : Nat) :
    chunkStart total chunks (n + 1) =
      chunkStart total chunks n + (total / chunks + if n < total % chunks then 1 else 0) := by
  unfold chunkStart
  rw [Nat.succ_mul]
  split <;> omega

/-- The requests of the workers before this one. -/
def requestsBefore (cfg : Config) (workerIdx : Nat) : Nat :=
  chunkStart (totalRequests cfg) cfg.numWorkers workerIdx

theorem requestsBefore_zero (cfg : Config) : requestsBefore cfg 0 = 0 := by
  rw [requestsBefore, chunkStart, Nat.zero_mul, Nat.zero_min]

theorem requestsBefore_succ (target : hasScanTarget cfg = true) (w : Nat) :
    requestsBefore cfg (w + 1) = requestsBefore cfg w + workerNumRequests cfg w := by
  rw [workerNumRequests, if_pos target, requestsBefore, requestsBefore, chunkStart_succ]

theorem requestsBefore_numWorkers (divided : cfg.Divided) :
    requestsBefore cfg cfg.numWorkers = totalRequests cfg := by
  have less := Nat.mod_lt (totalRequests cfg) divided.workers
  rw [requestsBefore, chunkStart, min_eq_right (le_of_lt less), Nat.div_add_mod]

theorem requestsBefore_le {w : Nat} (inside : w ≤ cfg.numWorkers) :
    requestsBefore cfg w ≤ totalRequests cfg := chunkStart_le inside

theorem totalRequests_lt (cfg : Config) : totalRequests cfg < 2 ^ 64 :=
  lt_of_le_of_lt (Nat.div_le_self _ _) cfg.scanBytes_lt

/-- The loop adds up the requests of the workers before. -/
theorem workerStartRequest_eq (target : hasScanTarget cfg = true) {w : Nat}
    (inside : w ≤ cfg.numWorkers) : workerStartRequest cfg w = requestsBefore cfg w := by
  rw [workerStartRequest, if_pos target]
  induction w with
  | zero => rw [List.range_zero, List.foldl_nil, requestsBefore_zero]
  | succ w ih =>
    have fits := lt_of_le_of_lt (requestsBefore_le inside) (totalRequests_lt cfg)
    rw [List.range_succ, List.foldl_append, ih (Nat.le_of_succ_le inside), List.foldl_cons,
      List.foldl_nil, ← requestsBefore_succ target, Nat.mod_eq_of_lt fits]

theorem workerRange_le (divided : cfg.Divided) (target : hasScanTarget cfg = true) {w : Nat}
    (inside : w < cfg.numWorkers) :
    (requestsBefore cfg w + workerNumRequests cfg w) * cfg.requestSize ≤ cfg.scanBytes := by
  rw [← requestsBefore_succ target, divided.scanBytes_eq]
  exact Nat.mul_le_mul_right _ (requestsBefore_le inside)

theorem workerStartOffset_eq (divided : cfg.Divided) (target : hasScanTarget cfg = true)
    {w : Nat} (inside : w < cfg.numWorkers) :
    workerStartOffset cfg w = requestsBefore cfg w * cfg.requestSize := by
  have range := workerRange_le divided target inside
  have bound := cfg.scanBytes_lt
  rw [Nat.add_mul] at range
  rw [workerStartOffset, if_pos target, workerStartRequest_eq target (le_of_lt inside)]
  exact Nat.mod_eq_of_lt (by omega)

theorem workerScanBytes_eq (divided : cfg.Divided) (target : hasScanTarget cfg = true)
    {w : Nat} (inside : w < cfg.numWorkers) :
    workerScanBytes cfg w = workerNumRequests cfg w * cfg.requestSize := by
  have range := workerRange_le divided target inside
  have bound := cfg.scanBytes_lt
  rw [Nat.add_mul] at range
  exact Nat.mod_eq_of_lt (by omega)

/-- Every request of the scan belongs to a worker. -/
theorem exists_worker (divided : cfg.Divided) (target : hasScanTarget cfg = true) {g : Nat}
    (inside : g < totalRequests cfg) :
    ∃ w i, w < cfg.numWorkers ∧ i < workerNumRequests cfg w ∧ requestsBefore cfg w + i = g := by
  rw [← requestsBefore_numWorkers divided] at inside
  -- the first worker whose requests reach beyond `g`
  have search : ∀ v, g < requestsBefore cfg v →
      ∃ w i, w < v ∧ i < workerNumRequests cfg w ∧ requestsBefore cfg w + i = g := by
    intro v
    induction v with
    | zero =>
      intro none
      rw [requestsBefore_zero] at none
      exact absurd none (Nat.not_lt_zero _)
    | succ v ih =>
      intro beyond
      by_cases before : g < requestsBefore cfg v
      · obtain ⟨w, i, below, rest⟩ := ih before
        exact ⟨w, i, Nat.lt_succ_of_lt below, rest⟩
      · rw [requestsBefore_succ target] at beyond
        exact ⟨v, g - requestsBefore cfg v, Nat.lt_succ_self v, by omega, by omega⟩
  exact search _ inside

end UringDb.Remotescan
