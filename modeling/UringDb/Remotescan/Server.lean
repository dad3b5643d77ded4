import UringDb.Remotescan.Client
import UringDb.Lib.Guard

/-!
# The requests the server accepts

The handling of a request in `remotescan/server.cpp` (`epoll_libaio.cpp` makes the same checks) and
`RaidLayout::map` of `remotescan/raid.cpp`. A failed `ensure` is `none`.
-/
namespace UringDb.Remotescan

/-- The drives of a server, by their usable bytes. The constructor makes sure that each of them
has room for a stripe. -/
structure RaidLayout (cfg : Config) where
  usableBytes : List Nat
  count : usableBytes.length = cfg.ssds.length
  usable : ∀ bytes ∈ usableBytes, cfg.stripeSize ≤ bytes

structure StripeAddress where
  ssdIdx : Nat
  driveOffset : Nat
deriving DecidableEq

/-- `usable_bytes` of the drive `ssd_idx`. -/
def RaidLayout.bytesOf {cfg : Config} (raid : RaidLayout cfg) (ssdIdx : Nat) : Nat :=
  raid.usableBytes.getD ssdIdx 0

def RaidLayout.map {cfg : Config} (raid : RaidLayout cfg) (logicalOffset len : Nat) :
    Option StripeAddress := do
  guard (raid.usableBytes ≠ [])
  guard (logicalOffset % kBlockSize = 0)
  guard (len % kBlockSize = 0)
  let stripeNr := logicalOffset / cfg.stripeSize
  let stripeOff := logicalOffset % cfg.stripeSize
  guard (stripeOff + len ≤ cfg.stripeSize)
  let ssdIdx := stripeNr % raid.usableBytes.length
  let stripeRound := stripeNr / raid.usableBytes.length
  let wrappedBase := stripeRound * cfg.stripeSize % 2 ^ 64 % raid.bytesOf ssdIdx
  some ⟨ssdIdx, (wrappedBase + stripeOff) % 2 ^ 64⟩

/-- `prep_read`, up to the drive and the offset it reads from. -/
def prepRead {cfg : Config} (raid : RaidLayout cfg) (request : ScanRequest) :
    Option StripeAddress := do
  guard (request.length ≤ cfg.requestSize)
  raid.map request.offset request.length

/-- `RECV_REQ`: a request has been received. -/
def recvReq {cfg : Config} (raid : RaidLayout cfg) (request : ScanRequest) :
    Option StripeAddress := do
  guard (0 < request.length)
  guard (request.length ≤ cfg.requestSize)
  if hasScanTarget cfg then
    guard ((request.offset + request.length) % 2 ^ 64 ≤ cfg.scanBytes)
  prepRead raid request

theorem recvReq_isSome_iff {cfg : Config} (raid : RaidLayout cfg) (request : ScanRequest) :
    (recvReq raid request).isSome = true ↔
      0 < request.length ∧ request.length ≤ cfg.requestSize ∧
      (hasScanTarget cfg = true →
        (request.offset + request.length) % 2 ^ 64 ≤ cfg.scanBytes) ∧
      raid.usableBytes ≠ [] ∧ request.offset % kBlockSize = 0 ∧ request.length % kBlockSize = 0 ∧
      request.offset % cfg.stripeSize + request.length ≤ cfg.stripeSize := by
  have mapped : (prepRead raid request).isSome = true ↔ request.length ≤ cfg.requestSize ∧
      raid.usableBytes ≠ [] ∧ request.offset % kBlockSize = 0 ∧ request.length % kBlockSize = 0 ∧
      request.offset % cfg.stripeSize + request.length ≤ cfg.stripeSize := by
    simp only [prepRead, RaidLayout.map, isSome_guard_bind, Option.isSome_some, and_true]
  rw [recvReq, isSome_guard_bind, isSome_guard_bind]
  by_cases target : hasScanTarget cfg = true
  · rw [if_pos target, isSome_guard_bind, mapped]
    tauto
  · rw [if_neg target]
    change _ ∧ _ ∧ (prepRead raid request).isSome = true ↔ _
    rw [mapped]
    tauto

/-! ### Requests and stripes -/

section Stripes

variable {R S : Nat}

theorem add_le_of_dvd {o M : Nat} (offset : R ∣ o) (limit : R ∣ M) (less : o < M) :
    o + R ≤ M := by
  obtain ⟨a, rfl⟩ := offset
  obtain ⟨b, rfl⟩ := limit
  calc R * a + R = R * (a + 1) := (Nat.mul_succ R a).symm
    _ ≤ R * b := Nat.mul_le_mul_left R (Nat.lt_of_mul_lt_mul_left less)

theorem fits_of_dvd {o : Nat} (stripe : R ∣ S) (offset : R ∣ o) (positive : 0 < S) :
    o % S + R ≤ S :=
  add_le_of_dvd ((Nat.dvd_mod_iff stripe).mpr offset) stripe (Nat.mod_lt o positive)

/-- The last request that starts in the first stripe ends in the second one. -/
theorem crosses_of_not_dvd (request : 0 < R) (stripe : ¬R ∣ S) :
    S / R * R < S ∧ S < S / R * R % S + R := by
  have parts := Nat.div_add_mod' S R
  have rest := Nat.mod_lt S request
  have some : S % R ≠ 0 := fun none => stripe (Nat.dvd_of_mod_eq_zero none)
  have less : S / R * R < S := by omega
  refine ⟨less, ?_⟩
  rw [Nat.mod_eq_of_lt less]
  omega

/-- A request size that is no power of two comes to every offset that its factors of two allow,
once offsets wrap around. One of them crosses the end of a stripe. -/
theorem exists_crossing (request : 0 < R) (le : R ≤ S) (small : S < 2 ^ 64) (stripe : R ∣ S)
    (mixed : ∀ k, R ≠ 2 ^ k) : ∃ i, S < i * R % 2 ^ 64 % S + R := by
  obtain ⟨k, m, odd, factors⟩ := Nat.exists_eq_two_pow_mul_odd (Nat.ne_of_gt request)
  have power : 0 < 2 ^ k := Nat.two_pow_pos k
  have large : 2 ^ k < R := by
    rcases Nat.lt_or_ge 1 m with more | few
    · calc 2 ^ k = 2 ^ k * 1 := (Nat.mul_one _).symm
        _ < 2 ^ k * m := Nat.mul_lt_mul_of_pos_left more power
        _ = R := factors.symm
    · obtain rfl : m = 1 := by
        have := odd.pos
        omega
      exact absurd (factors.trans (Nat.mul_one _)) (mixed k)
  have coprime : Nat.Coprime m (2 ^ 64) := (Nat.coprime_two_right.mpr odd).pow_right 64
  obtain ⟨y, -, inverse⟩ := Nat.exists_mul_mod_eq_one_of_coprime coprime (by decide)
  -- the offset one unit behind the start of the last request of a stripe
  obtain ⟨u, target⟩ : 2 ^ k ∣ S - R + 2 ^ k := by
    have divides : 2 ^ k ∣ R := factors ▸ Nat.dvd_mul_right ..
    exact (Nat.dvd_sub (divides.trans stripe) divides).add (Nat.dvd_refl _)
  refine ⟨u * y, ?_⟩
  have reached : u * y * R % 2 ^ 64 = S - R + 2 ^ k := by
    have product : u * y * R = (S - R + 2 ^ k) * (m * y) := by
      rw [target, factors]
      ring
    rw [product, Nat.mul_mod, inverse, Nat.mul_one, Nat.mod_mod]
    exact Nat.mod_eq_of_lt (by omega)
  rw [reached, Nat.mod_eq_of_lt (by omega)]
  omega

theorem dvd_of_two_pow {k : Nat} (power : R = 2 ^ k) (small : R < 2 ^ 32) : R ∣ 2 ^ 31 := by
  rw [power] at small ⊢
  exact Nat.pow_dvd_pow 2 (Nat.le_of_lt_succ ((Nat.pow_lt_pow_iff_right (by decide)).mp small))

end Stripes

/-! ### Clients and their servers -/

/-- A client and a server that were given the same sizes, and the same target unless the client
runs for some time. -/
structure Paired (client server : Config) : Prop where
  clientAccepted : client.Accepted
  serverAccepted : server.Accepted
  clientMode : client.mode = .client
  serverMode : server.mode = .server
  request : server.requestSize = client.requestSize
  stripe : server.stripeSize = client.stripeSize
  target : server.scanBytes = client.scanBytes ∨ 0 < client.duration

/-- What the checks leave to the offset of a request. -/
def OffsetOk (server : Config) (offset : Nat) : Prop :=
  (hasScanTarget server = true →
    (offset + server.requestSize) % 2 ^ 64 ≤ server.scanBytes) ∧
  offset % kBlockSize = 0 ∧ offset % server.stripeSize + server.requestSize ≤ server.stripeSize

variable {client server : Config}

theorem recvReq_requestAt (paired : Paired client server) (raid : RaidLayout server) (w i : Nat) :
    (recvReq raid (requestAt client w i)).isSome = true ↔
      OffsetOk server (offsetAt client w i) := by
  have positive := paired.serverAccepted.request
  have blocks := paired.serverAccepted.requestBlocks
  have drives : raid.usableBytes ≠ [] := by
    rw [← List.length_pos_iff, raid.count, List.length_pos_iff]
    exact paired.serverAccepted.someSsd paired.serverMode
  rw [recvReq_isSome_iff, requestAt, OffsetOk, ← paired.request]
  dsimp only
  tauto

/-- The requests that are sent in some run are all requests of the worker. -/
theorem sent_accepted_iff (paired : Paired client server) (raid : RaidLayout server) {w : Nat}
    (inside : w < client.numWorkers) :
    (∀ s, ClientReachable client w s → ∀ c ∈ s.conns, c.sendPosted = true →
      (recvReq raid c.request).isSome = true) ↔
      ∀ i, Remaining client w i → OffsetOk server (offsetAt client w i) := by
  constructor
  · intro accepted i remaining
    obtain ⟨s, reached, member⟩ :=
      exists_sending paired.clientAccepted paired.clientMode inside remaining
    rw [← recvReq_requestAt paired raid]
    exact accepted s reached _ member rfl
  · intro fits s reached c member posted
    obtain ⟨issued, done, inv⟩ := reached.inv paired.clientAccepted paired.clientMode inside
    have isBusy : c.busy = true := by rw [Connection.busy, posted, Bool.true_or]
    obtain ⟨i, less, request⟩ := inv.busy c member isBusy
    rw [request, recvReq_requestAt paired]
    exact fits i fun target => lt_of_lt_of_le less (inv.limit target)

/-- **Scanning a number of bytes.** -/
theorem scan_fits_iff (paired : Paired client server) (target : hasScanTarget client = true) :
    (∀ w < client.numWorkers, ∀ i, Remaining client w i →
      OffsetOk server (offsetAt client w i)) ↔
      client.stripeSize % client.requestSize = 0 ∨ client.scanBytes ≤ client.stripeSize := by
  have accepted := paired.clientAccepted
  have scan : 0 < client.scanBytes := of_decide_eq_true target
  have bytes : server.scanBytes = client.scanBytes :=
    paired.target.resolve_right ((accepted.oneTarget paired.clientMode).mp scan)
  have positive := accepted.request
  have whole := accepted.divided.scanBytes_eq
  have bound := client.scanBytes_lt
  have offset : ∀ {w i}, w < client.numWorkers → i < workerNumRequests client w →
      offsetAt client w i = (requestsBefore client w + i) * client.requestSize := by
    intro w i inside less
    rw [offsetAt_of_scan accepted target inside (le_of_lt less),
      workerStartOffset_eq accepted.divided target inside, Nat.add_mul]
  unfold OffsetOk
  rw [paired.request, paired.stripe, bytes]
  constructor
  · intro fits
    by_contra neither
    rw [not_or, Nat.not_le] at neither
    have ragged : ¬client.requestSize ∣ client.stripeSize := fun divides =>
      neither.1 (Nat.mod_eq_zero_of_dvd divides)
    obtain ⟨first, crosses⟩ := crosses_of_not_dvd positive ragged
    -- the crossing request is part of the scan, so some worker has it
    have part : client.stripeSize / client.requestSize < totalRequests client := by
      have less := lt_trans first neither.2
      rw [whole] at less
      exact Nat.lt_of_mul_lt_mul_right less
    obtain ⟨w, i, inside, less, same⟩ := exists_worker accepted.divided target part
    have ok := (fits w inside i fun _ => less).2.2
    rw [offset inside less, same] at ok
    omega
  · intro aligned w inside i remaining
    have less := remaining target
    have range := workerRange_le accepted.divided target inside
    rw [offset inside less]
    set g := requestsBefore client w + i with global
    have last : g * client.requestSize + client.requestSize ≤ client.scanBytes := by
      have below : g + 1 ≤ requestsBefore client w + workerNumRequests client w := by omega
      have scaled := Nat.mul_le_mul_right client.requestSize below
      rw [Nat.succ_mul] at scaled
      omega
    refine ⟨fun _ => ?_, ?_, ?_⟩
    · rw [Nat.mod_eq_of_lt (by omega)]
      exact last
    · rw [Nat.mul_mod, accepted.requestBlocks, Nat.mul_zero, Nat.zero_mod]
    · rcases aligned with divides | short
      · exact fits_of_dvd (Nat.dvd_of_mod_eq_zero divides) (Nat.dvd_mul_left ..)
          (lt_of_lt_of_le positive accepted.stripe)
      · rw [Nat.mod_eq_of_lt (by omega)]
        omega

/-- **Scanning for some time.** -/
theorem timed_fits_iff (paired : Paired client server) (untargeted : hasScanTarget client = false) :
    (∀ w < client.numWorkers, ∀ i, Remaining client w i →
      OffsetOk server (offsetAt client w i)) ↔
      client.stripeSize % client.requestSize = 0 ∧ (∃ k, client.requestSize = 2 ^ k) ∧
      (server.scanBytes = 0 ∨ server.scanBytes + client.requestSize = 2 ^ 64) := by
  have accepted := paired.clientAccepted
  have positive := accepted.request
  have stripePositive : 0 < client.stripeSize := lt_of_lt_of_le positive accepted.stripe
  have small := client.stripeSize_lt
  have bound := server.scanBytes_lt
  have endless : ∀ w i, Remaining client w i := by
    intro w i target
    rw [untargeted] at target
    cases target
  have start : ∀ w, workerStartOffset client w = w * (10 * 2 ^ 30) % 2 ^ 64 := by
    intro w
    rw [workerStartOffset, untargeted, if_neg Bool.false_ne_true]
  unfold OffsetOk
  rw [paired.request, paired.stripe]
  constructor
  · intro fits
    have ok : ∀ i, (hasScanTarget server = true →
        (i * client.requestSize % 2 ^ 64 + client.requestSize) % 2 ^ 64 ≤ server.scanBytes) ∧
        i * client.requestSize % 2 ^ 64 % client.stripeSize + client.requestSize ≤
          client.stripeSize := by
      intro i
      have first := fits 0 accepted.workers i (endless 0 i)
      rw [offsetAt, start, Nat.zero_mul, Nat.zero_mod, Nat.zero_add] at first
      exact ⟨first.1, first.2.2⟩
    have divides : client.requestSize ∣ client.stripeSize := by
      by_contra ragged
      obtain ⟨first, crosses⟩ := crosses_of_not_dvd positive ragged
      have fit := (ok (client.stripeSize / client.requestSize)).2
      rw [Nat.mod_eq_of_lt (show _ < 2 ^ 64 by omega)] at fit
      omega
    obtain ⟨k, power⟩ : ∃ k, client.requestSize = 2 ^ k := by
      by_contra mixed
      rw [not_exists] at mixed
      obtain ⟨i, crosses⟩ :=
        exists_crossing positive accepted.stripe (by omega) divides mixed
      have fit := (ok i).2
      omega
    refine ⟨Nat.mod_eq_zero_of_dvd divides, ⟨k, power⟩, ?_⟩
    by_contra neither
    rw [not_or] at neither
    -- the request at the end of the server's scan
    have target : hasScanTarget server = true := decide_eq_true (Nat.pos_of_ne_zero neither.1)
    have multiple : client.requestSize ∣ server.scanBytes :=
      Nat.dvd_of_mod_eq_zero (paired.request ▸ paired.serverAccepted.wholeRequests)
    have around : client.requestSize ∣ 2 ^ 64 :=
      (dvd_of_two_pow power client.requestSize_lt).trans (by decide)
    have room := add_le_of_dvd multiple around bound
    have fit := (ok (server.scanBytes / client.requestSize)).1 target
    rw [Nat.div_mul_cancel multiple, Nat.mod_eq_of_lt bound] at fit
    rw [Nat.mod_eq_of_lt (lt_of_le_of_ne room neither.2)] at fit
    omega
  · rintro ⟨divides, ⟨k, power⟩, wide⟩ w - i -
    have factor := dvd_of_two_pow power client.requestSize_lt
    have around : client.requestSize ∣ 2 ^ 64 := factor.trans (by decide)
    have aligned : client.requestSize ∣ offsetAt client w i := by
      have step : client.requestSize ∣ 10 * 2 ^ 30 := factor.trans (by decide)
      rw [offsetAt, start, Nat.dvd_mod_iff around]
      exact ((Nat.dvd_mod_iff around).mpr (step.mul_left w)).add (Nat.dvd_mul_left ..)
    have less : offsetAt client w i < 2 ^ 64 := Nat.mod_lt _ (Nat.two_pow_pos 64)
    refine ⟨fun target => ?_, ?_, ?_⟩
    · have scan : 0 < server.scanBytes := of_decide_eq_true target
      have full := wide.resolve_left (Nat.ne_of_gt scan)
      -- the last offset is the one from which the sum wraps to zero
      rcases Nat.lt_or_eq_of_le (add_le_of_dvd aligned around less) with inside | wraps
      · have next := add_le_of_dvd (aligned.add (Nat.dvd_refl _)) around inside
        rw [Nat.mod_eq_of_lt inside]
        omega
      · rw [wraps, Nat.mod_self]
        exact Nat.zero_le _
    · have blocks := Nat.dvd_of_mod_eq_zero accepted.requestBlocks
      exact Nat.mod_eq_zero_of_dvd (blocks.trans aligned)
    · exact fits_of_dvd (Nat.dvd_of_mod_eq_zero divides) aligned stripePositive

/-- The sizes for which every request is accepted: stripes of whole requests, or a scan within
the first stripe. A client that runs for some time needs requests of a power of two, since its
workers start at multiples of 10 GiB and its offsets wrap, and a server without an end. -/
def Served (client server : Config) : Prop :=
  if hasScanTarget client then
    client.stripeSize % client.requestSize = 0 ∨ client.scanBytes ≤ client.stripeSize
  else
    client.stripeSize % client.requestSize = 0 ∧ (∃ k, client.requestSize = 2 ^ k) ∧
      (server.scanBytes = 0 ∨ server.scanBytes + client.requestSize = 2 ^ 64)

/-- **The server accepts every request a client sends** in any run, for exactly these sizes. -/
theorem requests_accepted_iff {clientOptions serverOptions client server : Config}
    (clientParsed : clientOptions.parse = some client)
    (serverParsed : serverOptions.parse = some server) (clientMode : client.mode = .client)
    (serverMode : server.mode = .server) (request : server.requestSize = client.requestSize)
    (stripe : server.stripeSize = client.stripeSize)
    (target : server.scanBytes = client.scanBytes ∨ 0 < client.duration)
    (raid : RaidLayout server) :
    (∀ w < client.numWorkers, ∀ s, ClientReachable client w s → ∀ c ∈ s.conns,
      c.sendPosted = true → (recvReq raid c.request).isSome = true) ↔ Served client server := by
  have paired : Paired client server :=
    ⟨Config.accepted_of_parse clientParsed, Config.accepted_of_parse serverParsed, clientMode,
      serverMode, request, stripe, target⟩
  have offsets : (∀ w < client.numWorkers, ∀ s, ClientReachable client w s → ∀ c ∈ s.conns,
      c.sendPosted = true → (recvReq raid c.request).isSome = true) ↔
      ∀ w < client.numWorkers, ∀ i, Remaining client w i →
        OffsetOk server (offsetAt client w i) :=
    forall₂_congr fun w inside => sent_accepted_iff paired raid inside
  rw [offsets, Served]
  split
  next scans => exact scan_fits_iff paired scans
  next timed => exact timed_fits_iff paired (Bool.eq_false_iff.mpr timed)

instance neZero_stripe : NeZero 65536 := ⟨Nat.succ_ne_zero 65535⟩

def twoRequests (mode : Mode) (stripeSize : Fin 65536) : Config :=
  { oneBlock 1 with
    mode := mode
    scanBytes := 16384
    requestSize := 8192
    stripeSize := stripeSize
    ssds := ["ssd"]
    scanBytes_lt := by decide
    requestSize_lt := by decide
    stripeSize_lt := by omega }

def oneDrive (mode : Mode) (stripeSize : Fin 65536) : RaidLayout (twoRequests mode stripeSize) :=
  ⟨[stripeSize], rfl, by simp [twoRequests]⟩

/-- Two requests to a stripe. -/
theorem requests_accepted_two :
    (twoRequests .client 16384).parse = some (twoRequests .client 16384) ∧
      (twoRequests .server 16384).parse = some (twoRequests .server 16384) ∧
      ∀ w < 1, ∀ s, ClientReachable (twoRequests .client 16384) w s → ∀ c ∈ s.conns,
        c.sendPosted = true → (recvReq (oneDrive .server 16384) c.request).isSome = true := by
  have client : (twoRequests .client 16384).parse = some (twoRequests .client 16384) := rfl
  have server : (twoRequests .server 16384).parse = some (twoRequests .server 16384) := rfl
  refine ⟨client, server, ?_⟩
  exact (requests_accepted_iff client server rfl rfl rfl rfl (Or.inl rfl)
    (oneDrive .server 16384)).mpr (Or.inl rfl)

/-- One and a half: the second request crosses the end of the first stripe. -/
theorem request_rejected : ∃ client server s,
    (twoRequests .client 12288).parse = some client ∧
      (twoRequests .server 12288).parse = some server ∧ ClientReachable client 0 s ∧
      ∃ c ∈ s.conns, c.sendPosted = true ∧ c.request = ⟨8192, 8192⟩ ∧
        ∀ raid : RaidLayout server, recvReq raid c.request = none := by
  let cfg := twoRequests .client 12288
  let second : Connection := ⟨⟨8192, 8192⟩, true, false, false⟩
  have sent : clientStep cfg 0 (initClient cfg 0) (.sendReq 0) =
      some ⟨[⟨⟨0, 8192⟩, false, true, false⟩], 8192, 0, false⟩ := by
    decide
  have received : clientStep cfg 0 ⟨[⟨⟨0, 8192⟩, false, true, false⟩], 8192, 0, false⟩
      (.recvPayload 0) = some ⟨[second], 16384, 8192, false⟩ := by
    decide
  refine ⟨cfg, twoRequests .server 12288, _, rfl, rfl,
    (ClientReachable.init.step sent).step received, second, List.mem_singleton_self _, rfl, rfl, ?_⟩
  intro raid
  rw [← Option.not_isSome_iff_eq_none, recvReq_isSome_iff]
  exact fun ok => absurd ok.2.2.2.2.2.2 (by decide)

end UringDb.Remotescan
