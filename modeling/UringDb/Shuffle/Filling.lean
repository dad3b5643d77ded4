import UringDb.Shuffle.Core

/-!
# From the scan to the connections

While a worker scans, the tuples of a remote partition are those in the buffers handed over, in
order, and then those in the fill buffer. A fill buffer that is handed over before it is full
takes whatever else the buffer held with it.
-/
namespace UringDb.Shuffle

/-- The tuples of a scan that belong to a partition. -/
def Scan.tuplesFor {N : TupleSize} (cfg : Config) (all : List (Tuple N)) (p : Nat) :
    List (Tuple N) :=
  all.filter fun t => partitionOf cfg t = p

namespace Core

open Scan (tuplesFor)

variable {N : TupleSize} {cfg : Config} {s t : Core N} {p q : Nat}

/-- The tuples in the fill buffer of a partition. -/
def filling (s : Core N) (p : Nat) : List (List UInt8) :=
  match s.pool.held (.fill p) with
  | some b => (s.bufs b).filled
  | none => []

theorem filling_of_held {b : BufId} (holds : s.pool.held (.fill p) = some b) :
    s.filling p = (s.bufs b).filled := by
  unfold filling
  rw [holds]

theorem filling_of_vacant (vacant : s.pool.held (.fill p) = none) : s.filling p = [] := by
  unfold filling
  rw [vacant]

/-- The tuples in the buffers handed to the connections of a partition, each buffer read as a
full one. -/
def sentTuples (s : Core N) (p : Nat) : List (List UInt8) :=
  (s.handed p).flatMap fun sent => tuplesIn N sent.2.data

def scannedFor (cfg : Config) (s : Core N) (p : Nat) : List (Tuple N) :=
  tuplesFor cfg s.scanned p

/-- Nothing changed for the tuples to be sent. -/
structure SameFill (s t : Core N) : Prop where
  scanned : t.scanned = s.scanned
  handed : t.handed = s.handed
  held : ∀ p, t.pool.held (.fill p) = s.pool.held (.fill p)
  bufs : ∀ p b, s.pool.held (.fill p) = some b → t.bufs b = s.bufs b

namespace SameFill

theorem refl (s : Core N) : SameFill s s := ⟨rfl, rfl, fun _ => rfl, fun _ _ _ => rfl⟩

theorem trans {u : Core N} (first : SameFill s t) (second : SameFill t u) : SameFill s u where
  scanned := second.scanned.trans first.scanned
  handed := second.handed.trans first.handed
  held p := (second.held p).trans (first.held p)
  bufs p b holds := (second.bufs p b ((first.held p).trans holds)).trans (first.bufs p b holds)

theorem filling (same : SameFill s t) (p : Nat) : t.filling p = s.filling p := by
  cases holds : s.pool.held (.fill p) with
  | none => rw [filling_of_vacant holds, filling_of_vacant ((same.held p).trans holds)]
  | some b =>
    rw [filling_of_held holds, filling_of_held ((same.held p).trans holds), same.bufs p b holds]

theorem sentTuples (same : SameFill s t) (p : Nat) : t.sentTuples p = s.sentTuples p := by
  rw [Core.sentTuples, Core.sentTuples, same.handed]

theorem scannedFor (same : SameFill s t) (p : Nat) : t.scannedFor cfg p = s.scannedFor cfg p := by
  rw [Core.scannedFor, Core.scannedFor, same.scanned]

end SameFill

/-- Nothing changed for the tuples to be sent, and what each target was granted and has left keep
their difference. -/
structure Quiet (cfg : Config) (s t : Core N) : Prop extends SameFill s t where
  credit : cfg.useBudget = true → cfg.recvZc = false →
    ∀ p, t.budget p - t.buffersIn p = s.budget p - s.buffersIn p

namespace Quiet

theorem refl (s : Core N) : Quiet cfg s s := ⟨SameFill.refl s, fun _ _ _ => rfl⟩

theorem trans {u : Core N} (first : Quiet cfg s t) (second : Quiet cfg t u) : Quiet cfg s u :=
  ⟨first.toSameFill.trans second.toSameFill, fun budgets plain p =>
    (second.credit budgets plain p).trans (first.credit budgets plain p)⟩

end Quiet

/-! ### The operations -/

theorem quiet_pool {pool : Pool} {x : Holder} {v : Option BufId} (other : ∀ p, x ≠ .fill p)
    (held : pool.held = Function.update s.pool.held x v) : Quiet cfg s { s with pool } := by
  refine ⟨⟨rfl, rfl, fun p => ?_, fun _ _ _ => rfl⟩, fun _ _ _ => rfl⟩
  dsimp only
  rw [held, Function.update_of_ne (other p).symm]

theorem quiet_freeSend {k : ConnId} (freed : s.freeSend k = some t) : Quiet cfg s t := by
  obtain ⟨b, pool, -, held, rfl⟩ := freeSend_inv freed
  exact quiet_pool (fun _ => Holder.noConfusion) held

theorem quiet_freeRecv {k : ConnId} (freed : s.freeRecv k = some t) : Quiet cfg s t := by
  obtain ⟨b, pool, -, held, rfl⟩ := freeRecv_inv freed
  exact quiet_pool (fun _ => Holder.noConfusion) held

theorem quiet_takeRecv {k : ConnId} (taken : s.takeRecv k = some t) : Quiet cfg s t := by
  obtain ⟨b, pool, -, held, rfl⟩ := takeRecv_inv taken
  exact quiet_pool (fun _ => Holder.noConfusion) held

theorem quiet_storeRecv {k : ConnId} {off : Nat} {bytes : List UInt8}
    (stored : s.storeRecv k off bytes = some t) : Quiet cfg s t := by
  obtain ⟨b, buf, receives, -, rfl⟩ := storeRecv_inv stored
  refine ⟨⟨rfl, rfl, fun _ => rfl, fun p b' fills => ?_⟩, fun _ _ _ => rfl⟩
  -- the receive buffer is no fill buffer
  have apart : b' ≠ b := by
    rintro rfl
    have same := Pool.held_inj fills receives
    cases same
  exact Function.update_of_ne apart _ _

theorem quiet_insertRecv {k : ConnId} (inserted : s.insertRecv cfg k = some t) :
    Quiet cfg s t := by
  obtain ⟨b, -, rfl⟩ := insertRecv_inv inserted
  split
  · exact ⟨⟨rfl, rfl, fun _ => rfl, fun _ _ _ => rfl⟩, fun _ _ _ => rfl⟩
  · exact Quiet.refl s

theorem quiet_grant (s : Core N) (p : Nat) : Quiet cfg s (s.grant cfg p) := by
  refine ⟨⟨rfl, rfl, fun _ => rfl, fun _ _ _ => rfl⟩, fun budgets _ q => ?_⟩
  rw [grant]
  dsimp only
  rw [if_pos budgets]
  by_cases here : q = p
  · subst here
    rw [Function.update_self, Function.update_self]
    push_cast
    ring
  · rw [Function.update_of_ne here, Function.update_of_ne here]

/-- What a tuple copied into a fill buffer changes. -/
structure Filled (s : Core N) (p : Nat) (tuple : Tuple N) (t : Core N) : Prop where
  scanned : t.scanned = s.scanned ++ [tuple]
  handed : t.handed = s.handed
  self : t.filling p = s.filling p ++ [tuple.bytes]
  other : ∀ q, q ≠ p → t.filling q = s.filling q ∧
    t.pool.held (.fill q) = s.pool.held (.fill q)
  held : t.pool.held (.fill p) ≠ none
  budget : t.budget = s.budget
  buffersIn : t.buffersIn = s.buffersIn

theorem openFill_spec (opened : s.openFill p = some t) :
    (∃ b, t.pool.held (.fill p) = some b) ∧ t.scanned = s.scanned ∧ t.handed = s.handed ∧
      (∀ q, t.filling q = s.filling q) ∧
      (∀ q, q ≠ p → t.pool.held (.fill q) = s.pool.held (.fill q)) ∧
      t.budget = s.budget ∧ t.buffersIn = s.buffersIn := by
  unfold openFill at opened
  split at opened
  next b held =>
    cases opened
    exact ⟨⟨b, held⟩, rfl, rfl, fun _ => rfl, fun _ _ => rfl, rfl, rfl⟩
  next vacant =>
    split at opened <;> cases opened
    next b pool popped =>
      obtain ⟨top, -, held⟩ := Pool.pop_spec popped
      have self : pool.held (.fill p) = some b := by rw [held, Function.update_self]
      have others (q : Nat) (ne : q ≠ p) : pool.held (.fill q) = s.pool.held (.fill q) := by
        rw [held, Function.update_of_ne fun same => ne (Holder.fill.inj same)]
      refine ⟨⟨b, self⟩, rfl, rfl, fun q => ?_, others, rfl, rfl⟩
      by_cases here : q = p
      · subst here
        rw [filling_of_held self, filling_of_vacant vacant]
        dsimp only
        rw [Function.update_self, OutputBuffer.filled_clear]
      · cases holds : s.pool.held (.fill q) with
        | none => rw [filling_of_vacant holds, filling_of_vacant ((others q here).trans holds)]
        | some b' =>
          rw [filling_of_held holds, filling_of_held ((others q here).trans holds)]
          -- the buffer came from the stack
          have apart : b' ≠ b := by
            rintro rfl
            exact Pool.not_mem_unused holds (top ▸ List.mem_cons_self)
          dsimp only
          rw [Function.update_of_ne apart]

theorem fill_spec {tuple : Tuple N} (filled : s.fill p tuple = some t) : Filled s p tuple t := by
  unfold fill at filled
  split at filled
  next => cases filled
  next mid opened =>
    obtain ⟨⟨b, held⟩, scanned, handed, kept, others, budget, buffersIn⟩ := openFill_spec opened
    rw [held] at filled
    dsimp only at filled
    split at filled
    next => cases filled
    next buf written =>
      have pool : t.pool = mid.pool := by rw [← Option.some.inj filled]
      have bufs : t.bufs = Function.update mid.bufs b buf := by rw [← Option.some.inj filled]
      have heldAfter : t.pool.held (.fill p) = some b := by rw [pool, held]
      refine ⟨?_, ?_, ?_, fun q ne => ⟨?_, ?_⟩, ?_, ?_, ?_⟩
      · rw [← scanned, ← Option.some.inj filled]
      · rw [← handed, ← Option.some.inj filled]
      · rw [← kept p, filling_of_held held, filling_of_held heldAfter, bufs, Function.update_self]
        exact (OutputBuffer.put_spec written).2
      · rw [← kept q]
        have same : t.pool.held (.fill q) = mid.pool.held (.fill q) := by rw [pool]
        cases holds : mid.pool.held (.fill q) with
        | none => rw [filling_of_vacant holds, filling_of_vacant (same.trans holds)]
        | some b' =>
          have apart : b' ≠ b := by
            rintro rfl
            exact ne (Holder.fill.inj (Pool.held_inj holds held))
          rw [filling_of_held holds, filling_of_held (same.trans holds), bufs,
            Function.update_of_ne apart]
      · rw [pool, others q ne]
      · rw [heldAfter]
        exact Option.some_ne_none b
      · rw [← budget, ← Option.some.inj filled]
      · rw [← buffersIn, ← Option.some.inj filled]

theorem fillFull_iff (s : Core N) (p : Nat) :
    s.fillFull p = true ↔ (s.filling p).length = N.perBuffer := by
  unfold fillFull
  split
  next b held =>
    rw [filling_of_held held, OutputBuffer.length_filled, OutputBuffer.full, decide_eq_true_iff]
  next vacant =>
    rw [filling_of_vacant vacant, List.length_nil]
    exact iff_of_false Bool.false_ne_true (Nat.ne_of_lt N.perBuffer_pos)

/-- What handing over a fill buffer changes. -/
structure Handed (s : Core N) (p c : Nat) (t : Core N) (buf : OutputBuffer N) : Prop where
  scanned : t.scanned = s.scanned
  handed : t.handed = Function.update s.handed p (s.handed p ++ [(c, buf)])
  before : s.filling p = buf.filled
  had : s.pool.held (.fill p) ≠ none
  vacant : t.pool.held (.fill p) = none
  other : ∀ q, q ≠ p → t.filling q = s.filling q ∧
    t.pool.held (.fill q) = s.pool.held (.fill q)
  budget : t.budget = s.budget
  buffersIn : t.buffersIn = s.buffersIn

theorem hand_spec {c : Nat} (passed : s.hand p c = some t) : ∃ buf, Handed s p c t buf := by
  unfold hand at passed
  split at passed <;> cases passed
  next b pool holds moved =>
    obtain ⟨b', holds', -, -, held⟩ := Pool.pass_spec moved
    rw [holds] at holds'
    cases holds'
    have others (q : Nat) (ne : q ≠ p) : pool.held (.fill q) = s.pool.held (.fill q) := by
      rw [held, Function.update_of_ne Holder.noConfusion,
        Function.update_of_ne fun same => ne (Holder.fill.inj same)]
    refine ⟨s.bufs b, rfl, rfl, filling_of_held holds, ?_, ?_, fun q ne => ⟨?_, others q ne⟩,
      rfl, rfl⟩
    · rw [holds]
      exact Option.some_ne_none b
    · dsimp only
      rw [held, Function.update_of_ne Holder.noConfusion, Function.update_self]
    · cases other : s.pool.held (.fill q) with
      | none => rw [filling_of_vacant other, filling_of_vacant ((others q ne).trans other)]
      | some b' => rw [filling_of_held other, filling_of_held ((others q ne).trans other)]

/-! ### What is to be sent and what was -/

/-- The tuples scanned for a partition are those handed over and those in the fill buffer. -/
structure Open (cfg : Config) (s : Core N) (p : Nat) : Prop where
  content : s.sentTuples p ++ s.filling p = (s.scannedFor cfg p).map Tuple.bytes
  started : s.pool.held (.fill p) = none ↔ s.filling p = []

/-- A last buffer that was not full was handed over. -/
structure Padded (cfg : Config) (s : Core N) (p : Nat) : Prop where
  vacant : s.pool.held (.fill p) = none
  count : (s.handed p).length = (s.scannedFor cfg p).length / N.perBuffer + 1
  rest : (s.scannedFor cfg p).length % N.perBuffer ≠ 0

theorem length_sentTuples (s : Core N) (p : Nat) :
    (s.sentTuples p).length = (s.handed p).length * N.perBuffer := by
  have each (sent : Nat × OutputBuffer N) : (tuplesIn N sent.2.data).length = N.perBuffer := by
    rw [length_tuplesIn, sent.2.length_eq, TupleSize.perBuffer]
  rw [sentTuples, List.length_flatMap, List.map_congr_left (fun sent _ => each sent),
    List.map_const', List.sum_replicate_nat]

theorem Open.length (state : Open cfg s p) :
    (s.scannedFor cfg p).length = (s.handed p).length * N.perBuffer + (s.filling p).length := by
  rw [← length_sentTuples, ← List.length_append, state.content, List.length_map]

theorem Open.congr (state : Open cfg s p) (same : SameFill s t) : Open cfg t p := by
  constructor
  · rw [same.sentTuples, same.filling, same.scannedFor]
    exact state.content
  · rw [same.held, same.filling]
    exact state.started

theorem Padded.congr (state : Padded cfg s p) (same : SameFill s t) : Padded cfg t p := by
  constructor
  · rw [same.held]
    exact state.vacant
  · rw [same.handed, same.scannedFor]
    exact state.count
  · rw [same.scannedFor]
    exact state.rest

theorem open_new (cfg : Config) (done : ConnId → Bool) (p : Nat) :
    Open cfg (Core.new N done) p :=
  ⟨rfl, iff_of_true rfl rfl⟩

theorem Open.scanLocal (state : Open cfg s p) {tuple : Tuple N}
    (elsewhere : partitionOf cfg tuple ≠ p) : Open cfg (s.scanLocal cfg tuple) p := by
  constructor
  · have same : (s.scanLocal cfg tuple).scannedFor cfg p = s.scannedFor cfg p := by
      rw [scannedFor, tuplesFor, Core.scanLocal, List.filter_append, scannedFor, tuplesFor]
      simp [elsewhere]
    rw [same]
    exact state.content
  · exact state.started

theorem Open.fill (state : Open cfg s q) {tuple : Tuple N} (mine : partitionOf cfg tuple = p)
    (filled : Filled s p tuple t) : Open cfg t q := by
  have sent : t.sentTuples q = s.sentTuples q := by rw [sentTuples, filled.handed, sentTuples]
  have scanned : t.scannedFor cfg q =
      s.scannedFor cfg q ++ if p = q then [tuple] else [] := by
    rw [scannedFor, tuplesFor, filled.scanned, List.filter_append, scannedFor, tuplesFor]
    by_cases here : p = q <;> simp [mine, here]
  by_cases here : q = p
  · subst here
    constructor
    · rw [sent, filled.self, scanned, if_pos rfl, List.map_append, ← state.content,
        List.append_assoc]
      rfl
    · rw [filled.self]
      exact iff_of_false filled.held
        (List.append_ne_nil_of_right_ne_nil _ (List.cons_ne_nil _ _))
  · obtain ⟨kept, held⟩ := filled.other q here
    constructor
    · rw [sent, kept, scanned, if_neg (Ne.symm here), List.append_nil]
      exact state.content
    · rw [held, kept]
      exact state.started

section Handing

variable {c : Nat} {buf : OutputBuffer N}

theorem Handed.scannedFor (handed : Handed s p c t buf) (q : Nat) :
    t.scannedFor cfg q = s.scannedFor cfg q := by
  rw [Core.scannedFor, handed.scanned, Core.scannedFor]

theorem Handed.sent_self (handed : Handed s p c t buf) :
    t.sentTuples p = s.sentTuples p ++ tuplesIn N buf.data := by
  rw [Core.sentTuples, handed.handed, Function.update_self, List.flatMap_append, Core.sentTuples,
    List.flatMap_singleton]

theorem Handed.handed_other (handed : Handed s p c t buf) (other : q ≠ p) :
    t.handed q = s.handed q := by
  rw [handed.handed, Function.update_of_ne other]

theorem Open.hand_other (state : Open cfg s q) (handed : Handed s p c t buf) (other : q ≠ p) :
    Open cfg t q := by
  obtain ⟨kept, held⟩ := handed.other q other
  constructor
  · rw [Core.sentTuples, handed.handed_other other, kept, handed.scannedFor]
    exact state.content
  · rw [held, kept]
    exact state.started

theorem Padded.hand_other (state : Padded cfg s q) (handed : Handed s p c t buf) :
    Padded cfg t q := by
  have other : q ≠ p := by
    rintro rfl
    exact handed.had state.vacant
  constructor
  · rw [(handed.other q other).2]
    exact state.vacant
  · rw [handed.handed_other other, handed.scannedFor]
    exact state.count
  · rw [handed.scannedFor]
    exact state.rest

theorem Open.hand_full (state : Open cfg s p) (handed : Handed s p c t buf)
    (full : (s.filling p).length = N.perBuffer) : Open cfg t p := by
  have empty : t.filling p = [] := filling_of_vacant handed.vacant
  have whole : s.filling p = tuplesIn N buf.data := by
    rw [handed.before, OutputBuffer.length_filled] at full
    rw [handed.before, OutputBuffer.filled_of_full full]
  constructor
  · rw [handed.sent_self, empty, List.append_nil, handed.scannedFor, ← whole]
    exact state.content
  · exact iff_of_true handed.vacant empty

theorem Open.pad (state : Open cfg s p) (handed : Handed s p c t buf)
    (room : (s.filling p).length < N.perBuffer) : Padded cfg t p := by
  have some : (s.filling p).length ≠ 0 := fun none =>
    handed.had (state.started.mpr (List.length_eq_zero_iff.mp none))
  have total := state.length
  constructor
  · exact handed.vacant
  · rw [handed.handed, Function.update_self, List.length_append, List.length_singleton,
      handed.scannedFor, total, Nat.mul_comm, Nat.mul_add_div N.perBuffer_pos,
      Nat.div_eq_of_lt room, Nat.add_zero]
  · rw [handed.scannedFor, total, Nat.mul_comm, Nat.mul_add_mod, Nat.mod_eq_of_lt room]
    exact some

end Handing

/-- **What was handed over** is what was scanned exactly if the tuples fill whole buffers: a rest
is either kept back or sent in a buffer that holds other tuples too. -/
theorem sentTuples_perm_iff
    (state : Open cfg s p ∧ (s.filling p).length < N.perBuffer ∨ Padded cfg s p) :
    (s.sentTuples p).Perm ((s.scannedFor cfg p).map Tuple.bytes) ↔
      N.perBuffer ∣ (s.scannedFor cfg p).length := by
  constructor
  · intro same
    have count := same.length_eq
    rw [length_sentTuples, List.length_map] at count
    exact ⟨(s.handed p).length, by rw [← count, Nat.mul_comm]⟩
  · intro whole
    rcases state with ⟨opened, room⟩ | padded
    · have total := opened.length
      have none : (s.filling p).length = 0 := by
        rw [Nat.dvd_iff_mod_eq_zero, total, Nat.mul_comm, Nat.mul_add_mod,
          Nat.mod_eq_of_lt room] at whole
        exact whole
      have content := opened.content
      rw [List.length_eq_zero_iff.mp none, List.append_nil] at content
      rw [content]
    · exact absurd (Nat.mod_eq_zero_of_dvd whole) padded.rest

end Core

end UringDb.Shuffle
