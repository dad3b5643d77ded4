import Mathlib

/-!
# Extracting keys from a chunked stream

`TupleIterator` of `shufflev2.cpp` is fed a byte stream in chunks and calls `on_key` for the
8-byte key of every tuple, wherever the chunk borders fall. Positions are 64-bit and wrap
around. The buffer `partial_` with its fill count is the list of bytes collected so far.
-/
namespace UringDb.Shuffle

def keySize : Nat := 8

/-- The `memcpy` of a key into a 64-bit integer, on a little-endian machine. -/
def loadKey (bytes : List UInt8) : UInt64 :=
  bytes.foldr (fun b key => key <<< 8 ||| b.toUInt64) 0

structure TupleIterator where
  streamPos : UInt64
  nextKeyPos : UInt64
  partialKey : List UInt8
  deriving DecidableEq, Repr

namespace TupleIterator

def new (keyOffset : UInt64) : TupleIterator := ⟨0, keyOffset, []⟩

def advance (it : TupleIterator) (take : Nat) : TupleIterator :=
  { it with streamPos := it.streamPos + UInt64.ofNat take }

/-- The bytes to skip up to the next key start. -/
def skip (it : TupleIterator) (len : Nat) : Nat :=
  if it.streamPos < it.nextKeyPos then min len (it.nextKeyPos - it.streamPos).toNat else 0

/-- Move past a whole key and the gap between its end and the next key start. -/
def takeKey (tupleSize : UInt64) (it : TupleIterator) (p : List UInt8) :
    TupleIterator × List UInt8 :=
  let rest := p.drop keySize
  let gap := min rest.length (tupleSize - UInt64.ofNat keySize).toNat
  let it := { it.advance keySize with nextKeyPos := it.nextKeyPos + tupleSize }
  (it.advance gap, rest.drop gap)

/-- The main loop on the rest of a chunk; every round uses up at least one byte. -/
def mainLoop (tupleSize : UInt64) :
    Nat → TupleIterator → List UInt8 → TupleIterator × List UInt64
  | 0, it, _ => (it, [])
  | fuel + 1, it, p =>
    if p = [] then (it, [])
    else if it.streamPos + UInt64.ofNat p.length ≤ it.nextKeyPos then (it.advance p.length, [])
    else
      let take := it.skip p.length
      let it := it.advance take
      let p := p.drop take
      if p = [] then (it, [])
      else if keySize ≤ p.length then
        let after := it.takeKey tupleSize p
        let next := mainLoop tupleSize fuel after.1 after.2
        (next.1, loadKey (p.take keySize) :: next.2)
      else ({ it.advance p.length with partialKey := p }, [])

/-- Feed one chunk: the new state and the keys `on_key` is called with. -/
def process (tupleSize : UInt64) (it : TupleIterator) (chunk : List UInt8) :
    TupleIterator × List UInt64 :=
  if it.partialKey ≠ [] then
    let take := min chunk.length (keySize - it.partialKey.length)
    let key := it.partialKey ++ chunk.take take
    let rest := chunk.drop take
    let it := it.advance take
    if key.length = keySize then
      let next := mainLoop tupleSize rest.length
        { it with partialKey := [], nextKeyPos := it.nextKeyPos + tupleSize } rest
      (next.1, loadKey key :: next.2)
    else mainLoop tupleSize rest.length { it with partialKey := key } rest
  else mainLoop tupleSize chunk.length it chunk

def feed (tupleSize : UInt64) : TupleIterator → List (List UInt8) → TupleIterator × List UInt64
  | it, [] => (it, [])
  | it, chunk :: chunks =>
    let first := process tupleSize it chunk
    let rest := feed tupleSize first.1 chunks
    (rest.1, first.2 ++ rest.2)

end TupleIterator

/-! ### The keys of a stream -/

section Keys

variable (tupleSize keyOffset : Nat) (stream : List UInt8)

def keyPos (i : Nat) : Nat := keyOffset + i * tupleSize

def keyFrom (pos : Nat) : UInt64 := loadKey ((stream.drop pos).take keySize)

end Keys

section Count

variable {tupleSize keyOffset : Nat} {stream : List UInt8}

theorem keyFrom_append {pos : Nat} (inside : pos + keySize ≤ stream.length) (more : List UInt8) :
    keyFrom (stream ++ more) pos = keyFrom stream pos := by
  unfold keyFrom
  rw [List.drop_append_of_le_length (by omega), List.take_append_of_le_length]
  rw [List.length_drop]
  omega

end Count

namespace TupleIterator

variable {tupleSize keyOffset : UInt64}

/-! ### What the iterator knows about the stream -/

/-- After `stream`, with `out` the keys reported so far: every key but the last is complete, and
`partialKey` is what there is of the next one. -/
structure Inv (tupleSize keyOffset : UInt64) (stream : List UInt8) (it : TupleIterator)
    (out : List UInt64) : Prop where
  pos : it.streamPos.toNat = stream.length
  keys : ∃ m, it.nextKeyPos.toNat = keyPos tupleSize.toNat keyOffset.toNat m ∧
    (∀ i < m, keyPos tupleSize.toNat keyOffset.toNat i + keySize ≤ stream.length) ∧
    out = (List.range m).map fun i => keyFrom stream (keyPos tupleSize.toNat keyOffset.toNat i)
  rest : stream.length < it.nextKeyPos.toNat + keySize
  started : it.partialKey = stream.drop it.nextKeyPos.toNat

variable {stream : List UInt8} {it : TupleIterator} {out : List UInt64}

theorem inv_new : Inv tupleSize keyOffset [] (new keyOffset) [] := by
  refine ⟨rfl, ⟨0, ?_, ?_, rfl⟩, ?_, ?_⟩
  · change keyOffset.toNat = keyOffset.toNat + 0 * tupleSize.toNat
    omega
  · intro i less
    exact absurd less (Nat.not_lt_zero i)
  · exact Nat.add_pos_right _ (by decide)
  · exact List.drop_nil.symm

theorem advance_pos (inv : Inv tupleSize keyOffset stream it out) {take : Nat}
    (short : stream.length + take < 2 ^ 64) :
    (it.advance take).streamPos.toNat = stream.length + take := by
  change (it.streamPos + UInt64.ofNat take).toNat = _
  rw [UInt64.toNat_add, inv.pos, UInt64.toNat_ofNat', Nat.add_mod_mod, Nat.mod_eq_of_lt short]

theorem keys_append {m : Nat} {tupleSize keyOffset : Nat}
    (complete : ∀ i < m, keyPos tupleSize keyOffset i + keySize ≤ stream.length)
    (more : List UInt8) :
    ((List.range m).map fun i => keyFrom (stream ++ more) (keyPos tupleSize keyOffset i)) =
      (List.range m).map fun i => keyFrom stream (keyPos tupleSize keyOffset i) := by
  apply List.map_congr_left
  intro i member
  exact keyFrom_append (complete i (List.mem_range.mp member)) more

/-- Bytes that do not complete the next key are kept if they belong to it. -/
theorem Inv.grow (inv : Inv tupleSize keyOffset stream it out) (more : List UInt8)
    (short : stream.length + more.length < 2 ^ 64)
    (rest : stream.length + more.length < it.nextKeyPos.toNat + keySize) :
    Inv tupleSize keyOffset (stream ++ more)
      { it.advance more.length with partialKey := (stream ++ more).drop it.nextKeyPos.toNat } out := by
  obtain ⟨m, next, complete, keys⟩ := inv.keys
  refine ⟨?_, ⟨m, next, ?_, ?_⟩, ?_, rfl⟩
  · rw [List.length_append]
    exact advance_pos inv short
  · intro i less
    rw [List.length_append]
    exact le_trans (complete i less) (Nat.le_add_right _ _)
  · rw [keys, keys_append complete]
  · rw [List.length_append]
    exact rest

/-- Bytes that complete the next key: it is reported, and the one after it is expected. -/
theorem Inv.complete (inv : Inv tupleSize keyOffset stream it out) (more : List UInt8)
    (atLeast : keySize ≤ tupleSize.toNat) (atMost : tupleSize.toNat ≤ 2 ^ 63 + 8)
    (short : stream.length + more.length < 2 ^ 63)
    (whole : stream.length + more.length = it.nextKeyPos.toNat + keySize) :
    Inv tupleSize keyOffset (stream ++ more)
      { it.advance more.length with nextKeyPos := it.nextKeyPos + tupleSize, partialKey := [] }
      (out ++ [loadKey ((stream ++ more).drop it.nextKeyPos.toNat)]) := by
  obtain ⟨m, next, complete, keys⟩ := inv.keys
  have length : (stream ++ more).length = it.nextKeyPos.toNat + keySize := by
    rw [List.length_append, whole]
  -- the key lies below `2 ^ 63`, so the sum does not wrap around
  have nextPos : (it.nextKeyPos + tupleSize).toNat = it.nextKeyPos.toNat + tupleSize.toNat := by
    rw [UInt64.toNat_add, Nat.mod_eq_of_lt]
    simp only [keySize] at whole
    omega
  refine ⟨?_, ⟨m + 1, ?_, ?_, ?_⟩, ?_, ?_⟩
  · rw [List.length_append]
    exact advance_pos inv (by omega)
  · change (it.nextKeyPos + tupleSize).toNat = _
    rw [nextPos, next, keyPos, keyPos]
    ring
  · intro i less
    rcases Nat.lt_succ_iff_lt_or_eq.mp less with less | rfl
    · rw [List.length_append]
      exact le_trans (complete i less) (Nat.le_add_right _ _)
    · rw [length, next]
  · rw [List.range_succ, List.map_append, List.map_singleton, keys, keys_append complete, keyFrom,
      ← next, List.take_of_length_le]
    rw [List.length_drop, length]
    omega
  · change _ < (it.nextKeyPos + tupleSize).toNat + keySize
    rw [length, nextPos]
    simp only [keySize] at atLeast ⊢
    omega
  · change [] = List.drop (it.nextKeyPos + tupleSize).toNat (stream ++ more)
    rw [nextPos, List.drop_eq_nil_of_le]
    rw [length]
    omega

theorem Inv.pass (inv : Inv tupleSize keyOffset stream it out) (more : List UInt8)
    (short : stream.length + more.length < 2 ^ 64)
    (before : stream.length + more.length ≤ it.nextKeyPos.toNat) :
    Inv tupleSize keyOffset (stream ++ more) (it.advance more.length) out := by
  have grown := inv.grow more short (lt_of_le_of_lt before (Nat.lt_add_of_pos_right (by decide)))
  have none : (stream ++ more).drop it.nextKeyPos.toNat = it.partialKey := by
    rw [inv.started, List.drop_eq_nil_of_le, List.drop_eq_nil_of_le]
    · omega
    · rwa [List.length_append]
  rw [none] at grown
  exact grown

theorem toNat_skip (inv : Inv tupleSize keyOffset stream it out)
    (between : stream.length ≤ it.nextKeyPos.toNat) (len : Nat) :
    it.skip len = min len (it.nextKeyPos.toNat - stream.length) := by
  unfold skip
  split
  next less =>
    rw [UInt64.toNat_sub_of_le _ _ (UInt64.le_of_lt less), inv.pos]
  next notLess =>
    rw [UInt64.lt_iff_toNat_lt, inv.pos] at notLess
    omega

theorem Inv.takeKey (atLeast : keySize ≤ tupleSize.toNat) (atMost : tupleSize.toNat ≤ 2 ^ 63 + 8)
    {p : List UInt8} (inv : Inv tupleSize keyOffset stream it out)
    (start : stream.length = it.nextKeyPos.toNat) (short : stream.length + p.length < 2 ^ 63)
    (whole : keySize ≤ p.length) :
    ∃ used, p = used ++ (it.takeKey tupleSize p).2 ∧ keySize ≤ used.length ∧
      Inv tupleSize keyOffset (stream ++ used) (it.takeKey tupleSize p).1
        (out ++ [loadKey (p.take keySize)]) ∧
      (stream ++ used).length ≤ (it.takeKey tupleSize p).1.nextKeyPos.toNat := by
  have none : it.partialKey = [] := by rw [inv.started, ← start, List.drop_length]
  have length : (p.take keySize).length = keySize := by rw [List.length_take]; omega
  have keyEnd : stream.length + (p.take keySize).length = it.nextKeyPos.toNat + keySize := by
    omega
  have reported := inv.complete _ atLeast atMost (by omega) keyEnd
  rw [← start, List.drop_left, length, ← none] at reported
  have gapSize : (tupleSize - UInt64.ofNat keySize).toNat = tupleSize.toNat - keySize :=
    UInt64.toNat_sub_of_le _ _ (UInt64.le_iff_toNat_le.mpr atLeast)
  have nextPos : (it.nextKeyPos + tupleSize).toNat = it.nextKeyPos.toNat + tupleSize.toNat := by
    rw [UInt64.toNat_add, Nat.mod_eq_of_lt]
    simp only [keySize] at whole
    omega
  have rest : (p.drop keySize).length = p.length - keySize := List.length_drop
  unfold TupleIterator.takeKey
  dsimp only
  rw [gapSize]
  generalize atGap : min (p.drop keySize).length (tupleSize.toNat - keySize) = gap
  have lengthGap : ((p.drop keySize).take gap).length = gap := by
    rw [List.length_take]
    omega
  refine ⟨p.take keySize ++ (p.drop keySize).take gap, ?_, ?_, ?_, ?_⟩
  · rw [List.append_assoc, List.take_append_drop, List.take_append_drop]
  · rw [List.length_append]
    omega
  · have passed := reported.pass ((p.drop keySize).take gap) ?_ ?_
    · rw [lengthGap, List.append_assoc] at passed
      exact passed
    · rw [List.length_append]
      omega
    · change _ ≤ (it.nextKeyPos + tupleSize).toNat
      rw [List.length_append, nextPos]
      omega
  · change _ ≤ (it.nextKeyPos + tupleSize).toNat
    rw [List.length_append, List.length_append, nextPos]
    omega

/-- **The main loop.** Between keys, the loop takes the iterator to the end of the chunk. -/
theorem Inv.mainLoop (atLeast : keySize ≤ tupleSize.toNat) (atMost : tupleSize.toNat ≤ 2 ^ 63 + 8)
    {fuel : Nat} (p : List UInt8) (enough : p.length ≤ fuel)
    (inv : Inv tupleSize keyOffset stream it out) (between : stream.length ≤ it.nextKeyPos.toNat)
    (short : stream.length + p.length < 2 ^ 63) :
    Inv tupleSize keyOffset (stream ++ p) (it.mainLoop tupleSize fuel p).1
      (out ++ (it.mainLoop tupleSize fuel p).2) := by
  induction fuel generalizing stream it out p with
  | zero =>
    obtain rfl : p = [] := List.eq_nil_of_length_eq_zero (Nat.le_zero.mp enough)
    rw [TupleIterator.mainLoop, List.append_nil, List.append_nil]
    exact inv
  | succ fuel ih =>
    have sum : (it.streamPos + UInt64.ofNat p.length).toNat = stream.length + p.length := by
      exact advance_pos inv (by omega)
    rw [TupleIterator.mainLoop]
    split
    next empty =>
      rw [empty, List.append_nil, List.append_nil]
      exact inv
    split
    next noKey =>
      -- no key starts in the rest of the chunk
      rw [UInt64.le_iff_toNat_le, sum] at noKey
      rw [List.append_nil]
      exact inv.pass p (by omega) noKey
    next notEmpty key =>
      rw [UInt64.le_iff_toNat_le, sum] at key
      have skipped : it.skip p.length = it.nextKeyPos.toNat - stream.length := by
        rw [toNat_skip inv between]
        omega
      have lengthSkip : (p.take (it.skip p.length)).length = it.skip p.length := by
        rw [List.length_take]
        omega
      have atStart := inv.pass (p.take (it.skip p.length)) (by omega) (by omega)
      rw [lengthSkip] at atStart
      have start : (stream ++ p.take (it.skip p.length)).length =
          (it.advance (it.skip p.length)).nextKeyPos.toNat := by
        change _ = it.nextKeyPos.toNat
        rw [List.length_append]
        omega
      have lengthRest : (p.drop (it.skip p.length)).length = p.length - it.skip p.length :=
        List.length_drop
      have lengthStart : (stream ++ p.take (it.skip p.length)).length =
          stream.length + it.skip p.length := by rw [List.length_append, lengthSkip]
      rw [← List.take_append_drop (it.skip p.length) p, ← List.append_assoc,
        List.take_append_drop]
      dsimp only
      split
      next empty =>
        rw [empty, List.append_nil, List.append_nil]
        exact atStart
      split
      next whole =>
        obtain ⟨used, split, some, reported, after⟩ :=
          atStart.takeKey atLeast atMost start (by omega) whole
        have lengths := congrArg List.length split
        rw [List.length_append] at lengths
        have shorter : ((it.advance (it.skip p.length)).takeKey tupleSize
            (p.drop (it.skip p.length))).2.length ≤ fuel := by
          simp only [keySize] at some
          omega
        have looped := ih _ shorter reported after ?_
        · rw [List.append_assoc _ [_] _, List.append_assoc _ used, ← split] at looped
          exact looped
        · rw [List.length_append]
          omega
      next cut =>
        -- the chunk ends inside the key
        have grown := atStart.grow (p.drop (it.skip p.length)) (by omega) (by omega)
        rw [← start, List.drop_left] at grown
        rw [List.append_nil]
        exact grown

/-! ### Chunks and streams -/

theorem Inv.process (atLeast : keySize ≤ tupleSize.toNat) (atMost : tupleSize.toNat ≤ 2 ^ 63 + 8)
    {chunk : List UInt8} (inv : Inv tupleSize keyOffset stream it out)
    (short : stream.length + chunk.length < 2 ^ 63) :
    Inv tupleSize keyOffset (stream ++ chunk) (it.process tupleSize chunk).1
      (out ++ (it.process tupleSize chunk).2) := by
  have lengthPartial : it.partialKey.length = stream.length - it.nextKeyPos.toNat := by
    rw [inv.started, List.length_drop]
  have rest := inv.rest
  unfold TupleIterator.process
  split
  next started =>
    have inside : it.nextKeyPos.toNat < stream.length := by
      have := List.length_pos_iff.mpr started
      omega
    dsimp only
    generalize atTake : min chunk.length (keySize - it.partialKey.length) = take
    have lengthTake : (chunk.take take).length = take := by
      rw [List.length_take]
      omega
    have lengthDrop : (chunk.drop take).length = chunk.length - take := List.length_drop
    have key : (stream ++ chunk.take take).drop it.nextKeyPos.toNat =
        it.partialKey ++ chunk.take take := by
      rw [List.drop_append_of_le_length (Nat.le_of_lt inside), inv.started]
    have split : stream ++ chunk = (stream ++ chunk.take take) ++ chunk.drop take := by
      rw [List.append_assoc, List.take_append_drop]
    rw [split]
    split
    next whole =>
      rw [List.length_append, lengthTake] at whole
      have reported := inv.complete (chunk.take take) atLeast atMost (by omega) (by omega)
      rw [key, lengthTake] at reported
      have looped := reported.mainLoop atLeast atMost (chunk.drop take) (Nat.le_refl _) ?_ ?_
      · rw [List.append_assoc out [_] _] at looped
        exact looped
      · have next := reported.rest
        have none := congrArg List.length reported.started
        rw [List.length_drop] at none
        exact Nat.le_of_sub_eq_zero none.symm
      · rw [List.length_append]
        omega
    next cut =>
      rw [List.length_append, lengthTake] at cut
      have grown := inv.grow (chunk.take take) (by omega) (by omega)
      have done : chunk.drop take = [] := List.drop_eq_nil_of_le (by omega)
      rw [key, lengthTake] at grown
      rw [done, List.append_nil]
      change Inv _ _ _ _ (out ++ [])
      rw [List.append_nil]
      exact grown
  next none =>
    refine inv.mainLoop atLeast atMost chunk (Nat.le_refl _) ?_ short
    rw [not_not.mp none, List.length_nil] at lengthPartial
    omega

theorem Inv.feed (atLeast : keySize ≤ tupleSize.toNat) (atMost : tupleSize.toNat ≤ 2 ^ 63 + 8)
    (chunks : List (List UInt8)) (inv : Inv tupleSize keyOffset stream it out)
    (short : stream.length + chunks.flatten.length < 2 ^ 63) :
    Inv tupleSize keyOffset (stream ++ chunks.flatten) (it.feed tupleSize chunks).1
      (out ++ (it.feed tupleSize chunks).2) := by
  induction chunks generalizing stream it out with
  | nil =>
    rw [TupleIterator.feed, List.flatten_nil, List.append_nil, List.append_nil]
    exact inv
  | cons chunk chunks ih =>
    rw [List.flatten_cons, List.length_append] at short
    rw [TupleIterator.feed, List.flatten_cons, ← List.append_assoc]
    dsimp only
    rw [← List.append_assoc]
    refine ih (inv.process atLeast atMost (by omega)) ?_
    rw [List.length_append]
    omega

end TupleIterator

end UringDb.Shuffle
