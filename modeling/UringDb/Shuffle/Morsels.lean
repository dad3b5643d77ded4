import UringDb.Lib.Run
import UringDb.Lib.Sum
import UringDb.Shuffle.Core

/-!
# Workers that share a morsel iterator

`MorselIterator::next` of `shufflev2.cpp` adds to the shared offset and then works on the value it
found there, while other workers go on. The two parts are separate steps here, taken in any
order. A span is given by the numbers of its tuples.
-/
namespace UringDb.Shuffle

variable {N : TupleSize} {n workers : Nat}

/-- The iterator, and how far each worker is in `next`. -/
structure Dealing (workers : Nat) where
  offset : Nat
  /-- The value a worker has found and not used yet. -/
  claimed : Fin workers → Option Nat
  /-- How often `next` was called. -/
  calls : Nat
  /-- What was returned to whom, in this order. -/
  returned : List (Fin workers × Span)

inductive DealAction (workers : Nat)
  | claim (w : Fin workers)
  | clamp (w : Fin workers)
deriving DecidableEq

namespace Dealing

def start (workers : Nat) : Dealing workers := ⟨0, fun _ => none, 0, []⟩

def claim (N : TupleSize) (s : Dealing workers) (w : Fin workers) : Option (Dealing workers) :=
  match s.claimed w with
  | some _ => none
  | none =>
    some
      { s with
        offset := N.fetchAdd s.offset
        claimed := Function.update s.claimed w (some s.offset)
        calls := s.calls + 1 }

def clamp (N : TupleSize) (n : Nat) (s : Dealing workers) (w : Fin workers) :
    Option (Dealing workers) :=
  match s.claimed w with
  | none => none
  | some start =>
    some
      { s with
        claimed := Function.update s.claimed w none
        returned := s.returned ++ [(w, morselSpan N n start)] }

def step (N : TupleSize) (n : Nat) (s : Dealing workers) :
    DealAction workers → Option (Dealing workers)
  | .claim w => s.claim N w
  | .clamp w => s.clamp N n w

end Dealing

/-- The calls of `workers` workers on an iterator over `n` tuples. -/
def dealSystem (N : TupleSize) (n workers : Nat) :
    System (Dealing workers) (DealAction workers) where
  init s := s = Dealing.start workers
  step s a t := s.step N n a = some t

/-! ### What one worker gets

The scan of a worker is modelled with calls of `next` that are not interleaved, in the order in
which the workers add to the offset. -/

/-- The workers that call `next`, in this order. -/
def callers (acts : List (DealAction workers)) : List Nat :=
  acts.filterMap fun
    | .claim w => some w
    | .clamp _ => none

/-- The spans returned to `w`, and the one it is about to get. -/
def Dealing.spansOf (N : TupleSize) (n : Nat) (s : Dealing workers) (w : Fin workers) : List Span :=
  (s.returned.filter fun r => r.1 = w).map Prod.snd ++
    ((s.claimed w).map (morselSpan N n)).toList

def Dealing.morselsOf (tuples : List (Tuple N)) (s : Dealing workers) (w : Fin workers) :
    List (List (Tuple N)) :=
  ((s.spansOf N tuples.length w).map (slice tuples)).filter (!·.isEmpty)

theorem Dealing.spansOf_claim {s t : Dealing workers} {v : Fin workers}
    (claimed : s.claim N v = some t) (w : Fin workers) :
    t.offset = N.fetchAdd s.offset ∧ t.spansOf N n w =
      s.spansOf N n w ++ if v = w then [morselSpan N n s.offset] else [] := by
  unfold Dealing.claim at claimed
  split at claimed <;> cases claimed
  next idle =>
    refine ⟨rfl, ?_⟩
    by_cases same : v = w
    · subst same
      simp [spansOf, idle]
    · simp [spansOf, same, Function.update_of_ne (Ne.symm same)]

theorem Dealing.spansOf_clamp {s t : Dealing workers} {v : Fin workers}
    (clamped : s.clamp N n v = some t) (w : Fin workers) :
    t.offset = s.offset ∧ t.spansOf N n w = s.spansOf N n w := by
  unfold Dealing.clamp at clamped
  split at clamped <;> cases clamped
  next start found =>
    refine ⟨rfl, ?_⟩
    by_cases same : v = w
    · subst same
      simp [spansOf, found]
    · simp [spansOf, same, Function.update_of_ne (Ne.symm same)]

theorem deal_cons (w v : Nat) (it : MorselIterator N) (order : List Nat) :
    (deal w it (v :: order)).list =
      (if v = w then [it.next.1] else []).filter (!·.isEmpty) ++ (deal w it.next.2 order).list := by
  rw [deal]
  by_cases same : v = w <;> by_cases empty : it.next.1 = [] <;> simp [same, empty]

/-- **The interleaved calls deal the same morsels**: each worker gets, in this order, those of
calls that are not interleaved. -/
theorem Dealing.morselsOf_path {tuples : List (Tuple N)} {s t : Dealing workers}
    {acts : List (DealAction workers)}
    (path : (dealSystem N tuples.length workers).Path System.anyStep s acts t) (w : Fin workers) :
    t.morselsOf tuples w =
      s.morselsOf tuples w ++ (deal w ⟨tuples, s.offset⟩ (callers acts)).list := by
  induction path with
  | nil => exact (List.append_nil _).symm
  | @cons s u t act acts stepped _ rest ih =>
    cases act with
    | claim v =>
      obtain ⟨offset, spans⟩ := Dealing.spansOf_claim (n := tuples.length) stepped w
      have next : (MorselIterator.mk tuples s.offset).next.2 = ⟨tuples, u.offset⟩ := by
        rw [offset]
        rfl
      have first : u.morselsOf tuples w = s.morselsOf tuples w ++ (if (v : Nat) = w then
          [(MorselIterator.mk tuples s.offset).next.1] else []).filter (!·.isEmpty) := by
        rw [morselsOf, spans, List.map_append, List.filter_append, morselsOf]
        simp only [Fin.ext_iff, MorselIterator.next]
        split <;> rfl
      change _ = _ ++ (deal w ⟨tuples, s.offset⟩ (v :: callers acts)).list
      rw [deal_cons, next, ih, first, List.append_assoc]
    | clamp v =>
      obtain ⟨offset, spans⟩ := Dealing.spansOf_clamp stepped w
      have same : u.morselsOf tuples w = s.morselsOf tuples w := by rw [morselsOf, spans, morselsOf]
      rw [ih, same, offset]
      rfl

theorem Dealing.morselsOf_reaches {tuples : List (Tuple N)} {s : Dealing workers}
    {acts : List (DealAction workers)}
    (reached : (dealSystem N tuples.length workers).Reaches System.anyStep acts s)
    (w : Fin workers) : s.morselsOf tuples w = (deal w ⟨tuples, 0⟩ (callers acts)).list := by
  obtain ⟨_, rfl, path⟩ := reached
  exact morselsOf_path path w

/-! ### All calls -/

theorem TupleSize.perMorsel_pos (N : TupleSize) : 0 < N.perMorsel := by
  have all : ∀ m ∈ [16, 32, 64, 128, 256, 512, 1024, 2048, 4096, 8192, 16384],
      0 < morselSize / m := by decide
  exact all N.bytes N.supported

theorem morselSpan_len_pos {start : Nat} (inside : start < n)
    (fits : start + N.perMorsel < 2 ^ 64) : 0 < (morselSpan N n start).len := by
  have positive := N.perMorsel_pos
  rw [morselSpan, if_neg (Nat.not_le.mpr inside), Nat.mod_eq_of_lt fits]
  exact Nat.sub_pos_of_lt (by omega)

theorem morselSpan_stop_le (start : Nat) : (morselSpan N n start).stop ≤ n := by
  unfold morselSpan Span.stop
  split
  · exact Nat.zero_le n
  · dsimp only
    omega

/-- A later morsel begins behind an earlier one, or is empty. -/
theorem morselSpan_apart {first second : Nat} (behind : first + N.perMorsel ≤ second)
    (fits : second < 2 ^ 64) : (morselSpan N n first).Apart (morselSpan N n second) := by
  unfold morselSpan Span.Apart Span.stop
  rw [Nat.mod_eq_of_lt (lt_of_le_of_lt behind fits)]
  split <;> split <;> dsimp only <;> omega

/-- The span a worker is about to get. -/
def awaited (N : TupleSize) (n : Nat) (claimed : Option Nat) : Multiset Span :=
  ↑(claimed.map (morselSpan N n)).toList

namespace Dealing

/-- The spans that were returned and those that are about to be are the morsels, each once. -/
structure Inv (N : TupleSize) (n : Nat) (s : Dealing workers) : Prop where
  offset : s.offset = s.calls * N.perMorsel
  spans : ↑(s.returned.map Prod.snd) + ∑ w, awaited N n (s.claimed w) =
    (Multiset.range s.calls).map fun i => morselSpan N n (i * N.perMorsel)
  claimed : ∀ w start, s.claimed w = some start → start + N.perMorsel ≤ s.offset
  past : ∀ r ∈ s.returned, r.2.len = 0 →
    n ≤ s.offset ∧ ∀ start, s.claimed r.1 = some start → n ≤ start

theorem inv_start : Inv N n (start workers) where
  offset := (Nat.zero_mul _).symm
  spans := by simp [start, awaited]
  claimed := by
    intro w start claimed
    cases claimed
  past := by
    intro r member
    cases member

variable {s t : Dealing workers} {w : Fin workers}

theorem Inv.claim (inv : Inv N n s) (fits : (s.calls + 1) * N.perMorsel < 2 ^ 64)
    (claimed : s.claim N w = some t) : Inv N n t := by
  have next : N.fetchAdd s.offset = s.offset + N.perMorsel := by
    rw [Nat.succ_mul, ← inv.offset] at fits
    exact Nat.mod_eq_of_lt fits
  unfold Dealing.claim at claimed
  split at claimed <;> cases claimed
  next idle =>
    have others : ∀ v start, Function.update s.claimed w (some s.offset) v = some start →
        start = s.offset ∨ s.claimed v = some start := by
      intro v start found
      by_cases same : v = w
      · subst same
        rw [Function.update_self] at found
        exact Or.inl (Option.some.inj found).symm
      · rw [Function.update_of_ne same] at found
        exact Or.inr found
    constructor
    case offset =>
      dsimp only
      rw [next, inv.offset, Nat.succ_mul]
    case spans =>
      have moved := sum_update Finset.univ s.claimed w (some s.offset) (awaited N n)
        (Finset.mem_univ w)
      have none_ : awaited N n (s.claimed w) = 0 := by rw [idle]; rfl
      rw [none_, add_zero] at moved
      dsimp only
      rw [moved, ← add_assoc, inv.spans, Multiset.range_succ, Multiset.map_cons, inv.offset,
        add_comm]
      rfl
    case claimed =>
      intro v start found
      dsimp only at found ⊢
      rw [next]
      rcases others v start found with rfl | before
      · exact Nat.le_refl _
      · exact (inv.claimed v start before).trans (Nat.le_add_right _ _)
    case past =>
      intro r member empty
      obtain ⟨beyond, later⟩ := inv.past r member empty
      dsimp only
      rw [next]
      refine ⟨beyond.trans (Nat.le_add_right _ _), fun start found => ?_⟩
      rcases others r.1 start found with rfl | before
      · exact beyond
      · exact later start before

theorem Inv.clamp (inv : Inv N n s) (fits : s.calls * N.perMorsel < 2 ^ 64)
    (clamped : s.clamp N n w = some t) : Inv N n t := by
  unfold Dealing.clamp at clamped
  split at clamped <;> cases clamped
  next start found =>
    have before := inv.claimed w start found
    have others : ∀ v start, Function.update s.claimed w none v = some start →
        v ≠ w ∧ s.claimed v = some start := by
      intro v start found
      by_cases same : v = w
      · subst same
        rw [Function.update_self] at found
        cases found
      · rw [Function.update_of_ne same] at found
        exact ⟨same, found⟩
    refine ⟨inv.offset, ?_, fun v start found => inv.claimed v start (others v start found).2, ?_⟩
    · have moved := sum_update Finset.univ s.claimed w none (awaited N n) (Finset.mem_univ w)
      rw [found, show awaited N n none = 0 from rfl, add_zero] at moved
      dsimp only
      rw [← inv.spans, ← moved, List.map_append, ← Multiset.coe_add, add_assoc]
      exact congrArg (_ + ·) (add_comm _ _)
    · intro r member empty
      rcases List.mem_append.mp member with earlier | new
      · obtain ⟨beyond, later⟩ := inv.past r earlier empty
        exact ⟨beyond, fun start claims => later start (others r.1 start claims).2⟩
      · rw [List.mem_singleton.mp new] at empty ⊢
        have beyond : n ≤ start := by
          by_contra inside
          rw [← inv.offset] at fits
          exact absurd empty (Nat.ne_of_gt
            (morselSpan_len_pos (Nat.not_le.mp inside) (lt_of_le_of_lt before fits)))
        exact ⟨beyond.trans ((Nat.le_add_right _ _).trans before),
          fun start claims => absurd rfl (others w start claims).1⟩

/-- The number of calls bounds the offset, so that it never wraps. -/
theorem inv_of_reaches {acts : List (DealAction workers)}
    (reached : (dealSystem N n workers).Reaches System.anyStep acts s)
    (few : s.calls * N.perMorsel < 2 ^ 64) : Inv N n s := by
  have kept := System.Reaches.invariant
    (P := fun s => s.calls * N.perMorsel < 2 ^ 64 → Inv N n s) ?_ ?_ reached
  · exact kept few
  · rintro s rfl -
    exact inv_start
  · intro s a t before _ stepped few
    cases a with
    | claim w =>
      have counted : t.calls = s.calls + 1 := by
        change s.claim N w = some t at stepped
        unfold Dealing.claim at stepped
        split at stepped <;> cases stepped
        rfl
      rw [counted] at few
      have less := Nat.mul_le_mul_right N.perMorsel (Nat.le_succ s.calls)
      exact (before (lt_of_le_of_lt less few)).claim few stepped
    | clamp w =>
      have counted : t.calls = s.calls := by
        change s.clamp N n w = some t at stepped
        unfold Dealing.clamp at stepped
        split at stepped <;> cases stepped
        rfl
      rw [counted] at few
      exact (before few).clamp few stepped

theorem Inv.mem_iff (inv : Inv N n s) {span : Span} :
    ((∃ r ∈ s.returned, r.2 = span) ∨ ∃ w start, s.claimed w = some start ∧
      morselSpan N n start = span) ↔ ∃ i < s.calls, morselSpan N n (i * N.perMorsel) = span := by
  have same := congrArg (span ∈ ·) inv.spans
  simpa [awaited, Multiset.mem_sum] using same

theorem Inv.apart (inv : Inv N n s) (fits : s.calls * N.perMorsel < 2 ^ 64) :
    s.returned.Pairwise fun r q => r.2.Apart q.2 := by
  have symmetric : ∀ {a b : Span}, a.Apart b → b.Apart a := Span.Apart.symm
  have dealt : (s.returned.map Prod.snd ++ (∑ w, awaited N n (s.claimed w)).toList).Perm
      ((List.range s.calls).map fun i => morselSpan N n (i * N.perMorsel)) := by
    rw [← Multiset.coe_eq_coe, ← Multiset.coe_add, Multiset.coe_toList]
    exact inv.spans
  have apart : ((List.range s.calls).map fun i => morselSpan N n (i * N.perMorsel)).Pairwise
      Span.Apart := by
    refine List.pairwise_map.mpr (List.pairwise_lt_range.imp_of_mem fun first last less => ?_)
    have next := Nat.mul_le_mul_right N.perMorsel (Nat.succ_le_of_lt less)
    have most := Nat.mul_le_mul_right N.perMorsel (Nat.le_of_lt (List.mem_range.mp last))
    rw [Nat.succ_mul] at next
    exact morselSpan_apart next (lt_of_le_of_lt most fits)
  exact List.pairwise_map.mp (List.pairwise_append.mp ((dealt.pairwise_iff symmetric).mpr apart)).1

/-- A worker that has got an empty span has nothing more to wait for. -/
theorem Inv.all_returned (inv : Inv N n s) (fits : s.calls * N.perMorsel < 2 ^ 64)
    (some_ : 0 < workers) (ended : ∀ w, ∃ r ∈ s.returned, r.1 = w ∧ r.2.len = 0) {x : Nat}
    (inside : x < n) : ∃ r ∈ s.returned, r.2.Has x := by
  obtain ⟨r, member, -, empty⟩ := ended ⟨0, some_⟩
  have beyond := (inv.past r member empty).1
  -- the morsel that the tuple is in
  have below : x / N.perMorsel * N.perMorsel ≤ x := Nat.div_mul_le_self ..
  have above : x < x / N.perMorsel * N.perMorsel + N.perMorsel := by
    have parts := Nat.div_add_mod' x N.perMorsel
    have rest := Nat.mod_lt x N.perMorsel_pos
    omega
  have counted : x / N.perMorsel < s.calls := by
    apply Nat.div_lt_of_lt_mul
    rw [Nat.mul_comm, ← inv.offset]
    exact lt_of_lt_of_le inside beyond
  have next := Nat.mul_le_mul_right N.perMorsel (Nat.succ_le_of_lt counted)
  rw [Nat.succ_mul] at next
  have starts := lt_of_le_of_lt below inside
  have has : (morselSpan N n (x / N.perMorsel * N.perMorsel)).Has x := by
    rw [morselSpan, if_neg (Nat.not_le.mpr starts), Nat.mod_eq_of_lt (lt_of_le_of_lt next fits)]
    refine ⟨below, ?_⟩
    unfold Span.stop
    dsimp only
    omega
  rcases inv.mem_iff.mpr ⟨_, counted, rfl⟩ with ⟨q, returned, morsel⟩ | ⟨w, start, claims, morsel⟩
  · exact ⟨q, returned, morsel ▸ has⟩
  · obtain ⟨q, returned, rfl, none⟩ := ended w
    have late := (inv.past q returned none).2 _ claims
    rw [← morsel, morselSpan, if_pos late] at has
    exact absurd has.2 (Nat.not_lt_zero x)

end Dealing

/-- **The morsels tile the tuples**: what `next` returns, to whomever and in whatever order, does
not overlap and stays inside, and when every worker has got an empty span, each tuple was in one
of them. -/
theorem morsels_tile (N : TupleSize) (n workers : Nat) (acts : List (DealAction workers))
    (s : Dealing workers) (reached : (dealSystem N n workers).Reaches System.anyStep acts s)
    (few : s.calls < 2 ^ 64 / N.perMorsel) :
    s.returned.Pairwise (fun r q => r.2.Apart q.2) ∧
    (∀ r ∈ s.returned, r.2.stop ≤ n) ∧
    (0 < workers → (∀ w, ∃ r ∈ s.returned, r.1 = w ∧ r.2.len = 0) →
      ∀ x < n, s.returned.countP (fun r => decide (r.2.Has x)) = 1) := by
  have fits : s.calls * N.perMorsel < 2 ^ 64 := by
    have most := Nat.mul_le_of_le_div _ _ _ (Nat.succ_le_of_lt few)
    have positive := N.perMorsel_pos
    rw [Nat.succ_mul] at most
    omega
  have inv := Dealing.inv_of_reaches reached fits
  refine ⟨inv.apart fits, fun r member => ?_, fun some_ ended x inside => ?_⟩
  · obtain ⟨i, -, morsel⟩ := inv.mem_iff.mp (Or.inl ⟨r, member, rfl⟩)
    exact morsel ▸ morselSpan_stop_le _
  · obtain ⟨r, member, has⟩ := inv.all_returned fits some_ ended inside
    exact Span.countP_has_eq_one (inv.apart fits) member has

section

def bigTuples : TupleSize := ⟨8192, by decide⟩

/-- Two workers, of which the second claims the last morsel and returns it last. -/
def twoWorkersDeal : List (DealAction 2) :=
  [.claim 0, .claim 1, .clamp 0, .claim 0, .clamp 0, .clamp 1, .claim 1, .clamp 1]

theorem morsels_tile_two : ∃ s,
    (dealSystem bigTuples 20000 2).Reaches System.anyStep twoWorkersDeal s ∧
    s.returned = [(0, ⟨0, 16384⟩), (0, ⟨0, 0⟩), (1, ⟨16384, 3616⟩), (1, ⟨0, 0⟩)] ∧
    ∀ x < 20000, s.returned.countP (fun r => decide (r.2.Has x)) = 1 := by
  have ran : (perform (Dealing.step bigTuples 20000) (Dealing.start 2) twoWorkersDeal).any
      (fun s => decide (s.returned =
        [(0, ⟨0, 16384⟩), (0, ⟨0, 0⟩), (1, ⟨16384, 3616⟩), (1, ⟨0, 0⟩)] ∧ s.calls = 4)) = true := by
    decide
  obtain ⟨s, performed, found⟩ := (Option.any_eq_true _ _).mp ran
  obtain ⟨returned, calls⟩ := of_decide_eq_true found
  have reached : (dealSystem bigTuples 20000 2).Reaches System.anyStep twoWorkersDeal s :=
    ⟨_, rfl, perform_path (fun _ _ _ stepped => ⟨stepped, trivial⟩) performed⟩
  refine ⟨s, reached, returned, (morsels_tile bigTuples 20000 2 twoWorkersDeal s reached ?_).2.2
    (by decide) ?_⟩
  · rw [calls]
    decide
  · rw [returned]
    decide

end

end UringDb.Shuffle
