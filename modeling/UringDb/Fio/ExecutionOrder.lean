import UringDb.Lib.Ring

/-!
# The order of the fio trials

`execution_order` of `experiments/fig5_fio_common.py`. The generator is shared: in shuffle mode
every workload of every repeat takes its own shuffle from it. A trial list is a list of blocks,
one for each repeat and workload, and a block runs every case once; in rotate mode the blocks of
the repeats are the rotations of one shuffle.
-/
namespace UringDb.Fio

/-- A generator of `random.Random`, with states `ρ`. -/
structure Random (ρ κ : Type) where
  seeded : Int → ρ
  shuffle : List κ → ρ → List κ × ρ

/-- Any other word than `paper` and `shuffle` means `rotate`. -/
inductive Order
  | paper
  | shuffle
  | rotate
deriving DecidableEq

structure Trial (κ ω : Type) where
  case : κ
  workload : ω
  repeat_ : Nat
deriving DecidableEq

section

variable {ρ κ ω : Type} (rng : Random ρ κ) (cases base : List κ)

/-- The cases of one repeat of a workload; the remainder by zero is an error. -/
def sequence : Order → Nat → ρ → Option (List κ × ρ)
  | .paper, _, g => some (cases, g)
  | .shuffle, _, g => some (rng.shuffle cases g)
  | .rotate, repeat_, g =>
    if base.length = 0 then none
    else
      let shift := (repeat_ - 1) % base.length
      some (base.drop shift ++ base.take shift, g)

/-- One round of the inner loop, which extends `trials`. -/
def extend (order : Order) (repeat_ : Nat) (trials : List (Trial κ ω) × ρ) (workload : ω) :
    Option (List (Trial κ ω) × ρ) := do
  let next ← sequence rng cases base order repeat_ trials.2
  some (trials.1 ++ next.1.map fun c => ⟨c, workload, repeat_⟩, next.2)

def executionOrder (workloads : List ω) (repeats : Nat) (seed : Int) (order : Order) :
    Option (List (Trial κ ω)) := do
  let base := rng.shuffle cases (rng.seeded seed)
  let done ← (List.range' 1 repeats).foldlM
    (fun trials repeat_ => workloads.foldlM (extend rng cases base.1 order repeat_) trials)
    ([], base.2)
  some done.1

end

/-! ### What is asked for -/

section

variable {κ ω : Type} (cases : List κ) (workloads : List ω) (repeats : Nat)
  (trials : List (Trial κ ω))

/-- Each combination of a case, a workload and a repeat occurs exactly once. -/
structure Complete : Prop where
  once : trials.Nodup
  all : ∀ t, t ∈ trials ↔
    t.case ∈ cases ∧ t.workload ∈ workloads ∧ 1 ≤ t.repeat_ ∧ t.repeat_ ≤ repeats

variable [DecidableEq κ] [DecidableEq ω]

/-- The cases of a workload in the order in which a repeat runs them. -/
def casesIn (workload : ω) (repeat_ : Nat) : List κ :=
  (trials.filter fun t => t.workload = workload ∧ t.repeat_ = repeat_).map Trial.case

/-- In as many repeats as there are cases to a position, each case stands at each position. -/
def Balanced : Prop :=
  ∀ workload ∈ workloads, ∀ c ∈ cases, ∀ position < cases.length,
    ((List.range' 1 repeats).countP fun repeat_ =>
      (casesIn trials workload repeat_)[position]? = some c) = repeats / cases.length

end

/-! ### Blocks -/

/-- The trials of one workload in one repeat. -/
structure Block (κ ω : Type) where
  key : Nat × ω
  cases : List κ

variable {ρ κ ω : Type}

def Block.trials (b : Block κ ω) : List (Trial κ ω) :=
  b.cases.map fun c => ⟨c, b.key.2, b.key.1⟩

/-- A block runs every case; if it has to, in the order of a rotation of `base`. -/
structure Block.Runs (cases base : List κ) (order : Order) (b : Block κ ω) : Prop where
  perm : b.cases.Perm cases
  rotated : order = .rotate → b.cases = base.rotate (b.key.1 - 1)

/-- A loop has extended `trials` by a block for each key. -/
def Extends (runs : Block κ ω → Prop) (trials : List (Trial κ ω) × ρ) (keys : List (Nat × ω))
    (result : Option (List (Trial κ ω) × ρ)) : Prop :=
  ∃ (blocks : List (Block κ ω)) (g : ρ), result = some (trials.1 ++ blocks.flatMap Block.trials, g) ∧
    blocks.map Block.key = keys ∧ ∀ b ∈ blocks, runs b

theorem extends_foldlM {α : Type} {runs : Block κ ω → Prop}
    {step : List (Trial κ ω) × ρ → α → Option (List (Trial κ ω) × ρ)} {keys : α → List (Nat × ω)}
    (each : ∀ trials x, Extends runs trials (keys x) (step trials x)) (xs : List α)
    (trials : List (Trial κ ω) × ρ) :
    Extends runs trials (xs.flatMap keys) (xs.foldlM step trials) := by
  induction xs generalizing trials with
  | nil => exact ⟨[], trials.2, by simp, rfl, fun b member => absurd member List.not_mem_nil⟩
  | cons x xs ih =>
    obtain ⟨first, g, stepped, named, ran⟩ := each trials x
    obtain ⟨rest, g', looped, named', ran'⟩ := ih (trials.1 ++ first.flatMap Block.trials, g)
    refine ⟨first ++ rest, g', ?_, ?_, ?_⟩
    · rw [List.foldlM_cons, stepped, Option.bind_eq_bind, Option.bind_some, looped,
        List.flatMap_append, List.append_assoc]
    · rw [List.map_append, named, named', List.flatMap_cons]
    · intro b member
      exact (List.mem_append.mp member).elim (ran b) (ran' b)

section

variable {rng : Random ρ κ} {cases base : List κ}
  (permutes : ∀ l g, (rng.shuffle l g).1.Perm l) (perm : base.Perm cases) (some_ : cases ≠ [])

include permutes perm some_

theorem sequence_runs (order : Order) (repeat_ : Nat) (workload : ω) (g : ρ) :
    ∃ l g', sequence rng cases base order repeat_ g = some (l, g') ∧
      Block.Runs cases base order ⟨(repeat_, workload), l⟩ := by
  cases order with
  | paper => exact ⟨cases, g, rfl, List.Perm.refl _, fun same => Order.noConfusion same⟩
  | shuffle => exact ⟨_, _, rfl, permutes cases g, fun same => Order.noConfusion same⟩
  | rotate =>
    have length : base.length ≠ 0 := by
      rw [perm.length_eq]
      exact fun zero => some_ (List.eq_nil_of_length_eq_zero zero)
    refine ⟨base.rotate (repeat_ - 1), g, ?_, (List.rotate_perm _ _).trans perm, fun _ => rfl⟩
    rw [sequence, if_neg length, List.rotate_eq_drop_append_take_mod]

theorem extend_extends (order : Order) (repeat_ : Nat) (trials : List (Trial κ ω) × ρ)
    (workload : ω) : Extends (Block.Runs cases base order) trials [(repeat_, workload)]
      (extend rng cases base order repeat_ trials workload) := by
  obtain ⟨l, g, taken, ran⟩ :=
    sequence_runs permutes perm some_ order repeat_ workload trials.2
  refine ⟨[⟨(repeat_, workload), l⟩], g, ?_, rfl, ?_⟩
  · rw [extend, taken, List.flatMap_singleton]
    rfl
  · intro b member
    rwa [List.mem_singleton.mp member]

end

/-- The trials come in blocks, one for each repeat and workload. -/
theorem executionOrder_blocks {rng : Random ρ κ} {cases : List κ}
    (permutes : ∀ l g, (rng.shuffle l g).1.Perm l) (some_ : cases ≠ []) (workloads : List ω)
    (repeats : Nat) (seed : Int) (order : Order) :
    ∃ blocks : List (Block κ ω),
      executionOrder rng cases workloads repeats seed order =
        some (blocks.flatMap Block.trials) ∧
      blocks.map Block.key = (List.range' 1 repeats).product workloads ∧
      ∀ b ∈ blocks, b.Runs cases (rng.shuffle cases (rng.seeded seed)).1 order := by
  have perm := permutes cases (rng.seeded seed)
  obtain ⟨blocks, g, looped, named, ran⟩ := extends_foldlM
    (fun trials repeat_ => extends_foldlM (extend_extends permutes perm some_ order repeat_)
      workloads trials)
    (List.range' 1 repeats) ([], (rng.shuffle cases (rng.seeded seed)).2)
  refine ⟨blocks, ?_, ?_, ran⟩
  · rw [executionOrder, Option.bind_eq_bind, looped]
    rfl
  · rw [named]
    refine List.flatMap_congr fun repeat_ _ => ?_
    exact List.map_eq_flatMap.symm

/-! ### Complete -/

section

variable {blocks : List (Block κ ω)} {cases : List κ}

theorem Block.mem_trials {b : Block κ ω} {t : Trial κ ω} :
    t ∈ b.trials ↔ t.case ∈ b.cases ∧ b.key = (t.repeat_, t.workload) := by
  constructor
  · intro member
    obtain ⟨c, inside, rfl⟩ := List.mem_map.mp member
    exact ⟨inside, rfl⟩
  · rintro ⟨inside, key⟩
    refine List.mem_map.mpr ⟨t.case, inside, ?_⟩
    rw [key]

theorem trials_nodup (keys : (blocks.map Block.key).Nodup)
    (distinct : ∀ b ∈ blocks, b.cases.Nodup) : (blocks.flatMap Block.trials).Nodup := by
  rw [List.nodup_flatMap]
  constructor
  · intro b member
    refine (distinct b member).map ?_
    intro c d same
    exact congrArg Trial.case same
  · refine (List.pairwise_map.mp keys).imp ?_
    intro b b' other t first second
    exact other ((Block.mem_trials.mp first).2.trans (Block.mem_trials.mp second).2.symm)

/-! ### Balanced -/

variable [DecidableEq κ] [DecidableEq ω]

omit [DecidableEq κ] in
theorem casesIn_block (keys : (blocks.map Block.key).Nodup) {b : Block κ ω} (member : b ∈ blocks) :
    casesIn (blocks.flatMap Block.trials) b.key.2 b.key.1 = b.cases := by
  obtain ⟨before, after, rfl⟩ := List.append_of_mem member
  rw [List.map_append, List.map_cons, List.nodup_middle, List.nodup_cons, ← List.map_append] at keys
  have others : ∀ b' ∈ before ++ after, b'.key ≠ b.key := by
    intro b' inside same
    exact keys.1 (List.mem_map.mpr ⟨b', inside, same⟩)
  have none : ∀ l : List (Block κ ω), (∀ b' ∈ l, b'.key ≠ b.key) →
      (l.flatMap Block.trials).filter
        (fun t => t.workload = b.key.2 ∧ t.repeat_ = b.key.1) = [] := by
    intro l other
    rw [List.filter_eq_nil_iff]
    intro t inside keyed
    obtain ⟨b', listed, inside⟩ := List.mem_flatMap.mp inside
    obtain ⟨workload, repeat_⟩ := of_decide_eq_true keyed
    refine other b' listed ?_
    rw [(Block.mem_trials.mp inside).2, workload, repeat_]
  have own : b.trials.filter (fun t => t.workload = b.key.2 ∧ t.repeat_ = b.key.1) = b.trials := by
    rw [List.filter_eq_self]
    intro t inside
    rw [(Block.mem_trials.mp inside).2]
    exact decide_eq_true ⟨rfl, rfl⟩
  rw [casesIn, List.flatMap_append, List.flatMap_cons, List.filter_append, List.filter_append, own,
    none before fun b' inside => others b' (List.mem_append_left _ inside),
    none after fun b' inside => others b' (List.mem_append_right _ inside), List.nil_append,
    List.append_nil, Block.trials, List.map_map]
  exact List.map_id _

theorem count_rotate {base : List κ} (distinct : base.Nodup) {c : κ} (member : c ∈ base)
    {position repeats : Nat} (inside : position < base.length) (rounds : base.length ∣ repeats) :
    (List.range' 1 repeats).countP (fun repeat_ =>
      (base.rotate (repeat_ - 1))[position]? = some c) = repeats / base.length := by
  obtain ⟨i, bounded, rfl⟩ := List.mem_iff_getElem.mp member
  have positive := Nat.zero_lt_of_lt inside
  have meets : ∀ k, (base.rotate k)[position]? = some base[i] ↔
      k ≡ Ring.dist base.length position i [MOD base.length] := by
    intro k
    have spot := Nat.mod_lt (position + k) positive
    rw [List.getElem?_rotate inside, List.getElem?_eq_getElem spot, Option.some.injEq,
      distinct.getElem_inj_iff]
    have reached := Ring.add_dist position i bounded
    constructor
    · intro same
      exact Nat.ModEq.add_left_cancel' position (same.trans reached.symm)
    · intro same
      exact Eq.trans (Nat.ModEq.add_left position same) reached
  have counted := Nat.count_modEq_card repeats positive (Ring.dist base.length position i)
  rw [Nat.mod_eq_zero_of_dvd rounds, if_neg (Nat.not_lt_zero _), Nat.add_zero, Nat.count] at counted
  rw [List.range'_eq_map_range, List.countP_map, ← counted]
  refine List.countP_congr fun k _ => ?_
  rw [Function.comp_apply, Nat.add_sub_cancel_left, decide_eq_true_iff, decide_eq_true_iff, meets]

/-- The order is complete in every mode. In rotate mode, if every case gets as many repeats as
the others, it is balanced. -/
theorem executionOrder_complete_balanced (rng : Random ρ κ)
    (permutes : ∀ l g, (rng.shuffle l g).1.Perm l) {workloads : List ω} (some_ : cases ≠ [])
    (distinct : cases.Nodup) (apart : workloads.Nodup) (repeats : Nat) (seed : Int)
    (order : Order) :
    ∃ trials, executionOrder rng cases workloads repeats seed order = some trials ∧
      Complete cases workloads repeats trials ∧
      (order = .rotate → cases.length ∣ repeats → Balanced cases workloads repeats trials) := by
  obtain ⟨blocks, returned, named, ran⟩ :=
    executionOrder_blocks permutes some_ workloads repeats seed order
  have keys : (blocks.map Block.key).Nodup := named ▸ List.Nodup.product List.nodup_range' apart
  have listed : ∀ repeat_ workload, (repeat_, workload) ∈ blocks.map Block.key ↔
      (1 ≤ repeat_ ∧ repeat_ ≤ repeats) ∧ workload ∈ workloads := by
    intro repeat_ workload
    rw [named, List.pair_mem_product, List.mem_range'_1, and_congr_left_iff]
    omega
  refine ⟨_, returned, ⟨?_, ?_⟩, ?_⟩
  · exact trials_nodup keys fun b member => (ran b member).perm.nodup_iff.mpr distinct
  · intro t
    have key := listed t.repeat_ t.workload
    rw [List.mem_flatMap]
    constructor
    · rintro ⟨b, member, inside⟩
      obtain ⟨case, same⟩ := Block.mem_trials.mp inside
      have found := key.mp (same ▸ List.mem_map_of_mem member)
      exact ⟨(ran b member).perm.mem_iff.mp case, found.2, found.1⟩
    · rintro ⟨case, workload, bounds⟩
      obtain ⟨b, member, same⟩ := List.mem_map.mp (key.mpr ⟨bounds, workload⟩)
      exact ⟨b, member, Block.mem_trials.mpr ⟨(ran b member).perm.mem_iff.mpr case, same⟩⟩
  · intro rotating rounds workload member c listed' position inside
    have perm := permutes cases (rng.seeded seed)
    rw [← perm.length_eq] at inside rounds ⊢
    rw [← count_rotate (perm.nodup_iff.mpr distinct) (perm.mem_iff.mpr listed') inside rounds]
    refine List.countP_congr fun repeat_ round => ?_
    have key := (listed repeat_ workload).mpr ⟨by rw [List.mem_range'_1] at round; omega, member⟩
    obtain ⟨b, block, same⟩ := List.mem_map.mp key
    have cases' := casesIn_block keys block
    rw [same] at cases'
    rw [cases', (ran b block).rotated rotating, same]

end

/-- A generator that leaves three elements in their order, as the seed 5 does. -/
def inOrder : Random Unit String := ⟨fun _ => (), fun l g => (l, g)⟩

theorem executionOrder_three : ∃ trials,
    executionOrder inOrder ["posix", "uring_sync", "libaio_async"] ["randrw", "randread"] 6 5
      .rotate = some trials ∧
      Complete ["posix", "uring_sync", "libaio_async"] ["randrw", "randread"] 6 trials ∧
      Balanced ["posix", "uring_sync", "libaio_async"] ["randrw", "randread"] 6 trials := by
  have some_ : ["posix", "uring_sync", "libaio_async"] ≠ [] := by decide
  have apart : ["randrw", "randread"].Nodup := by decide
  obtain ⟨trials, returned, complete, balanced⟩ := executionOrder_complete_balanced inOrder
    (fun l _ => List.Perm.refl l) some_ (by decide) apart 6 5 .rotate
  exact ⟨trials, returned, complete, balanced rfl (by decide)⟩

end UringDb.Fio
