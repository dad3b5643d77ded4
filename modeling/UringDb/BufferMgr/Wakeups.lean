import UringDb.Lib.Bits
import UringDb.Lib.Run
import UringDb.Lib.Sum

/-!
# Cross-worker wake-ups

`WakeMatrix` has, for each destination worker, a ring per source, a bitmap of sources and a
counter of pending wake-ups. `wake_fiber` pushes the fiber, sets the source bit and adds to the
counter, in three steps. `drain_inbound_wakeups` takes the bitmap away word by word, empties the
rings of the sources it finds and finally subtracts what it has drained. Any number of workers
do this at the same time; a worker is in one call at a time.

The counter is off by the wake-ups that are pushed and not yet added and by those that are
drained and not yet subtracted, so it may wrap below zero meanwhile.
-/
namespace UringDb.Wakeups

def capacity : Nat := 4096

def sourceWordCount (workers : Nat) : Nat := (workers + 63) / 64

/-- Where a worker is in `wake_fiber` or in `drain_inbound_wakeups`. -/
inductive Pc (workers : Nat) (φ : Type) where
  | idle
  | push (fiber : φ)
  | setBit (dst : Fin workers)
  | addPending (dst : Fin workers)
  /-- Before the exchange of a word of the bitmap, or past the last one. -/
  | word (idx : Nat) (drained : BitVec 64)
  /-- In the loop over the bits of `active`. -/
  | scan (idx : Nat) (active : BitVec 64) (drained : BitVec 64)
  /-- In the loop that empties the ring of `src`. -/
  | pop (idx : Nat) (active : BitVec 64) (src : Fin workers) (drained : BitVec 64)

/-- The matrix, by destination and source, with the fibers ever pushed and popped. -/
structure State (workers : Nat) (φ : Type) where
  channel : Fin workers → Fin workers → List φ
  activeSources : Fin workers → Nat → BitVec 64
  pending : Fin workers → BitVec 64
  pcs : Fin workers → Pc workers φ
  pushed : Fin workers → Fin workers → List φ
  popped : Fin workers → Fin workers → List φ

inductive Act (workers : Nat) (φ : Type) where
  /-- A worker calls `wake_fiber`. -/
  | wakeFiber (w : Fin workers) (fiber : φ)
  /-- A worker calls `drain_inbound_wakeups`. -/
  | drain (w : Fin workers)
  | step (w : Fin workers)

inductive Out where
  | silent
  /-- `mini::wake` of a fiber of the worker itself, or of a popped one. -/
  | woken
  deriving DecidableEq

section

variable {workers : Nat} {φ : Type}

def put {ι κ α : Type} [DecidableEq ι] [DecidableEq κ] (m : ι → κ → α) (i : ι) (j : κ) (a : α) :
    ι → κ → α :=
  Function.update m i (Function.update (m i) j a)

def State.goto (s : State workers φ) (w : Fin workers) (pc : Pc workers φ) : State workers φ :=
  { s with pcs := Function.update s.pcs w pc }

/-- The bit of a source in its word of the bitmap. -/
def sourceBit (src : Nat) : BitVec 64 := 1#64 <<< (src % 64)

def step (owner : φ → Fin workers) (s : State workers φ) (w : Fin workers) :
    Option (State workers φ × Out) :=
  match s.pcs w with
  | .idle => none
  | .push fiber =>
    let dst := owner fiber
    -- a full ring is tried again
    if (s.channel dst w).length = capacity then some (s, .silent)
    else
      some ({ s with
        channel := put s.channel dst w (s.channel dst w ++ [fiber])
        pushed := put s.pushed dst w (s.pushed dst w ++ [fiber])
        pcs := Function.update s.pcs w (.setBit dst) }, .silent)
  | .setBit dst =>
    let idx := w.val / 64
    some ({ s with
      activeSources := put s.activeSources dst idx (s.activeSources dst idx ||| sourceBit w)
      pcs := Function.update s.pcs w (.addPending dst) }, .silent)
  | .addPending dst =>
    some ({ s with
      pending := Function.update s.pending dst (s.pending dst + 1)
      pcs := Function.update s.pcs w .idle }, .silent)
  | .word idx drained =>
    if idx < sourceWordCount workers then
      some ({ s with
        activeSources := put s.activeSources w idx 0
        pcs := Function.update s.pcs w (.scan idx (s.activeSources w idx) drained) }, .silent)
    else if drained ≠ 0 then
      some ({ s with
        pending := Function.update s.pending w (s.pending w - drained)
        pcs := Function.update s.pcs w .idle }, .silent)
    else some (s.goto w .idle, .silent)
  | .scan idx active drained =>
    if active = 0 then some (s.goto w (.word (idx + 1) drained), .silent)
    else
      let src := idx * 64 + active.ctz.toNat
      let active := active &&& (active - 1)
      if low : src < workers then some (s.goto w (.pop idx active ⟨src, low⟩ drained), .silent)
      else some (s.goto w (.scan idx active drained), .silent)
  | .pop idx active src drained =>
    match s.channel w src with
    | [] => some (s.goto w (.scan idx active drained), .silent)
    | fiber :: rest =>
      some ({ s with
        channel := put s.channel w src rest
        popped := put s.popped w src (s.popped w src ++ [fiber])
        pcs := Function.update s.pcs w (.pop idx active src (drained + 1)) }, .woken)

def Pc.isIdle : Pc workers φ → Bool
  | .idle => true
  | _ => false

def exec (owner : φ → Fin workers) (s : State workers φ) :
    Act workers φ → Option (State workers φ × Out)
  | .wakeFiber w fiber =>
    if (s.pcs w).isIdle then
      if owner fiber = w then some (s, .woken) else some (s.goto w (.push fiber), .silent)
    else none
  | .drain w =>
    if (s.pcs w).isIdle then
      if s.pending w = 0 then some (s, .silent) else some (s.goto w (.word 0 0), .silent)
    else none
  | .step w => step owner s w

/-- The constructor of `WakeMatrix`. -/
structure Initial (s : State workers φ) : Prop where
  idle : ∀ w, s.pcs w = .idle
  channel : ∀ dst src, s.channel dst src = [] ∧ s.pushed dst src = [] ∧ s.popped dst src = []
  activeSources : ∀ dst idx, s.activeSources dst idx = 0
  pending : ∀ dst, s.pending dst = 0

def system (owner : φ → Fin workers) : System (State workers φ) (Act workers φ × Out) :=
  System.ofStep Initial (exec owner)

/-! ### The invariant -/

/-- How many of a worker's wake-ups for `dst` are pushed and not yet added to the counter. -/
def Pc.owes (dst : Fin workers) : Pc workers φ → Nat
  | .setBit d => if d = dst then 1 else 0
  | .addPending d => if d = dst then 1 else 0
  | _ => 0

/-- What a worker has drained and not yet subtracted. -/
def Pc.drained : Pc workers φ → BitVec 64
  | .word _ drained => drained
  | .scan _ _ drained => drained
  | .pop _ _ _ drained => drained
  | _ => 0

/-- The sources that a drain has taken from the bitmap and not yet visited to the end. -/
def Pc.Covers (src : Fin workers) : Pc workers φ → Prop
  | .scan idx active _ => src.val / 64 = idx ∧ active.getLsbD (src.val % 64) = true
  | .pop idx active s _ =>
    src = s ∨ (src.val / 64 = idx ∧ active.getLsbD (src.val % 64) = true)
  | _ => False

/-- The source bit of `src` is set for `dst`. -/
def Marked (s : State workers φ) (dst src : Fin workers) : Prop :=
  (s.activeSources dst (src.val / 64)).getLsbD (src.val % 64) = true

/-- The number of items in the inbound channels of `dst`. -/
def inbound (channel : Fin workers → Fin workers → List φ) (dst : Fin workers) : Nat :=
  ∑ src, (channel dst src).length

def owed (s : State workers φ) (dst : Fin workers) : Nat := ∑ src, (s.pcs src).owes dst

structure Inv (s : State workers φ) : Prop where
  order : ∀ dst src, s.popped dst src ++ s.channel dst src = s.pushed dst src
  fits : ∀ dst src, (s.channel dst src).length ≤ capacity
  marked : ∀ dst src, s.channel dst src ≠ [] →
    Marked s dst src ∨ s.pcs src = .setBit dst ∨ (s.pcs dst).Covers src
  count : ∀ dst, s.pending dst + BitVec.ofNat 64 (owed s dst) =
    BitVec.ofNat 64 (inbound s.channel dst) + (s.pcs dst).drained

/-! ### Counting -/

section

variable {ι κ α : Type} [DecidableEq ι] [DecidableEq κ] (m : ι → κ → α) (a : α)

theorem put_self (i : ι) (j : κ) : put m i j a i j = a := by
  simp [put]

theorem put_ne {i i' : ι} {j j' : κ} (ne : i' ≠ i ∨ j' ≠ j) : put m i j a i' j' = m i' j' := by
  by_cases row : i' = i
  · subst row
    simp [put, ne.resolve_left fun other => other rfl]
  · simp [put, row]

theorem put_row {i i' : ι} (j : κ) (ne : i' ≠ i) : put m i j a i' = m i' := by
  simp [put, ne]

end

variable {s t : State workers φ} {w : Fin workers}

theorem owed_goto {pc : Pc workers φ} (pcs : t.pcs = Function.update s.pcs w pc)
    (dst : Fin workers) : owed t dst + (s.pcs w).owes dst = owed s dst + pc.owes dst := by
  rw [owed, pcs]
  exact sum_update Finset.univ s.pcs w pc (Pc.owes dst) (Finset.mem_univ w)

theorem inbound_put (c : Fin workers → Fin workers → List φ) (dst src : Fin workers) (l : List φ) :
    inbound (put c dst src l) dst + (c dst src).length = inbound c dst + l.length := by
  have row : put c dst src l dst = Function.update (c dst) src l := Function.update_self ..
  rw [inbound, row]
  exact sum_update Finset.univ (c dst) src l List.length (Finset.mem_univ src)

theorem inbound_row (c : Fin workers → Fin workers → List φ) {dst d : Fin workers}
    (src : Fin workers) (l : List φ) (ne : d ≠ dst) :
    inbound (put c dst src l) d = inbound c d := by
  rw [inbound, put_row _ _ _ ne]
  rfl

/-! ### Steps keep the invariant -/

/-- What a step of the worker `w` may do to the sources a drain has to find: a channel that it
fills has its source about to set the bit, a bit that it takes away is covered by its own drain,
and what its drain lets go is empty. -/
theorem Inv.marked_step (inv : Inv s) {pc : Pc workers φ} (pcs : t.pcs = Function.update s.pcs w pc)
    (fills : ∀ dst src, t.channel dst src ≠ [] →
      s.channel dst src ≠ [] ∨ (src = w ∧ pc = .setBit dst))
    (takes : ∀ dst src, Marked s dst src → Marked t dst src ∨ (dst = w ∧ pc.Covers src))
    (sets : ∀ dst, s.pcs w = .setBit dst → Marked t dst w)
    (covers : ∀ src, t.channel w src ≠ [] → (s.pcs w).Covers src → pc.Covers src)
    (dst src : Fin workers) (some : t.channel dst src ≠ []) :
    Marked t dst src ∨ t.pcs src = .setBit dst ∨ (t.pcs dst).Covers src := by
  have here : t.pcs w = pc := by rw [pcs, Function.update_self]
  have others : ∀ v, v ≠ w → t.pcs v = s.pcs v := fun v ne => by
    rw [pcs, Function.update_of_ne ne]
  rcases fills dst src some with old | ⟨rfl, rfl⟩
  · rcases inv.marked dst src old with bit | setting | covered
    · rcases takes dst src bit with stays | ⟨rfl, taken⟩
      · exact Or.inl stays
      · exact Or.inr (Or.inr (here ▸ taken))
    · by_cases self : src = w
      · subst self
        exact Or.inl (sets dst setting)
      · exact Or.inr (Or.inl ((others src self).trans setting))
    · by_cases self : dst = w
      · subst self
        exact Or.inr (Or.inr (here ▸ covers src some covered))
      · exact Or.inr (Or.inr ((others dst self) ▸ covered))
  · exact Or.inr (Or.inl here)

/-- The account of a destination after a step of the worker `w`, from what it owes and has
drained before and after. -/
theorem Inv.count_step (inv : Inv s) {pc : Pc workers φ} (pcs : t.pcs = Function.update s.pcs w pc)
    (dst : Fin workers)
    (moves : t.pending dst + BitVec.ofNat 64 (pc.owes dst) +
        BitVec.ofNat 64 (inbound s.channel dst) + (if dst = w then (s.pcs w).drained else 0) =
      s.pending dst + BitVec.ofNat 64 ((s.pcs w).owes dst) +
        BitVec.ofNat 64 (inbound t.channel dst) + (if dst = w then pc.drained else 0)) :
    t.pending dst + BitVec.ofNat 64 (owed t dst) =
      BitVec.ofNat 64 (inbound t.channel dst) + (t.pcs dst).drained := by
  have count := inv.count dst
  have owes : BitVec.ofNat 64 (owed t dst) + BitVec.ofNat 64 ((s.pcs w).owes dst) =
      BitVec.ofNat 64 (owed s dst) + BitVec.ofNat 64 (pc.owes dst) := by
    rw [← BitVec.ofNat_add, ← BitVec.ofNat_add, owed_goto pcs dst]
  have drained : (t.pcs dst).drained + (if dst = w then (s.pcs w).drained else 0) =
      (s.pcs dst).drained + (if dst = w then pc.drained else 0) := by
    by_cases self : dst = w
    · subst self
      rw [pcs, Function.update_self, if_pos rfl, if_pos rfl, BitVec.add_comm]
    · rw [pcs, Function.update_of_ne self, if_neg self, if_neg self]
  generalize BitVec.ofNat 64 (owed t dst) = owed' at *
  generalize BitVec.ofNat 64 (owed s dst) = owed₀ at *
  generalize BitVec.ofNat 64 (inbound t.channel dst) = inbound' at *
  generalize BitVec.ofNat 64 (inbound s.channel dst) = inbound₀ at *
  generalize (if dst = w then (s.pcs w).drained else 0) = mine at *
  generalize (if dst = w then pc.drained else 0) = mine' at *
  grind

theorem Inv.goto (inv : Inv s) {pc : Pc workers φ} (owes : ∀ dst, pc.owes dst = (s.pcs w).owes dst)
    (drained : pc.drained = (s.pcs w).drained) (free : ∀ dst, s.pcs w ≠ .setBit dst)
    (covers : ∀ src, s.channel w src ≠ [] → (s.pcs w).Covers src → pc.Covers src) :
    Inv (s.goto w pc) := by
  refine ⟨inv.order, inv.fits, inv.marked_step rfl (fun _ _ some => Or.inl some)
    (fun _ _ bit => Or.inl bit) (fun dst here => absurd here (free dst)) covers, fun dst => ?_⟩
  refine inv.count_step rfl dst ?_
  rw [owes, drained]
  rfl

theorem Inv.push (inv : Inv s) {fiber : φ} {dst : Fin workers} (at_ : s.pcs w = .push fiber)
    (room : (s.channel dst w).length ≠ capacity) :
    Inv { s with
      channel := put s.channel dst w (s.channel dst w ++ [fiber])
      pushed := put s.pushed dst w (s.pushed dst w ++ [fiber])
      pcs := Function.update s.pcs w (.setBit dst) } := by
  refine ⟨fun d src => ?_, fun d src => ?_, inv.marked_step rfl (fun d src some => ?_)
    (fun _ _ bit => Or.inl bit) (by simp [at_]) (by simp [at_, Pc.Covers]), fun d => ?_⟩
  · by_cases here : d = dst ∧ src = w
    · obtain ⟨rfl, rfl⟩ := here
      simp only [put_self]
      rw [← List.append_assoc, inv.order]
    · simp only [put_ne _ _ (not_and_or.mp here)]
      exact inv.order d src
  · by_cases here : d = dst ∧ src = w
    · obtain ⟨rfl, rfl⟩ := here
      have fits := inv.fits d src
      simp only [put_self, List.length_append, List.length_singleton]
      omega
    · simp only [put_ne _ _ (not_and_or.mp here)]
      exact inv.fits d src
  · by_cases here : d = dst ∧ src = w
    · exact Or.inr ⟨here.2, congrArg Pc.setBit here.1.symm⟩
    · simp only [put_ne _ _ (not_and_or.mp here)] at some
      exact Or.inl some
  · refine inv.count_step rfl d ?_
    simp only [at_, Pc.owes, Pc.drained, ite_self]
    by_cases self : d = dst
    · subst self
      have more := inbound_put s.channel d w (s.channel d w ++ [fiber])
      have one : inbound (put s.channel d w (s.channel d w ++ [fiber])) d =
          inbound s.channel d + 1 := by
        rw [List.length_append, List.length_singleton] at more
        omega
      rw [one, BitVec.ofNat_add, if_pos rfl]
      grind
    · rw [inbound_row s.channel _ _ self, if_neg (Ne.symm self)]

theorem Inv.setBit (inv : Inv s) {dst : Fin workers} (at_ : s.pcs w = .setBit dst) :
    Inv { s with
      activeSources := put s.activeSources dst (w.val / 64)
        (s.activeSources dst (w.val / 64) ||| sourceBit w)
      pcs := Function.update s.pcs w (.addPending dst) } := by
  have bits : ∀ d idx i, (s.activeSources d idx).getLsbD i = true →
      (put s.activeSources dst (w.val / 64) (s.activeSources dst (w.val / 64) ||| sourceBit w) d
        idx).getLsbD i = true := by
    intro d idx i set
    by_cases here : d = dst ∧ idx = w.val / 64
    · obtain ⟨rfl, rfl⟩ := here
      rw [put_self, BitVec.getLsbD_or, set, Bool.true_or]
    · rwa [put_ne _ _ (not_and_or.mp here)]
  refine ⟨inv.order, inv.fits, inv.marked_step rfl (fun _ _ some => Or.inl some)
    (fun d src bit => Or.inl (bits d _ _ bit)) (fun d here => ?_) (by simp [at_, Pc.Covers]),
    fun d => inv.count_step rfl d ?_⟩
  · obtain rfl : dst = d := by
      rw [at_] at here
      exact Pc.setBit.inj here
    have low : w.val % 64 < 64 := Nat.mod_lt _ (by decide)
    simp [Marked, put_self, sourceBit, low]
  · simp only [at_, Pc.owes, Pc.drained, ite_self]

theorem Inv.addPending (inv : Inv s) {dst : Fin workers} (at_ : s.pcs w = .addPending dst) :
    Inv { s with
      pending := Function.update s.pending dst (s.pending dst + 1)
      pcs := Function.update s.pcs w .idle } := by
  refine ⟨inv.order, inv.fits, inv.marked_step rfl (fun _ _ some => Or.inl some)
    (fun _ _ bit => Or.inl bit) (by simp [at_]) (by simp [at_, Pc.Covers]),
    fun d => inv.count_step rfl d ?_⟩
  simp only [at_, Pc.owes, Pc.drained, ite_self]
  by_cases self : d = dst
  · subst self
    rw [Function.update_self, if_pos rfl]
    grind
  · rw [Function.update_of_ne self, if_neg (Ne.symm self)]

theorem Inv.takeWord (inv : Inv s) {idx : Nat} {drained : BitVec 64}
    (at_ : s.pcs w = .word idx drained) :
    Inv { s with
      activeSources := put s.activeSources w idx 0
      pcs := Function.update s.pcs w (.scan idx (s.activeSources w idx) drained) } := by
  refine ⟨inv.order, inv.fits, inv.marked_step rfl (fun _ _ some => Or.inl some)
    (fun d src bit => ?_) (by simp [at_]) (by simp [at_, Pc.Covers]),
    fun d => inv.count_step rfl d ?_⟩
  · by_cases here : d = w ∧ src.val / 64 = idx
    · obtain ⟨rfl, rfl⟩ := here
      exact Or.inr ⟨rfl, rfl, bit⟩
    · refine Or.inl ?_
      simp only [Marked, put_ne _ _ (not_and_or.mp here)]
      exact bit
  · simp only [at_, Pc.owes, Pc.drained]

theorem Inv.subtract (inv : Inv s) {idx : Nat} {drained : BitVec 64}
    (at_ : s.pcs w = .word idx drained) :
    Inv { s with
      pending := Function.update s.pending w (s.pending w - drained)
      pcs := Function.update s.pcs w .idle } := by
  refine ⟨inv.order, inv.fits, inv.marked_step rfl (fun _ _ some => Or.inl some)
    (fun _ _ bit => Or.inl bit) (by simp [at_]) (by simp [at_, Pc.Covers]),
    fun d => inv.count_step rfl d ?_⟩
  simp only [at_, Pc.owes, Pc.drained, ite_self]
  by_cases self : d = w
  · subst self
    rw [Function.update_self, if_pos rfl]
    grind
  · rw [Function.update_of_ne self, if_neg self]

theorem Inv.pop (inv : Inv s) {idx : Nat} {active drained : BitVec 64} {src : Fin workers}
    {fiber : φ} {rest : List φ} (at_ : s.pcs w = .pop idx active src drained)
    (first : s.channel w src = fiber :: rest) :
    Inv { s with
      channel := put s.channel w src rest
      popped := put s.popped w src (s.popped w src ++ [fiber])
      pcs := Function.update s.pcs w (.pop idx active src (drained + 1)) } := by
  refine ⟨fun d r => ?_, fun d r => ?_, inv.marked_step rfl (fun d r some => Or.inl ?_)
    (fun _ _ bit => Or.inl bit) (by simp [at_]) (by simp [at_, Pc.Covers]), fun d => ?_⟩
  · by_cases here : d = w ∧ r = src
    · obtain ⟨rfl, rfl⟩ := here
      have order := inv.order d r
      rw [first] at order
      simp only [put_self]
      rw [← order, List.append_assoc, List.singleton_append]
    · simp only [put_ne _ _ (not_and_or.mp here)]
      exact inv.order d r
  · by_cases here : d = w ∧ r = src
    · obtain ⟨rfl, rfl⟩ := here
      have fits := inv.fits d r
      rw [first, List.length_cons] at fits
      simp only [put_self]
      omega
    · simp only [put_ne _ _ (not_and_or.mp here)]
      exact inv.fits d r
  · by_cases here : d = w ∧ r = src
    · obtain ⟨rfl, rfl⟩ := here
      rw [first]
      exact List.cons_ne_nil _ _
    · simpa only [put_ne _ _ (not_and_or.mp here)] using some
  · refine inv.count_step rfl d ?_
    simp only [at_, Pc.owes, Pc.drained]
    by_cases self : d = w
    · subst self
      have less := inbound_put s.channel d src rest
      rw [first, List.length_cons] at less
      have one : inbound s.channel d = inbound (put s.channel d src rest) d + 1 := by omega
      rw [one, BitVec.ofNat_add, if_pos rfl, if_pos rfl]
      grind
    · rw [inbound_row s.channel _ _ self, if_neg self, if_neg self]

/-- The drain goes to the lowest source of its word. Another source stays in the word. -/
theorem covers_lowest {idx : Nat} {active : BitVec 64} {src : Fin workers} (some : active ≠ 0)
    (word : src.val / 64 = idx) (bit : active.getLsbD (src.val % 64) = true) :
    src.val = idx * 64 + active.ctz.toNat ∨
      (active &&& (active - 1)).getLsbD (src.val % 64) = true := by
  by_cases lowest : src.val % 64 = active.ctz.toNat
  · left
    omega
  · right
    have cleared := getLsbD_clear_lowest some (src.val % 64)
    rw [bit] at cleared
    simpa [lowest] using cleared

theorem inv_workerStep {owner : φ → Fin workers} {out : Out} (inv : Inv s)
    (stepped : step owner s w = some (t, out)) : Inv t := by
  unfold step at stepped
  cases at_ : s.pcs w with
  | idle => simp [at_] at stepped
  | push fiber =>
    simp only [at_] at stepped
    split at stepped <;> cases stepped
    next => exact inv
    next room => exact inv.push at_ room
  | setBit dst =>
    simp only [at_] at stepped
    cases stepped
    exact inv.setBit at_
  | addPending dst =>
    simp only [at_] at stepped
    cases stepped
    exact inv.addPending at_
  | word idx drained =>
    simp only [at_] at stepped
    split at stepped
    · cases stepped
      exact inv.takeWord at_
    · split at stepped <;> cases stepped
      next => exact inv.subtract at_
      next none =>
        have zero : drained = 0 := not_not.mp none
        exact inv.goto (by simp [at_, Pc.owes]) (by simp [at_, Pc.drained, zero]) (by simp [at_])
          (by simp [at_, Pc.Covers])
  | scan idx active drained =>
    simp only [at_] at stepped
    split at stepped
    next none =>
      cases stepped
      refine inv.goto (by simp [at_, Pc.owes]) (by simp [at_, Pc.drained]) (by simp [at_]) ?_
      simp [at_, Pc.Covers, none]
    next some =>
      split at stepped <;> cases stepped
      next low =>
        refine inv.goto (by simp [at_, Pc.owes]) (by simp [at_, Pc.drained]) (by simp [at_]) ?_
        intro src _ covered
        rw [at_] at covered
        rcases covers_lowest some covered.1 covered.2 with lowest | stays
        · exact Or.inl (Fin.ext lowest)
        · exact Or.inr ⟨covered.1, stays⟩
      next high =>
        refine inv.goto (by simp [at_, Pc.owes]) (by simp [at_, Pc.drained]) (by simp [at_]) ?_
        intro src _ covered
        rw [at_] at covered
        rcases covers_lowest some covered.1 covered.2 with lowest | stays
        · exact absurd (lowest ▸ src.isLt) high
        · exact ⟨covered.1, stays⟩
  | pop idx active src drained =>
    simp only [at_] at stepped
    split at stepped <;> cases stepped
    next empty =>
      refine inv.goto (by simp [at_, Pc.owes]) (by simp [at_, Pc.drained]) (by simp [at_]) ?_
      intro r some covered
      rw [at_] at covered
      rcases covered with rfl | covered
      · exact absurd empty some
      · exact covered
    next first => exact inv.pop at_ first

theorem isIdle_iff {pc : Pc workers φ} : pc.isIdle = true ↔ pc = .idle := by
  cases pc <;> simp [Pc.isIdle]

theorem inv_step {owner : φ → Fin workers} {label : Act workers φ × Out} (inv : Inv s)
    (stepped : (system owner).step s label t) : Inv t := by
  obtain ⟨act, out⟩ := label
  change exec owner s act = some (t, out) at stepped
  cases act with
  | wakeFiber v fiber =>
    simp only [exec] at stepped
    split at stepped
    next idle =>
      have at_ := isIdle_iff.mp idle
      split at stepped <;> cases stepped
      · exact inv
      · exact inv.goto (by simp [at_, Pc.owes]) (by simp [at_, Pc.drained]) (by simp [at_])
          (by simp [at_, Pc.Covers])
    next => cases stepped
  | drain v =>
    simp only [exec] at stepped
    split at stepped
    next idle =>
      have at_ := isIdle_iff.mp idle
      split at stepped <;> cases stepped
      · exact inv
      · exact inv.goto (by simp [at_, Pc.owes]) (by simp [at_, Pc.drained]) (by simp [at_])
          (by simp [at_, Pc.Covers])
    next => cases stepped
  | step v => exact inv_workerStep inv stepped

theorem inv_initial (start : Initial s) : Inv s := by
  refine ⟨fun dst src => ?_, fun dst src => ?_, fun dst src some => ?_, fun dst => ?_⟩
  · obtain ⟨channel, pushed, popped⟩ := start.channel dst src
    rw [channel, pushed, popped]
    rfl
  · rw [(start.channel dst src).1]
    exact Nat.zero_le _
  · exact absurd (start.channel dst src).1 some
  · simp [start.pending, owed, inbound, start.idle, start.channel, Pc.owes, Pc.drained]

/-- No wake-up for `dst` is between its push and its addition to the counter, and `dst` is not
draining. -/
def Quiet (s : State workers φ) (dst : Fin workers) : Prop :=
  (∀ src, s.pcs src ≠ .setBit dst ∧ s.pcs src ≠ .addPending dst) ∧
    match s.pcs dst with
    | .word _ _ | .scan _ _ _ | .pop _ _ _ _ => False
    | _ => True

theorem Quiet.owed_eq_zero {dst : Fin workers} (quiet : Quiet s dst) : owed s dst = 0 := by
  refine Finset.sum_eq_zero fun src _ => ?_
  obtain ⟨first, second⟩ := quiet.1 src
  cases at_ : s.pcs src with
  | setBit d =>
    rw [at_] at first
    exact if_neg fun same => first (congrArg Pc.setBit same)
  | addPending d =>
    rw [at_] at second
    exact if_neg fun same => second (congrArg Pc.addPending same)
  | _ => rfl

theorem Quiet.not_draining {dst : Fin workers} (quiet : Quiet s dst) :
    (s.pcs dst).drained = 0 ∧ ∀ src, ¬ (s.pcs dst).Covers src := by
  have idle := quiet.2
  cases at_ : s.pcs dst with
  | word | scan | pop => simp [at_] at idle
  | _ => exact ⟨rfl, fun _ covered => covered⟩

theorem Inv.inbound_lt (inv : Inv s) (few : workers ≤ 2 ^ 32) (dst : Fin workers) :
    inbound s.channel dst < 2 ^ 64 := by
  have bound : inbound s.channel dst ≤ workers * capacity := by
    calc inbound s.channel dst ≤ ∑ _ : Fin workers, capacity :=
          Finset.sum_le_sum fun src _ => inv.fits dst src
      _ = workers * capacity := by simp
  calc inbound s.channel dst ≤ workers * capacity := bound
    _ ≤ 2 ^ 32 * capacity := Nat.mul_le_mul_right capacity few
    _ < 2 ^ 64 := by decide

end

/-- **Cross-worker wake-ups are neither lost nor duplicated.** What was popped from a channel
and what is in it is what was pushed, in this order. Whenever no `wake_fiber` and no drain is in
progress for a destination, its counter is the number of items in its inbound channels and each
non-empty channel has its source bit set. Worker ids are 32 bits wide. -/
theorem wakeups_exact {φ : Type} (workers : Nat) (few : workers ≤ 2 ^ 32)
    (owner : φ → Fin workers) (labels : List (Act workers φ × Out)) (s : State workers φ)
    (reached : (system owner).Reaches System.anyStep labels s) :
    (∀ dst src, s.popped dst src ++ s.channel dst src = s.pushed dst src) ∧
    (∀ dst, Quiet s dst →
      (s.pending dst).toNat = inbound s.channel dst ∧
      (∀ src, s.channel dst src ≠ [] → Marked s dst src) ∧
      (s.pending dst = 0 → ∀ src, s.channel dst src = [])) := by
  have inv : Inv s := reached.invariant (fun _ => inv_initial) fun _ _ _ inv _ => inv_step inv
  refine ⟨inv.order, fun dst quiet => ?_⟩
  obtain ⟨drained, covers⟩ := quiet.not_draining
  have exact : (s.pending dst).toNat = inbound s.channel dst := by
    have count := inv.count dst
    rw [quiet.owed_eq_zero, drained, BitVec.add_zero] at count
    have pending : s.pending dst = BitVec.ofNat 64 (inbound s.channel dst) := by
      simpa using count
    rw [pending, BitVec.toNat_ofNat, Nat.mod_eq_of_lt (inv.inbound_lt few dst)]
  refine ⟨exact, fun src some => ?_, fun zero src => ?_⟩
  · rcases inv.marked dst src some with bit | setting | covered
    · exact bit
    · exact absurd setting (quiet.1 src).1
    · exact absurd covered (covers src)
  · have some : (s.channel dst src).length ≤ inbound s.channel dst :=
      le_sum (fun src => (s.channel dst src).length) src
    rw [← exact, zero] at some
    exact List.eq_nil_of_length_eq_zero (Nat.le_zero.mp some)

def fresh (workers : Nat) (φ : Type) : State workers φ where
  channel _ _ := []
  activeSources _ _ := 0
  pending _ := 0
  pcs _ := .idle
  pushed _ _ := []
  popped _ _ := []

theorem initial_fresh (workers : Nat) (φ : Type) : Initial (fresh workers φ) :=
  ⟨fun _ => rfl, fun _ _ => ⟨rfl, rfl, rfl⟩, fun _ _ => rfl, fun _ => rfl⟩

/-- Worker 65 wakes a fiber of worker 0, which drains it before the counter was increased; then
worker 65 wakes another one. -/
def secondWord : List (Act 66 Nat) :=
  [.wakeFiber 65 7, .step 65, .step 65, .wakeFiber 1 8, .step 1, .step 1, .step 1, .drain 0,
    .step 0, .step 0, .step 0, .step 0, .step 0, .step 0, .step 0, .step 0, .step 0, .step 0,
    .step 0, .step 65, .wakeFiber 65 9, .step 65, .step 65, .step 65]

theorem wakeups_exact_secondWord : ∃ labels s,
    (system fun _ : Nat => (0 : Fin 66)).Reaches System.anyStep labels s ∧
      s.popped 0 65 = [7] ∧ s.popped 0 1 = [8] ∧ s.channel 0 65 = [9] ∧ s.pending 0 = 1 ∧
      Marked s 0 65 := by
  have passed : (drive (exec fun _ : Nat => (0 : Fin 66)) (fun _ _ => true) (fresh 66 Nat)
      secondWord).any (fun r => r.1.popped 0 65 = [7] ∧ r.1.popped 0 1 = [8] ∧
        r.1.channel 0 65 = [9] ∧ r.1.pending 0 = 1 ∧ ∀ w, (r.1.pcs w).isIdle = true) := by
    decide +kernel
  obtain ⟨s, labels, reached, tested⟩ :=
    drive_anyStep (system fun _ : Nat => (0 : Fin 66)) rfl (initial_fresh 66 Nat) passed
  obtain ⟨seven, eight, nine, one, all⟩ := of_decide_eq_true tested
  have idle : ∀ w, s.pcs w = .idle := fun w => isIdle_iff.mp (all w)
  have quiet : Quiet s 0 := ⟨fun src => by simp [idle], by simp [idle]⟩
  have exact := (wakeups_exact 66 (by decide) _ labels s reached).2 0 quiet
  exact ⟨labels, s, reached, seven, eight, nine, one,
    exact.2.1 65 fun empty => by simp [empty] at nine⟩

end UringDb.Wakeups
