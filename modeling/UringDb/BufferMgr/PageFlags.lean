import UringDb.BufferMgr.PageLock

/-!
# Flags of the page-state word

`update_flag` changes a flag of the word in one atomic operation, with or without the lock. The
exclusive releases load the word in one step and store it, flags included, in another, because
the holder is "the sole writer". An update between the two steps is overwritten.
-/
namespace UringDb.PageFlags

open PageState PageLock

/-! ### Flags of the packed word -/

def flag64 (w : Nat) (flag : Flag) : Bool := w &&& flag.bit != 0

def position : Flag → Nat
  | .ioInProgress => 0
  | .evicting => 1
  | .dirty => 2

theorem flag64_eq (w : Nat) (flag : Flag) : flag64 w flag = w.testBit (position flag) := by
  have bit : flag.bit = 2 ^ position flag := by cases flag <;> rfl
  unfold flag64
  rw [bit, Nat.and_two_pow]
  cases w.testBit (position flag) <;> simp

theorem flag64_updateFlag (w : Nat) (flag other : Flag) (value : Bool) :
    flag64 (updateFlag64 w flag value) other = if other = flag then value else flag64 w other := by
  have bit : flag.bit.testBit (position other) = decide (other = flag) := by
    cases flag <;> cases other <;> decide
  have mask : (2 ^ 64 - 1 - flag.bit).testBit (position other) = !decide (other = flag) := by
    cases flag <;> cases other <;> decide
  rw [flag64_eq, flag64_eq]
  cases value with
  | true =>
    simp only [updateFlag64, if_true, Nat.testBit_or, bit]
    by_cases same : other = flag <;> simp [same]
  | false =>
    simp only [updateFlag64, Bool.false_eq_true, if_false, Nat.testBit_and, mask]
    by_cases same : other = flag <;> simp [same]

theorem flag64_congr {v w : Nat} (same : getFlags64 v = getFlags64 w) (flag : Flag) :
    flag64 v flag = flag64 w flag := by
  rw [getFlags64_eq, getFlags64_eq] at same
  have low : position flag < 8 := by cases flag <;> decide
  have bits := congrArg (fun x => x.testBit (position flag)) same
  simp only [Nat.testBit_mod_two_pow, low, decide_true, Bool.true_and] at bits
  rw [flag64_eq, flag64_eq, bits]

/-! ### Clients of one word -/

/-- `unlock_x`, `unlock_x_marked` and `unlock_x_marked_dirty`. -/
inductive Unlock where
  | plain
  | marked
  | markedDirty
  deriving DecidableEq, Repr

/-- What the release stores when it has loaded `loaded`. -/
def Unlock.store : Unlock → Nat → Nat
  | .plain, loaded => unlockX64 false loaded
  | .marked, loaded => unlockX64 true loaded
  | .markedDirty, loaded => nextVersion64 (loaded ||| Flag.bit .dirty) PageState.marked

/-- A flag that the store itself sets. -/
def Unlock.sets : Unlock → Flag → Bool
  | .markedDirty, .dirty => true
  | _, _ => false

inductive Pc where
  | idle
  | load (unlock : Unlock)
  | store (unlock : Unlock) (loaded : Nat)
  deriving DecidableEq, Repr

/-- The word with its exclusive holder. `last` is a ghost: the value that the last update of each
flag has written. -/
structure State (n : Nat) where
  word : Nat
  holder : Option (Fin n)
  pcs : Fin n → Pc
  last : Flag → Bool

inductive Act (n : Nat) where
  | updateFlag (c : Fin n) (flag : Flag) (value : Bool)
  | tryLockX (c : Fin n) (expected : Nat)
  | unlock (c : Fin n) (unlock : Unlock)
  | step (c : Fin n)
  deriving DecidableEq, Repr

variable {n : Nat}

namespace State

def goto (s : State n) (c : Fin n) (pc : Pc) : State n :=
  { s with pcs := Function.update s.pcs c pc }

def release (s : State n) (c : Fin n) (unlock : Unlock) (loaded : Nat) : State n :=
  { word := unlock.store loaded
    holder := none
    pcs := Function.update s.pcs c .idle
    last := fun flag => if unlock.sets flag then true else s.last flag }

end State

def exec (s : State n) : Act n → Option (State n)
  | .updateFlag c flag value =>
    if s.pcs c = .idle then
      some { s with
        word := updateFlag64 s.word flag value
        last := Function.update s.last flag value }
    else none
  | .tryLockX c expected =>
    if s.pcs c = .idle then
      match tryLockX64 expected with
      | none => some s
      | some word =>
        some (if s.word = expected then { s with word := word, holder := some c } else s)
    else none
  | .unlock c unlock =>
    if s.pcs c = .idle ∧ s.holder = some c then some (s.goto c (.load unlock)) else none
  | .step c =>
    match s.pcs c with
    | .idle => none
    | .load unlock => some (s.goto c (.store unlock s.word))
    | .store unlock loaded => some (s.release c unlock loaded)

/-- Any word, with a holder exactly if it is in mode Locked; nothing was updated yet. -/
structure Initial (s : State n) : Prop where
  small : s.word < 2 ^ 64
  holder : getState64 s.word = locked ↔ s.holder ≠ none
  pcs : ∀ c, s.pcs c = .idle
  last : ∀ flag, s.last flag = flag64 s.word flag

def system (n : Nat) : System (State n) (Act n) where
  init := Initial
  step s act s' := exec s act = some s'

/-- When a release stores, the word has the flags that its load has seen, but for a flag the store
sets itself. -/
def Undisturbed (s : State n) : Act n → Prop
  | .step c => ∀ unlock loaded, s.pcs c = .store unlock loaded →
      ∀ flag, unlock.sets flag = false → flag64 s.word flag = flag64 loaded flag
  | _ => True

/-! ### Invariant -/

/-- Only the holder releases, and the word is in mode Locked then. -/
structure Inv (s : State n) : Prop where
  small : s.word < 2 ^ 64
  locked : ∀ c, s.holder = some c → getState64 s.word = locked
  releasing : ∀ c, s.pcs c ≠ .idle → s.holder = some c
  right : ∀ flag, flag64 s.word flag = s.last flag

variable {s s' : State n} {c : Fin n}

theorem flag64_store (unlock : Unlock) (loaded : Nat) (flag : Flag) :
    flag64 (unlock.store loaded) flag = (unlock.sets flag || flag64 loaded flag) := by
  cases unlock with
  | plain => exact flag64_congr (fields_nextVersion (by decide)).flags flag
  | marked => exact flag64_congr (fields_nextVersion (by decide)).flags flag
  | markedDirty =>
    have same := flag64_congr
      (@fields_nextVersion (loaded ||| Flag.bit .dirty) PageState.marked (by decide)).flags flag
    have update := flag64_updateFlag loaded .dirty flag true
    simp only [updateFlag64, if_true] at update
    unfold Unlock.store
    rw [same, update]
    cases flag <;> simp [Unlock.sets]

theorem store_lt (unlock : Unlock) (loaded : Nat) : unlock.store loaded < 2 ^ 64 := by
  cases unlock <;> exact (fields_nextVersion (by decide)).small

theorem Inv.goto (inv : Inv s) {pc : Pc} (holds : s.holder = some c) : Inv (s.goto c pc) := by
  refine ⟨inv.small, inv.locked, fun u busy => ?_, inv.right⟩
  by_cases same : u = c
  · subst same
    exact holds
  · simp only [State.goto, Function.update_of_ne same] at busy
    exact inv.releasing u busy

theorem Inv.alone (inv : Inv s) {u : Fin n} (holds : s.holder = some c) (ne : u ≠ c) :
    s.pcs u = .idle := by
  by_contra busy
  have other := inv.releasing u busy
  rw [holds] at other
  exact ne (Option.some.inj other).symm

/-- After the store, the flags are those that were loaded and those the store has set. -/
theorem Inv.release_right_iff (inv : Inv s) {unlock : Unlock} {loaded : Nat}
    (at_ : s.pcs c = .store unlock loaded) :
    (∀ flag, flag64 (s.release c unlock loaded).word flag =
      (s.release c unlock loaded).last flag) ↔
      Undisturbed s (.step c) := by
  have stored : ∀ flag, flag64 (s.release c unlock loaded).word flag =
      (unlock.sets flag || flag64 loaded flag) := flag64_store unlock loaded
  have written : ∀ flag, (s.release c unlock loaded).last flag =
      if unlock.sets flag then true else flag64 s.word flag := by
    intro flag
    rw [inv.right flag]
    rfl
  constructor
  · intro right unlock' loaded' here flag keeps
    rw [at_] at here
    cases here
    have kept := right flag
    rw [stored, written, keeps] at kept
    simpa using kept.symm
  · intro undisturbed flag
    rw [stored, written]
    cases sets : unlock.sets flag with
    | true => rfl
    | false =>
      rw [undisturbed unlock loaded at_ flag sets]
      rfl

theorem Inv.exec (inv : Inv s) {act : Act n} (undisturbed : Undisturbed s act)
    (stepped : exec s act = some s') : Inv s' := by
  cases act with simp only [PageFlags.exec] at stepped
  | updateFlag c flag value =>
    split at stepped <;> cases stepped
    have fields := fields_updateFlag flag value inv.small
    refine ⟨fields.small, fun u holds => ?_, inv.releasing, fun other => ?_⟩
    · exact fields.mode.trans (inv.locked u holds)
    · change flag64 (updateFlag64 s.word flag value) other =
        Function.update s.last flag value other
      rw [flag64_updateFlag]
      by_cases same : other = flag
      · subst same
        rw [if_pos rfl, Function.update_self]
      · rw [if_neg same, Function.update_of_ne same]
        exact inv.right other
  | tryLockX c expected =>
    split at stepped
    next =>
      unfold tryLockX64 at stepped
      dsimp only at stepped
      split at stepped <;> cases stepped
      next => exact inv
      next word target =>
        split
        next swaps =>
          -- a word that can be locked has no holder
          split at target <;> cases target
          next free =>
            have fields := @fields_sameVersion expected PageState.locked (by decide)
            refine ⟨fields.small, fun _ _ => fields.mode, fun u busy => ?_, fun flag => ?_⟩
            · have mode := inv.locked u (inv.releasing u busy)
              rw [swaps] at mode
              exact absurd (by rw [mode]; decide) free
            · rw [flag64_congr fields.flags flag, ← swaps]
              exact inv.right flag
        next => exact inv
    next => cases stepped
  | unlock c unlock =>
    split at stepped <;> cases stepped
    next allowed => exact inv.goto allowed.2
  | step c =>
    split at stepped <;> cases stepped
    next unlock at_ =>
      exact inv.goto (inv.releasing c (by rw [at_]; exact fun same => by cases same))
    next unlock loaded at_ =>
      have holds := inv.releasing c (by rw [at_]; exact fun same => by cases same)
      refine ⟨store_lt unlock loaded, (fun u none_ => by cases none_), fun u busy => ?_,
        (inv.release_right_iff at_).mpr undisturbed⟩
      by_cases same : u = c
      · subst same
        simp [State.release] at busy
      · simp only [State.release, Function.update_of_ne same] at busy
        exact absurd (inv.alone holds same) busy

theorem Initial.inv (initial : Initial s) : Inv s where
  small := initial.small
  locked := fun c holds => initial.holder.mpr (by rw [holds]; exact Option.some_ne_none c)
  releasing := fun c busy => absurd (initial.pcs c) busy
  right := fun flag => (initial.last flag).symm

/-- **No flag update is lost** in a run in which every release finds the flags as it has loaded
them, a flag it sets itself apart: every flag has the value that its last update has written. And
a release that does not find them so does lose an update. -/
theorem flag_updates_kept {acts : List (Act n)} (reached : (system n).Reaches Undisturbed acts s) :
    (∀ flag, flag64 s.word flag = s.last flag) ∧
    ∀ c s', exec s (.step c) = some s' →
      ((∀ flag, flag64 s'.word flag = s'.last flag) ↔ Undisturbed s (.step c)) := by
  have inv : Inv s := reached.invariant (P := Inv) (fun _ => Initial.inv)
    fun _ _ _ inv undisturbed stepped => inv.exec undisturbed stepped
  refine ⟨inv.right, fun c s' stepped => ?_⟩
  simp only [exec] at stepped
  split at stepped <;> cases stepped
  next unlock at_ =>
    refine ⟨fun _ unlock' loaded here => ?_, fun _ => inv.right⟩
    rw [at_] at here
    cases here
  next unlock loaded at_ => exact inv.release_right_iff at_

def twoClients : State 2 where
  word := 0
  holder := none
  pcs := fun _ => .idle
  last := fun _ => false

theorem initial_twoClients : Initial twoClients where
  small := by decide
  holder := by decide
  pcs := fun _ => rfl
  last := fun flag => by cases flag <;> rfl

/-- An evictor sets Evicting while the page is locked, before the release loads. -/
theorem flag_updates_kept_before : ∃ s : State 2,
    (system 2).Reaches Undisturbed
      [.tryLockX 0 0, .updateFlag 1 .evicting true, .unlock 0 .marked, .step 0, .step 0] s ∧
    flag64 s.word .evicting = true ∧ flag64 s.word .evicting = s.last .evicting := by
  have reached : ∃ s : State 2, (system 2).Reaches Undisturbed
      [.tryLockX 0 0, .updateFlag 1 .evicting true, .unlock 0 .marked, .step 0, .step 0] s ∧
      s.last .evicting = true := by
    refine ⟨_, ⟨twoClients, initial_twoClients, .cons rfl trivial (.cons rfl trivial
      (.cons rfl trivial (.cons rfl ?_ (.cons rfl ?_ (.nil _)))))⟩, rfl⟩
    · intro unlock loaded here
      cases here
    · intro unlock loaded here
      cases here
      exact fun _ _ => rfl
  obtain ⟨s, run, wrote⟩ := reached
  have kept := (flag_updates_kept run).1 .evicting
  exact ⟨s, run, kept.trans wrote, kept⟩

/-- The evictor sets Evicting between the load and the store of the release: when all calls have
finished the flag is clear. -/
theorem flag_update_lost : ∃ s : State 2,
    (system 2).Reaches System.anyStep
      [.tryLockX 0 0, .unlock 0 .plain, .step 0, .updateFlag 1 .evicting true, .step 0] s ∧
    (∀ c, s.pcs c = .idle) ∧ s.last .evicting = true ∧ flag64 s.word .evicting = false := by
  refine ⟨_, ⟨twoClients, initial_twoClients, .cons rfl trivial (.cons rfl trivial
    (.cons rfl trivial (.cons rfl trivial (.cons rfl trivial (.nil _)))))⟩, ?_⟩
  decide

end UringDb.PageFlags
