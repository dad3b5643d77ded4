import UringDb.BufferMgr.PageState
import UringDb.Lib.Run
import UringDb.Lib.Sum

/-!
# The page-state word is a reader/writer lock with a version

The lock functions of `PageState` on the packed word, with every field in its place: a mode
of eight bits, a version that wraps at 2^48 and flags. Any number of clients run them
concurrently. A compare-and-swap is made against an arbitrary expected word, so nothing rests
on how fresh that word is; `unlock_x` loads the word in one step and stores in another.
-/
namespace UringDb.PageLock

open PageState

/-! ### The functions on the packed word -/

inductive Flag where
  | ioInProgress
  | evicting
  | dirty
  deriving DecidableEq, Repr

def Flag.bit : Flag → Nat
  | .ioInProgress => 1
  | .evicting => 2
  | .dirty => 4

def getFlags64 (w : Nat) : Nat := w &&& flagsMask

/-- `update_flag`: a `fetch_or`, or a `fetch_and` with the complement. -/
def updateFlag64 (w : Nat) (flag : Flag) (value : Bool) : Nat :=
  if value then w ||| flag.bit else w &&& (2 ^ 64 - 1 - flag.bit)

/-- The word that `try_lock_s` installs, if it tries at all. -/
def tryLockS64 (expected : Nat) : Option Nat :=
  let state := getState64 expected
  if state < maxShared then some (sameVersion64 expected (state + 1))
  else if state = marked then some (sameVersion64 expected 1)
  else none

def tryLockX64 (expected : Nat) : Option Nat :=
  let state := getState64 expected
  if state ≠ unlocked ∧ state ≠ marked then none else some (sameVersion64 expected locked)

def tryLockXDirty64 (expected : Nat) : Option Nat :=
  let state := getState64 expected
  if state ≠ unlocked ∧ state ≠ marked then none
  else some (sameVersion64 expected locked ||| Flag.bit .dirty)

def tryMark64 (expected : Nat) : Option Nat :=
  if getState64 expected ≠ unlocked then none else some (sameVersion64 expected marked)

def tryClearMark64 (expected : Nat) : Option Nat :=
  if getState64 expected ≠ marked then none else some (sameVersion64 expected unlocked)

/-- What `unlock_s` and `unlock_s_marked` try to install. The difference would wrap around in the
source; a client unlocks what it holds, so the state is not zero. -/
def unlockS64 (mark : Bool) (expected : Nat) : Nat :=
  let state := getState64 expected
  if mark ∧ state = 1 then sameVersion64 expected marked else sameVersion64 expected (state - 1)

/-- What `unlock_x` and `unlock_x_marked` store. -/
def unlockX64 (mark : Bool) (loaded : Nat) : Nat :=
  nextVersion64 loaded (if mark then marked else unlocked)

/-! ### Fields -/

theorem getState64_eq (w : Nat) : getState64 w = w / 2 ^ 56 := Nat.shiftRight_eq_div_pow w 56

theorem getVersion64_eq (w : Nat) : getVersion64 w = w / 2 ^ 8 % 2 ^ 48 := by
  rw [getVersion64, versionMask, and_field, Nat.shiftRight_eq_div_pow]
  omega

theorem getFlags64_eq (w : Nat) : getFlags64 w = w % 2 ^ 8 := by
  have mask : flagsMask = (2 ^ 8 - 1) <<< 0 := by decide
  rw [getFlags64, mask, and_field]
  omega

theorem sameVersion64_eq (w mode : Nat) : sameVersion64 w mode = w % 2 ^ 56 + mode * 2 ^ 56 := by
  rw [sameVersion64, masks, and_field, or_field _ _ _ (by omega)]
  omega

theorem nextVersion64_eq (w mode : Nat) :
    nextVersion64 w mode =
      w % 2 ^ 8 + (w / 2 ^ 8 % 2 ^ 48 + 1) % 2 ^ 48 * 2 ^ 8 + mode * 2 ^ 56 := by
  have mask : flagsMask = (2 ^ 8 - 1) <<< 0 := by decide
  have low : w &&& flagsMask = w % 2 ^ 8 := by
    rw [mask, and_field]
    omega
  have bumped : ((w &&& versionMask) + 1 <<< 8) &&& versionMask =
      ((w / 2 ^ 8 % 2 ^ 48 + 1) % 2 ^ 48) <<< 8 := by
    rw [versionMask, and_field, and_field, Nat.shiftLeft_eq, Nat.shiftLeft_eq]
    omega
  rw [nextVersion64, low, bumped, or_field _ _ 8 (by omega), or_field _ _ 56 (by omega)]

structure Fields (w mode version flags : Nat) : Prop where
  small : w < 2 ^ 64
  mode : getState64 w = mode
  version : getVersion64 w = version
  flags : getFlags64 w = flags

theorem fields_sameVersion {w mode : Nat} (fits : mode < 256) :
    Fields (sameVersion64 w mode) mode (getVersion64 w) (getFlags64 w) := by
  constructor
  · rw [sameVersion64_eq]
    omega
  · rw [getState64_eq, sameVersion64_eq]
    omega
  · rw [getVersion64_eq, getVersion64_eq, sameVersion64_eq]
    omega
  · rw [getFlags64_eq, getFlags64_eq, sameVersion64_eq]
    omega

theorem fields_nextVersion {w mode : Nat} (fits : mode < 256) :
    Fields (nextVersion64 w mode) mode ((getVersion64 w + 1) % 2 ^ 48) (getFlags64 w) := by
  constructor
  · rw [nextVersion64_eq]
    omega
  · rw [getState64_eq, nextVersion64_eq]
    omega
  · rw [getVersion64_eq, getVersion64_eq, nextVersion64_eq]
    omega
  · rw [getFlags64_eq, getFlags64_eq, nextVersion64_eq]
    omega

theorem Flag.bit_lt (flag : Flag) : flag.bit < 2 ^ 8 := by
  cases flag <;> decide

theorem updateFlag64_high {w : Nat} (flag : Flag) (value : Bool) (small : w < 2 ^ 64) :
    updateFlag64 w flag value / 2 ^ 8 = w / 2 ^ 8 := by
  have bit : flag.bit / 2 ^ 8 = 0 := Nat.div_eq_of_lt flag.bit_lt
  cases value with
  | true =>
    simp only [updateFlag64, if_true, ← Nat.shiftRight_eq_div_pow] at bit ⊢
    rw [Nat.shiftRight_or_distrib, bit, Nat.or_zero]
  | false =>
    have mask : (2 ^ 64 - 1 - flag.bit) / 2 ^ 8 = 2 ^ 56 - 1 := by
      have := flag.bit_lt
      omega
    simp only [updateFlag64, Bool.false_eq_true, if_false, ← Nat.shiftRight_eq_div_pow] at mask ⊢
    rw [Nat.shiftRight_and_distrib, mask, Nat.and_two_pow_sub_one_eq_mod, Nat.shiftRight_eq_div_pow,
      Nat.mod_eq_of_lt (by omega)]

theorem fields_updateFlag {w : Nat} (flag : Flag) (value : Bool) (small : w < 2 ^ 64) :
    Fields (updateFlag64 w flag value) (getState64 w) (getVersion64 w)
      (getFlags64 (updateFlag64 w flag value)) := by
  have high := updateFlag64_high flag value small
  constructor
  · omega
  · rw [getState64_eq, getState64_eq]
    omega
  · rw [getVersion64_eq, getVersion64_eq, high]
  · rfl

/-! ### Clients -/

inductive Pc where
  | idle
  /-- `unlock_s` and `unlock_s_marked`: the load of the loop and its compare-and-swap. -/
  | unlockSLoad (mark : Bool)
  | unlockSCas (mark : Bool) (expected : Nat)
  /-- `unlock_x` and `unlock_x_marked`: the load and the store. -/
  | unlockXLoad (mark : Bool)
  | unlockXStore (mark : Bool) (loaded : Nat)
  deriving DecidableEq, Repr

/-- A client with the locks it holds. A lock counts as held until its release takes effect. -/
structure Client where
  pc : Pc
  shared : Nat
  exclusive : Nat
  deriving DecidableEq, Repr

structure Lock (n : Nat) where
  word : Nat
  clients : Fin n → Client

inductive LockKind where
  | s
  | x
  | xDirty
  deriving DecidableEq, Repr

inductive Op where
  | tryLock (kind : LockKind) (expected : Nat)
  | tryMark (expected : Nat)
  | tryClearMark (expected : Nat)
  | updateFlag (flag : Flag) (value : Bool)
  | unlockS (mark : Bool)
  | unlockX (mark : Bool)
  deriving DecidableEq, Repr

inductive Act (n : Nat) where
  | call (c : Fin n) (op : Op)
  | step (c : Fin n)
  deriving DecidableEq, Repr

inductive Out where
  | silent
  | returned (ok : Bool)
  /-- The store of an exclusive release. -/
  | released
  deriving DecidableEq, Repr

variable {n : Nat}

def Lock.set (l : Lock n) (c : Fin n) (word : Nat) (client : Client) : Lock n :=
  ⟨word, Function.update l.clients c client⟩

/-- The word a lock attempt installs. -/
def LockKind.target : LockKind → Nat → Option Nat
  | .s => tryLockS64
  | .x => tryLockX64
  | .xDirty => tryLockXDirty64

/-- The client after a successful lock attempt. -/
def LockKind.take (client : Client) : LockKind → Client
  | .s => { client with shared := client.shared + 1 }
  | .x => { client with exclusive := client.exclusive + 1 }
  | .xDirty => { client with exclusive := client.exclusive + 1 }

/-- `compare_exchange_strong` against `expected`, if the function tries it. -/
def cas (l : Lock n) (c : Fin n) (expected : Nat) (target : Option Nat) (client : Client) :
    Lock n × Out :=
  match target with
  | none => (l, .returned false)
  | some word =>
    if l.word = expected then (l.set c word client, .returned true) else (l, .returned false)

/-- A call by an idle client. Locks are released by clients that hold them. -/
def call (l : Lock n) (c : Fin n) : Op → Option (Lock n × Out)
  | .tryLock kind expected =>
    some (cas l c expected (kind.target expected) (kind.take (l.clients c)))
  | .tryMark expected => some (cas l c expected (tryMark64 expected) (l.clients c))
  | .tryClearMark expected => some (cas l c expected (tryClearMark64 expected) (l.clients c))
  | .updateFlag flag value => some (⟨updateFlag64 l.word flag value, l.clients⟩, .silent)
  | .unlockS mark =>
    if 0 < (l.clients c).shared then
      some (l.set c l.word { l.clients c with pc := .unlockSLoad mark }, .silent)
    else none
  | .unlockX mark =>
    if 0 < (l.clients c).exclusive then
      some (l.set c l.word { l.clients c with pc := .unlockXLoad mark }, .silent)
    else none

def step (l : Lock n) (c : Fin n) : Option (Lock n × Out) :=
  let client := l.clients c
  match client.pc with
  | .idle => none
  | .unlockSLoad mark =>
    some (l.set c l.word { client with pc := .unlockSCas mark l.word }, .silent)
  | .unlockSCas mark expected =>
    if l.word = expected then
      some (l.set c (unlockS64 mark expected) ⟨.idle, client.shared - 1, client.exclusive⟩, .silent)
    else some (l.set c l.word { client with pc := .unlockSLoad mark }, .silent)
  | .unlockXLoad mark =>
    some (l.set c l.word { client with pc := .unlockXStore mark l.word }, .silent)
  | .unlockXStore mark loaded =>
    some (l.set c (unlockX64 mark loaded) ⟨.idle, client.shared, client.exclusive - 1⟩, .released)

def exec (l : Lock n) : Act n → Option (Lock n × Out)
  | .call c op => if (l.clients c).pc = .idle then call l c op else none
  | .step c => step l c

/-- Runs start from any word that is unlocked or marked, with no lock held. -/
def Initial (l : Lock n) : Prop :=
  l.word < 2 ^ 64 ∧ (getState64 l.word = unlocked ∨ getState64 l.word = marked) ∧
    ∀ c, l.clients c = ⟨.idle, 0, 0⟩

def system (n : Nat) : System (Lock n) (Act n × Out) := System.ofStep Initial exec

/-! ### The invariant -/

def Lock.shareds (l : Lock n) : Nat := ∑ c, (l.clients c).shared

def Lock.exclusives (l : Lock n) : Nat := ∑ c, (l.clients c).exclusive

/-- The mode counts the shared holders or says that there is one exclusive holder. -/
structure Counts (l : Lock n) : Prop where
  locked : getState64 l.word = locked ↔ l.exclusives = 1
  one : l.exclusives ≤ 1
  apart : l.exclusives = 1 → l.shareds = 0
  shared : l.exclusives = 0 → l.shareds = 0 →
    getState64 l.word = unlocked ∨ getState64 l.word = marked
  count : 0 < l.shareds → getState64 l.word = l.shareds ∧ l.shareds ≤ maxShared

/-- What a running release knows. -/
def Pc.Ok (client : Client) (word : Nat) : Pc → Prop
  | .idle => True
  | .unlockSLoad _ => 0 < client.shared
  | .unlockSCas _ _ => 0 < client.shared
  | .unlockXLoad _ => 0 < client.exclusive
  | .unlockXStore _ loaded => 0 < client.exclusive ∧ getVersion64 loaded = getVersion64 word

theorem Pc.Ok.version {pc : Pc} {client : Client} {word word' : Nat} (ok : pc.Ok client word)
    (same : getVersion64 word' = getVersion64 word) : pc.Ok client word' := by
  cases pc with
  | unlockXStore mark loaded => exact ⟨ok.1, ok.2.trans same.symm⟩
  | _ => exact ok

/-- One of three situations. -/
def Mode (mode exclusives shareds : Nat) : Prop :=
  (mode = locked ∧ exclusives = 1 ∧ shareds = 0) ∨
  ((mode = unlocked ∨ mode = marked) ∧ exclusives = 0 ∧ shareds = 0) ∨
  (mode ≤ maxShared ∧ exclusives = 0 ∧ shareds = mode)

structure Inv (l : Lock n) : Prop where
  small : l.word < 2 ^ 64
  mode : Mode (getState64 l.word) l.exclusives l.shareds
  clients : ∀ c, (l.clients c).pc.Ok (l.clients c) l.word

theorem Inv.counts {l : Lock n} (inv : Inv l) : Counts l := by
  have values : unlocked = 0 ∧ maxShared = 252 ∧ PageState.locked = 253 ∧ marked = 254 :=
    ⟨rfl, rfl, rfl, rfl⟩
  rcases inv.mode with h | h | h <;> constructor <;> omega

/-! ### What one step does -/

def Act.client : Act n → Fin n
  | .call c _ => c
  | .step c => c

/-- The calls that are there to change a flag. -/
def Op.flagged : Op → Bool
  | .tryLock .xDirty _ => true
  | .updateFlag _ _ => true
  | _ => false

def Act.flagged : Act n → Bool
  | .call _ op => op.flagged
  | .step _ => false

section

variable {l l' : Lock n} {c : Fin n} {out : Out} {flagged : Bool}

/-- What a step of client `c` does to the word and to the locks of `c`; `flagged` says whether
its purpose is to change a flag. -/
inductive Effect (l : Lock n) (c : Fin n) (flagged : Bool) : Lock n → Out → Prop
  | move (pc : Pc) (out : Out) (ok : pc.Ok (l.clients c) l.word) (keeps : out ≠ .released) :
      Effect l c flagged (l.set c l.word { l.clients c with pc := pc }) out
  | flag (touches : flagged) (flag : Flag) (value : Bool) :
      Effect l c flagged (l.set c (updateFlag64 l.word flag value) (l.clients c)) .silent
  | lockS (idle : (l.clients c).pc = .idle) (word : Nat) (tries : tryLockS64 l.word = some word) :
      Effect l c flagged (l.set c word (LockKind.s.take (l.clients c))) (.returned true)
  | lockX (idle : (l.clients c).pc = .idle) (word flags : Nat)
      (free : getState64 l.word = unlocked ∨ getState64 l.word = marked)
      (fields : Fields word locked (getVersion64 l.word) flags)
      (same : ¬ flagged → flags = getFlags64 l.word) :
      Effect l c flagged (l.set c word (LockKind.x.take (l.clients c))) (.returned true)
  | mark (mode mode' : Nat) (here : getState64 l.word = mode)
      (swaps : (mode = unlocked ∧ mode' = marked) ∨ (mode = marked ∧ mode' = unlocked)) :
      Effect l c flagged (l.set c (sameVersion64 l.word mode') (l.clients c)) (.returned true)
  | unlockS (mark : Bool) (holds : 0 < (l.clients c).shared) :
      Effect l c flagged (l.set c (unlockS64 mark l.word)
        ⟨.idle, (l.clients c).shared - 1, (l.clients c).exclusive⟩) .silent
  | unlockX (mark : Bool) (loaded : Nat) (at_ : (l.clients c).pc = .unlockXStore mark loaded) :
      Effect l c flagged (l.set c (unlockX64 mark loaded)
        ⟨.idle, (l.clients c).shared, (l.clients c).exclusive - 1⟩) .released

theorem set_self (l : Lock n) (c : Fin n) : l.set c l.word (l.clients c) = l := by
  simp [Lock.set]

theorem Effect.none (idle : (l.clients c).pc = .idle) (keeps : out ≠ .released) :
    Effect l c flagged l out := by
  have moved : Effect l c flagged _ out := .move .idle out trivial keeps
  rwa [← idle, set_self] at moved

/-- A compare-and-swap: it is not tried, it fails, or the word is the expected one. -/
theorem cas_effect {expected : Nat} {target : Option Nat} {client : Client}
    (idle : (l.clients c).pc = .idle) (done : cas l c expected target client = (l', out))
    (wins : ∀ word, l.word = expected → target = some word →
      Effect l c flagged (l.set c word client) (.returned true)) :
    Effect l c flagged l' out := by
  unfold cas at done
  split at done
  · cases done
    exact .none idle (fun same => by cases same)
  next word =>
    split at done <;> cases done
    next same => exact wins word same rfl
    next => exact .none idle (fun same => by cases same)

theorem call_effect {op : Op} (idle : (l.clients c).pc = .idle)
    (called : call l c op = some (l', out)) : Effect l c op.flagged l' out := by
  cases op with
  | tryLock kind expected =>
    refine cas_effect idle (Option.some.inj called) ?_
    rintro word rfl tries
    cases kind with
    | s => exact .lockS idle word tries
    | x =>
      simp only [LockKind.target, tryLockX64] at tries
      split at tries <;> cases tries
      next free => exact .lockX idle _ _ (by omega) (fields_sameVersion (by decide)) fun _ => rfl
    | xDirty =>
      simp only [LockKind.target, tryLockXDirty64] at tries
      split at tries <;> cases tries
      next free =>
        have same : Fields (sameVersion64 l.word locked) _ _ _ := fields_sameVersion (by decide)
        have dirty := fields_updateFlag .dirty true same.small
        rw [same.mode, same.version] at dirty
        exact .lockX idle _ _ (by omega) dirty (by simp [Op.flagged])
  | tryMark expected =>
    refine cas_effect idle (Option.some.inj called) ?_
    rintro word rfl tries
    unfold tryMark64 at tries
    split at tries <;> cases tries
    next here => exact .mark unlocked marked (not_not.mp here) (Or.inl ⟨rfl, rfl⟩)
  | tryClearMark expected =>
    refine cas_effect idle (Option.some.inj called) ?_
    rintro word rfl tries
    unfold tryClearMark64 at tries
    split at tries <;> cases tries
    next here => exact .mark marked unlocked (not_not.mp here) (Or.inr ⟨rfl, rfl⟩)
  | updateFlag flag value =>
    cases called
    have updated : Effect l c true _ _ := .flag rfl flag value
    rwa [Lock.set, Function.update_eq_self] at updated
  | unlockS mark | unlockX mark =>
    simp only [call] at called
    split at called <;> cases called
    next holds => exact .move _ _ holds (fun same => by cases same)

theorem step_effect (ok : (l.clients c).pc.Ok (l.clients c) l.word)
    (stepped : step l c = some (l', out)) : Effect l c false l' out := by
  unfold step at stepped
  cases at_ : (l.clients c).pc with
  | idle => simp [at_] at stepped
  | unlockSLoad mark =>
    rw [at_] at ok
    simp only [at_] at stepped
    cases stepped
    exact .move (.unlockSCas mark l.word) _ ok (fun same => by cases same)
  | unlockSCas mark expected =>
    rw [at_] at ok
    simp only [at_] at stepped
    split at stepped <;> cases stepped
    next same =>
      subst same
      exact .unlockS mark ok
    next => exact .move (.unlockSLoad mark) _ ok (fun same => by cases same)
  | unlockXLoad mark =>
    rw [at_] at ok
    simp only [at_] at stepped
    cases stepped
    exact .move (.unlockXStore mark l.word) _ ⟨ok, rfl⟩ (fun same => by cases same)
  | unlockXStore mark loaded =>
    simp only [at_] at stepped
    cases stepped
    exact .unlockX mark loaded at_

/-- **Every action has one of these effects.** -/
theorem exec_effect {act : Act n} (inv : Inv l) (execs : exec l act = some (l', out)) :
    Effect l act.client act.flagged l' out := by
  cases act with
  | call c op =>
    simp only [exec] at execs
    split at execs
    next idle => exact call_effect idle execs
    next => cases execs
  | step c => exact step_effect (inv.clients c) execs

/-! ### Steps keep the invariant -/

theorem set_client (word : Nat) (client : Client) : (l.set c word client).clients c = client := by
  simp [Lock.set]

theorem set_other (word : Nat) (client : Client) {d : Fin n} (ne : d ≠ c) :
    (l.set c word client).clients d = l.clients d := by
  simp [Lock.set, ne]

theorem set_exclusives (word : Nat) (client : Client) :
    (l.set c word client).exclusives + (l.clients c).exclusive = l.exclusives + client.exclusive :=
  sum_update Finset.univ l.clients c client Client.exclusive (Finset.mem_univ c)

theorem set_shareds (word : Nat) (client : Client) :
    (l.set c word client).shareds + (l.clients c).shared = l.shareds + client.shared :=
  sum_update Finset.univ l.clients c client Client.shared (Finset.mem_univ c)

theorem exclusive_le (l : Lock n) (c : Fin n) : (l.clients c).exclusive ≤ l.exclusives :=
  le_sum (fun c => (l.clients c).exclusive) c

theorem shared_le (l : Lock n) (c : Fin n) : (l.clients c).shared ≤ l.shareds :=
  le_sum (fun c => (l.clients c).shared) c

/-- The new counts of holders decide about the mode. -/
def NextMode (l : Lock n) (c : Fin n) (mode : Nat) (client : Client) : Prop :=
  ∀ xs ss, xs + (l.clients c).exclusive = l.exclusives + client.exclusive →
    ss + (l.clients c).shared = l.shareds + client.shared → Mode mode xs ss

theorem Inv.keep {word mode flags : Nat} {client : Client} (inv : Inv l)
    (fields : Fields word mode (getVersion64 l.word) flags) (ok : client.pc.Ok client word)
    (next : NextMode l c mode client) : Inv (l.set c word client) := by
  refine ⟨fields.small, ?_, fun d => ?_⟩
  · rw [show (l.set c word client).word = word from rfl, fields.mode]
    exact next _ _ (set_exclusives word client) (set_shareds word client)
  · by_cases self : d = c
    · subst self
      rw [set_client]
      exact ok
    · rw [set_other _ _ self]
      exact (inv.clients d).version fields.version

/-- The exclusive release bumps the version, and nobody else relies on it. -/
theorem Inv.release {word mode flags version : Nat} {client : Client} (inv : Inv l)
    (fields : Fields word mode version flags) (idle : client.pc = .idle)
    (holds : 0 < (l.clients c).exclusive) (next : NextMode l c mode client) :
    Inv (l.set c word client) := by
  refine ⟨fields.small, ?_, fun d => ?_⟩
  · rw [show (l.set c word client).word = word from rfl, fields.mode]
    exact next _ _ (set_exclusives word client) (set_shareds word client)
  · by_cases self : d = c
    · subst self
      rw [set_client, idle]
      trivial
    · have old := inv.clients d
      rw [set_other _ _ self]
      cases at_ : (l.clients d).pc with
      | unlockXStore mark loaded =>
        -- there is one exclusive holder only
        rw [at_] at old
        have both := add_le_sum (fun c => (l.clients c).exclusive) self
        have one := inv.counts.one
        have held := old.1
        unfold Lock.exclusives at one
        omega
      | _ =>
        rw [at_] at old
        exact old

theorem tryLockS64_spec {expected word : Nat} (tries : tryLockS64 expected = some word) :
    ∃ mode, Fields word mode (getVersion64 expected) (getFlags64 expected) ∧
      ((getState64 expected < maxShared ∧ mode = getState64 expected + 1) ∨
       (getState64 expected = marked ∧ mode = 1)) := by
  have small : maxShared = 252 := rfl
  simp only [tryLockS64] at tries
  split at tries
  next less =>
    cases tries
    exact ⟨_, fields_sameVersion (by omega), Or.inl ⟨less, rfl⟩⟩
  next =>
    split at tries <;> cases tries
    next here => exact ⟨_, fields_sameVersion (by decide), Or.inr ⟨here, rfl⟩⟩

theorem unlockS64_spec (mark : Bool) (w : Nat) (small : getState64 w ≤ maxShared)
    (held : 0 < getState64 w) :
    ∃ mode, Fields (unlockS64 mark w) mode (getVersion64 w) (getFlags64 w) ∧
      (mode = getState64 w - 1 ∨ (getState64 w = 1 ∧ mode = marked)) := by
  have bound : maxShared = 252 := rfl
  simp only [unlockS64]
  split
  next last => exact ⟨_, fields_sameVersion (by decide), Or.inr ⟨last.2, rfl⟩⟩
  next => exact ⟨_, fields_sameVersion (by omega), Or.inl rfl⟩

theorem Inv.effect (inv : Inv l) (effect : Effect l c flagged l' out) : Inv l' := by
  have values : unlocked = 0 ∧ maxShared = 252 ∧ locked = 253 ∧ marked = 254 :=
    ⟨rfl, rfl, rfl, rfl⟩
  have mode := inv.mode
  have ok := inv.clients c
  have mine := exclusive_le l c
  have mine' := shared_le l c
  unfold Mode at mode
  cases effect with
  | move pc out ok' keeps =>
    refine inv.keep ⟨inv.small, rfl, rfl, rfl⟩ ok' fun xs ss exclusive shared => ?_
    unfold Mode
    dsimp only at exclusive shared
    omega
  | flag touches flag value =>
    have fields := fields_updateFlag flag value inv.small
    refine inv.keep fields (ok.version fields.version) fun xs ss exclusive shared => ?_
    unfold Mode
    omega
  | lockS idle word tries =>
    obtain ⟨mode', fields, fits⟩ := tryLockS64_spec tries
    refine inv.keep fields (by rw [LockKind.take, idle]; trivial) fun xs ss exclusive shared => ?_
    simp only [LockKind.take] at exclusive shared
    unfold Mode
    omega
  | lockX idle word flags free fields same =>
    refine inv.keep fields (by rw [LockKind.take, idle]; trivial) fun xs ss exclusive shared => ?_
    simp only [LockKind.take] at exclusive shared
    unfold Mode
    omega
  | mark old new here swaps =>
    have fits : new < 256 := by omega
    have fields := fields_sameVersion (w := l.word) fits
    refine inv.keep fields (ok.version fields.version) fun xs ss exclusive shared => ?_
    unfold Mode
    omega
  | unlockS mark holds =>
    obtain ⟨mode', fields, fits⟩ := unlockS64_spec mark l.word (by omega) (by omega)
    refine inv.keep fields trivial fun xs ss exclusive shared => ?_
    dsimp only at exclusive shared
    unfold Mode
    omega
  | unlockX mark loaded at_ =>
    rw [at_] at ok
    have fits : (if mark then marked else unlocked) < 256 := by cases mark <;> decide
    have which : (if mark then marked else unlocked) = unlocked ∨
        (if mark then marked else unlocked) = marked := by cases mark <;> simp
    refine inv.release (fields_nextVersion fits) rfl ok.1 fun xs ss exclusive shared => ?_
    have held := ok.1
    dsimp only at exclusive shared
    unfold Mode
    omega

/-! ### Versions and flags along a run -/

/-- The version after `k` exclusive releases. -/
def versionAfter (version k : Nat) : Nat := (version + k) % 2 ^ 48

def Out.releases (out : Out) : Nat := if out = .released then 1 else 0

theorem getVersion64_lt (w : Nat) : getVersion64 w < 2 ^ 48 := by
  rw [getVersion64_eq]
  omega

theorem versionAfter_zero (w : Nat) : versionAfter (getVersion64 w) 0 = getVersion64 w :=
  Nat.mod_eq_of_lt (getVersion64_lt w)

/-- The version counts the exclusive releases, and flags change only where that is meant: an
exclusive release puts back the flags it has loaded. -/
theorem Inv.effect_fields (inv : Inv l) (effect : Effect l c flagged l' out) :
    getVersion64 l'.word = versionAfter (getVersion64 l.word) out.releases ∧
      (¬ flagged → out ≠ .released → getFlags64 l'.word = getFlags64 l.word) := by
  have values : unlocked = 0 ∧ maxShared = 252 ∧ locked = 253 ∧ marked = 254 :=
    ⟨rfl, rfl, rfl, rfl⟩
  have mode := inv.mode
  have mine' := shared_le l c
  unfold Mode at mode
  have stays {word mode flags : Nat} {out : Out} (keeps : out ≠ .released)
      (fields : Fields word mode (getVersion64 l.word) flags) :
      getVersion64 word = versionAfter (getVersion64 l.word) out.releases := by
    rw [fields.version, Out.releases, if_neg keeps, versionAfter_zero]
  cases effect with
  | move pc out ok keeps => exact ⟨stays keeps ⟨inv.small, rfl, rfl, rfl⟩, fun _ _ => rfl⟩
  | flag touches flag value =>
    exact ⟨stays (fun same => by cases same) (fields_updateFlag flag value inv.small), fun plain => absurd touches plain⟩
  | lockS idle word tries =>
    obtain ⟨mode', fields, fits⟩ := tryLockS64_spec tries
    exact ⟨stays (fun same => by cases same) fields, fun _ _ => fields.flags⟩
  | lockX idle word flags free fields same =>
    exact ⟨stays (fun same => by cases same) fields, fun plain _ => fields.flags.trans (same plain)⟩
  | mark old new here swaps =>
    have fields : Fields (sameVersion64 l.word new) _ _ _ := fields_sameVersion (by omega)
    exact ⟨stays (fun same => by cases same) fields, fun _ _ => fields.flags⟩
  | unlockS mark holds =>
    obtain ⟨mode', fields, fits⟩ := unlockS64_spec mark l.word (by omega) (by omega)
    exact ⟨stays (fun same => by cases same) fields, fun _ _ => fields.flags⟩
  | unlockX mark loaded at_ =>
    have ok := inv.clients c
    rw [at_] at ok
    have fields : Fields (unlockX64 mark loaded) _ _ _ :=
      fields_nextVersion (by cases mark <;> decide)
    refine ⟨?_, fun _ keeps => absurd rfl keeps⟩
    rw [ok.2] at fields
    exact fields.version

theorem inv_initial (start : Initial l) : Inv l := by
  obtain ⟨small, free, idle⟩ := start
  refine ⟨small, ?_, fun c => ?_⟩
  · have none : l.exclusives = 0 ∧ l.shareds = 0 := by
      simp [Lock.exclusives, Lock.shareds, idle]
    exact Or.inr (Or.inl ⟨free, none⟩)
  · rw [idle]
    trivial

theorem inv_step {label : Act n × Out} (inv : Inv l) (stepped : (system n).step l label l') :
    Inv l' :=
  inv.effect (exec_effect inv stepped)

theorem inv_reaches {labels : List (Act n × Out)}
    (reached : (system n).Reaches System.anyStep labels l) : Inv l :=
  reached.invariant (fun _ => inv_initial) fun _ _ _ inv _ => inv_step inv

/-- The exclusive releases among the labels of a run. -/
def releases (labels : List (Act n × Out)) : Nat := (labels.map fun label => label.2.releases).sum

/-- Along a run the version is the number of exclusive releases. -/
theorem path_version {labels : List (Act n × Out)}
    (path : (system n).Path System.anyStep l labels l') (inv : Inv l) :
    getVersion64 l'.word = versionAfter (getVersion64 l.word) (releases labels) := by
  induction path with
  | nil l => exact (versionAfter_zero l.word).symm
  | cons stepped _ _ ih =>
    have first := (inv.effect_fields (exec_effect inv stepped)).1
    rw [ih (inv_step inv stepped), first]
    simp only [versionAfter, releases, List.map_cons, List.sum_cons]
    omega

end

/-- **The page-state word is a reader/writer lock with a version.** In every reachable state the
mode field counts the holders. A step moves the version by one exactly when it completes an
exclusive release, and it touches no field but those it is meant to change. So two loads that
show the same version, fewer than 2^48 releases apart, have no release between them. -/
theorem pageState_lock (n : Nat) (before : List (Act n × Out)) (l : Lock n)
    (reached : (system n).Reaches System.anyStep before l) :
    Counts l ∧ l.word < 2 ^ 64 ∧
    (∀ act out l', exec l act = some (l', out) →
      getVersion64 l'.word = (getVersion64 l.word + out.releases) % 2 ^ 48 ∧
      (act.flagged = false → out ≠ .released → getFlags64 l'.word = getFlags64 l.word) ∧
      (∀ c flag value, act = .call c (.updateFlag flag value) →
        getState64 l'.word = getState64 l.word)) ∧
    (∀ labels l', (system n).Path System.anyStep l labels l' →
      getVersion64 l'.word = getVersion64 l.word →
      getState64 l.word ≠ locked → getState64 l'.word ≠ locked →
      releases labels < 2 ^ 48 → ∀ label ∈ labels, label.2 ≠ .released) := by
  have inv := inv_reaches reached
  refine ⟨inv.counts, inv.small, fun act out l' execs => ?_, fun labels l' path same _ _ few => ?_⟩
  · obtain ⟨version, flags⟩ := inv.effect_fields (exec_effect inv execs)
    refine ⟨version, fun plain keeps => flags (by simp [plain]) keeps, ?_⟩
    rintro c flag value rfl
    simp only [exec] at execs
    split at execs <;> cases execs
    exact (fields_updateFlag flag value inv.small).mode
  · have none : releases labels = 0 := by
      have moved := path_version path inv
      have low := getVersion64_lt l.word
      rw [same, versionAfter] at moved
      omega
    intro label member released
    have counted : label.2.releases ≤ releases labels :=
      List.single_le_sum (fun _ _ => Nat.zero_le _) _ (List.mem_map_of_mem member)
    rw [none, released] at counted
    exact absurd counted (by decide)

def fresh (n : Nat) : Lock n := ⟨0, fun _ => ⟨.idle, 0, 0⟩⟩

theorem initial_fresh (n : Nat) : Initial (fresh n) :=
  ⟨Nat.two_pow_pos 64, Or.inl (Nat.zero_shiftRight 56), fun _ => rfl⟩

/-- One client takes the word exclusively, another sets a flag meanwhile, and the first one
releases it. -/
def lockOnce : List (Act 2) :=
  [.call 0 (.tryLock .x 0), .call 0 (.unlockX true), .call 1 (.updateFlag .evicting true),
    .step 0, .step 0]

theorem pageState_lock_once : ∃ labels l, (system 2).Reaches System.anyStep labels l ∧
    releases labels = 1 ∧ getState64 l.word = marked ∧ Counts l := by
  have passed : (drive exec (fun _ _ => true) (fresh 2) lockOnce).any
      (fun r => releases r.2 = 1 ∧ getState64 r.1.word = marked) := by decide +kernel
  obtain ⟨l, labels, reached, tested⟩ := drive_anyStep (system 2) rfl (initial_fresh 2) passed
  have tested := of_decide_eq_true tested
  exact ⟨labels, l, reached, tested.1, tested.2, (pageState_lock 2 labels l reached).1⟩

end UringDb.PageLock
