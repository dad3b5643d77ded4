import UringDb.Lib.Run
import UringDb.PageTable.Slot

/-!
# The atomic page table

`AtomicPageTable` is an open-addressed table of packed words. Every operation is a
sequence of atomic loads and compare-and-swaps on single slots; everything between
two of them is local to the calling thread. A `Pc` names the next atomic operation
of a call together with the locals it still needs, and `Table.step` performs exactly
that one operation. `precheck` of `erase_if` is the caller's code: its answer is an
input of the step that consumes it.
-/
namespace UringDb.PageTable

open Slot

/-- What is fixed at construction: `slot_count` is a power of two, as the constructor
ensures, and `hash` spreads page ids over the slots. -/
structure Table where
  bits : Nat
  hash : Nat → Nat

namespace Table

def slotCount (tb : Table) : Nat := 2 ^ tb.bits

def slotMask (tb : Table) : Nat := tb.slotCount - 1

def slotIdx (tb : Table) (pid : Nat) : Nat := tb.hash pid &&& tb.slotMask

/-- The part of the table a call of `clock_sweep_next_owned` looks at, in 64-bit arithmetic. -/
def window (tb : Table) (ownerCount batchHint sizeHint : Nat) : Nat :=
  let slotsPerOwned := tb.slotCount * ownerCount % 2 ^ 64 / sizeHint
  min tb.slotCount (max (batchHint * slotsPerOwned % 2 ^ 64 * 8 % 2 ^ 64) 1024)

/-- The slot examined after `probed` steps from the home slot of `pid`. -/
def probe (tb : Table) (pid probed : Nat) : Nat := (tb.slotIdx pid + probed) &&& tb.slotMask

def next (tb : Table) (idx : Nat) : Nat := (idx + 1) &&& tb.slotMask

end Table

/-- splitmix64, the `hash` the code uses. -/
def splitmix (x : Nat) : Nat :=
  let x := (x + 0x9e3779b97f4a7c15) % 2 ^ 64
  let x := ((x ^^^ (x >>> 30)) * 0xbf58476d1ce4e5b9) % 2 ^ 64
  let x := ((x ^^^ (x >>> 27)) * 0x94d049bb133111eb) % 2 ^ 64
  x ^^^ (x >>> 31)

def Table.ofBits (bits : Nat) : Table := ⟨bits, splitmix⟩

inductive Call where
  | findCopy (pid : Nat)
  | insert (pid bid : Nat)
  | erase (pid : Nat)
  | eraseIf (pid : Nat)
  deriving DecidableEq, Repr

inductive Ret where
  | found (bid : Nat)
  | bool (value : Bool)
  deriving DecidableEq, Repr

/-- The next atomic operation of a call. -/
inductive Pc where
  | idle
  | find (pid probed : Nat)
  /-- `insert`: the load of the probe loop. -/
  | probe (pid bid probed : Nat) (firstTombstone : Option Nat)
  /-- `insert`: the compare-and-swap made when the probe reached an EMPTY slot. -/
  | claim (pid bid probed : Nat) (firstTombstone : Option Nat)
  /-- `insert`: the compare-and-swap on the first tombstone after the probe loop. -/
  | claimTombstone (pid bid target : Nat)
  | erase (pid probed : Nat)
  | eraseCas (pid idx raw : Nat)
  | eraseIf (pid probed : Nat)
  | precheck (pid idx raw : Nat)
  | eraseIfCas (pid idx raw : Nat)
  /-- `collapse_tombstone_run`: the load of the slot after the run seen so far. -/
  | scan (call : Call) (startIdx idx runLen : Nat)
  /-- `collapse_tombstone_run`: the next compare-and-swap of a tombstone to EMPTY. -/
  | clear (call : Call) (startIdx clearIdx cleared runLen : Nat)
  | returned (call : Call) (ret : Ret)
  deriving DecidableEq, Repr

/-- What a step shows to the outside: a call returned, or an erase took effect. -/
inductive Out where
  | silent
  | returned (call : Call) (ret : Ret)
  | erased (pid bid : Nat)
  deriving DecidableEq, Repr

structure Result where
  slots : Nat → Nat
  pc : Pc
  out : Out

def setSlot (slots : Nat → Nat) (idx raw : Nat) : Nat → Nat :=
  fun i => if i = idx then raw else slots i

namespace Table

variable (tb : Table) (slots : Nat → Nat)

def finish (call : Call) (ret : Ret) : Result := ⟨slots, .returned call ret, .returned call ret⟩

def goto (pc : Pc) : Result := ⟨slots, pc, .silent⟩

/-- After the probe loop of `insert`: retry from the start, or try the first tombstone. -/
def afterProbe (pid bid : Nat) : Option Nat → Pc
  | none => .probe pid bid 0 none
  | some target => .claimTombstone pid bid target

/-- The next iteration of the probe loop of `insert`, or what follows the loop. -/
def probeNext (pid bid probed : Nat) (firstTombstone : Option Nat) : Pc :=
  if probed + 1 < tb.slotCount then .probe pid bid (probed + 1) firstTombstone
  else afterProbe pid bid firstTombstone

/-- Entering `collapse_tombstone_run`. -/
def collapse (call : Call) (startIdx : Nat) : Pc :=
  if 1 < tb.slotCount then .scan call startIdx startIdx 1 else .clear call startIdx startIdx 0 1

def find (pid probed : Nat) : Result :=
  let raw := slots (tb.probe pid probed)
  if isEmpty raw then finish slots (.findCopy pid) (.bool false)
  else if !isTombstone raw && Slot.pid raw == pid then
    finish slots (.findCopy pid) (.found (Slot.bid raw))
  else if probed + 1 < tb.slotCount then goto slots (.find pid (probed + 1))
  else finish slots (.findCopy pid) (.bool false)

def insertProbe (pid bid probed : Nat) (firstTombstone : Option Nat) : Result :=
  let idx := tb.probe pid probed
  let raw := slots idx
  if isTombstone raw then
    goto slots (tb.probeNext pid bid probed (some (firstTombstone.getD idx)))
  else if isEmpty raw then goto slots (.claim pid bid probed firstTombstone)
  else if Slot.pid raw == pid then finish slots (.insert pid bid) (.bool false)
  else goto slots (tb.probeNext pid bid probed firstTombstone)

/-- A compare-and-swap by `insert`; `failed` is where it continues on failure. -/
def insertCas (pid bid target expected : Nat) (failed : Pc) : Result :=
  if slots target = expected then
    { slots := setSlot slots target (word pid bid)
      pc := .returned (.insert pid bid) (.bool true)
      out := .returned (.insert pid bid) (.bool true) }
  else goto slots failed

/-- The probe step shared by `erase` and `erase_if`: `found` is entered at a live entry of
`pid`, `again` at any other occupied slot. -/
def eraseProbe (call : Call) (pid probed : Nat) (found : Nat → Nat → Pc) (again : Result) : Result :=
  let idx := tb.probe pid probed
  let raw := slots idx
  if isEmpty raw then finish slots call (.bool false)
  else if isTombstone raw || Slot.pid raw != pid then again
  else goto slots (found idx raw)

/-- The compare-and-swap of an entry to a tombstone. -/
def eraseCas (call : Call) (idx raw : Nat) (failed : Result) : Result :=
  if slots idx = raw then
    { slots := setSlot slots idx tombstoneSlot
      pc := tb.collapse call idx
      out := .erased (Slot.pid raw) (Slot.bid raw) }
  else failed

def scan (call : Call) (startIdx idx runLen : Nat) : Result :=
  let raw := slots (tb.next idx)
  if isTombstone raw then
    if runLen + 1 < tb.slotCount then goto slots (.scan call startIdx (tb.next idx) (runLen + 1))
    else goto slots (.clear call startIdx (tb.next idx) 0 (runLen + 1))
  else if !isEmpty raw then finish slots call (.bool true)
  else goto slots (.clear call startIdx idx 0 runLen)

def clear (call : Call) (startIdx clearIdx cleared runLen : Nat) : Result :=
  if slots clearIdx = tombstoneSlot then
    let slots' := setSlot slots clearIdx emptySlot
    if cleared + 1 < runLen then
      goto slots' (.clear call startIdx (if clearIdx = 0 then tb.slotMask else clearIdx - 1)
        (cleared + 1) runLen)
    else finish slots' call (.bool true)
  else finish slots call (.bool true)

/-- One atomic operation of a running call. -/
def step (answer : Bool) : Pc → Option Result
  | .idle => none
  | .returned _ _ => none
  | .find pid probed => some (tb.find slots pid probed)
  | .probe pid bid probed ft => some (tb.insertProbe slots pid bid probed ft)
  | .claim pid bid probed none =>
    some (insertCas slots pid bid (tb.probe pid probed) emptySlot (afterProbe pid bid none))
  | .claim pid bid _ (some target) =>
    some (insertCas slots pid bid target tombstoneSlot (afterProbe pid bid (some target)))
  | .claimTombstone pid bid target =>
    some (insertCas slots pid bid target tombstoneSlot (.probe pid bid 0 none))
  | .erase pid probed =>
    some (tb.eraseProbe slots (.erase pid) pid probed (.eraseCas pid)
      -- the outer `while (true)` starts over when a whole round found nothing
      (goto slots (.erase pid (if probed + 1 < tb.slotCount then probed + 1 else 0))))
  | .eraseCas pid idx raw =>
    some (tb.eraseCas slots (.erase pid) idx raw (goto slots (.erase pid 0)))
  | .eraseIf pid probed =>
    some (tb.eraseProbe slots (.eraseIf pid) pid probed (.precheck pid)
      (if probed + 1 < tb.slotCount then goto slots (.eraseIf pid (probed + 1))
       else finish slots (.eraseIf pid) (.bool false)))
  | .precheck pid idx raw =>
    if answer then some (goto slots (.eraseIfCas pid idx raw))
    else some (finish slots (.eraseIf pid) (.bool false))
  | .eraseIfCas pid idx raw =>
    some (tb.eraseCas slots (.eraseIf pid) idx raw (finish slots (.eraseIf pid) (.bool false)))
  | .scan call startIdx idx runLen => some (tb.scan slots call startIdx idx runLen)
  | .clear call startIdx clearIdx cleared runLen =>
    some (tb.clear slots call startIdx clearIdx cleared runLen)

end Table

/-- Where a call starts; `none` when `pack` throws before the first access. -/
def Call.start : Call → Option Pc
  | .findCopy pid => some (.find pid 0)
  | .insert pid bid => (pack pid bid).map fun _ => .probe pid bid 0 none
  | .erase pid => some (.erase pid 0)
  | .eraseIf pid => some (.eraseIf pid 0)

/-! ### Concurrent callers -/

structure State (threads : Nat) where
  slots : Nat → Nat
  pcs : Fin threads → Pc

inductive Act (threads : Nat) where
  | call (t : Fin threads) (c : Call)
  | step (t : Fin threads) (answer : Bool)
  deriving DecidableEq, Repr

variable {threads : Nat}

def State.setPc (s : State threads) (t : Fin threads) (pc : Pc) : State threads :=
  { s with pcs := Function.update s.pcs t pc }

def Pc.canCall : Pc → Bool
  | .idle => true
  | .returned _ _ => true
  | _ => false

def exec (tb : Table) (s : State threads) : Act threads → Option (State threads × Out)
  | .call t c =>
    if (s.pcs t).canCall then c.start.map fun pc => (s.setPc t pc, .silent) else none
  | .step t answer =>
    (tb.step s.slots answer (s.pcs t)).map fun r =>
      ({ slots := r.slots, pcs := Function.update s.pcs t r.pc }, r.out)

def initial : State threads := ⟨fun _ => emptySlot, fun _ => .idle⟩

def system (tb : Table) (threads : Nat) : System (State threads) (Act threads × Out) :=
  System.ofStep (fun s => s = initial) (exec tb)

end UringDb.PageTable
