import UringDb.Lib.Bytes
import UringDb.BufferMgr.Devices

/-!
# B-tree pages

The page format of `btree_node.hpp`: a header with two fence keys, a slot array growing up and
a heap of key suffixes and payloads growing down. The heap is modelled by what the slots point
to, together with the two numbers the code keeps about it, `dataOffset` and `spaceUsed`. The
first `prefixLen` bytes are common to the whole page and left out of its keys.

A function returns `none` where an assertion of the source fails (they are compiled in), and
where `memcpy` would write below the start of the page: there the 16-bit `dataOffset` has
wrapped around.
-/
namespace UringDb.BTree

abbrev Key := List Byte

abbrev PID := Nat

/-- The two versions of the tree. -/
inductive Engine where
  | singleThreaded
  | multiThreaded
  deriving DecidableEq, Repr

def headerSize : Nat := 96
def slotSize : Nat := 10
def pidSize : Nat := 8
def hintCount : Nat := 16

/-- What a slot stores beside its key: the client's bytes in a leaf, a page id in an inner
node. -/
inductive Payload where
  | data (bytes : List Byte)
  | child (pid : PID)
  deriving DecidableEq, Repr

def Payload.pid : Payload → PID
  | .data _ => 0
  | .child pid => pid

def Payload.size : Payload → Nat
  | .data bytes => bytes.length
  | .child _ => pidSize

/-- The first `n` bytes of a key as a big-endian number, absent bytes counting as zero. -/
def leading : Nat → Key → Nat
  | 0, _ => 0
  | _ + 1, [] => 0
  | n + 1, b :: key => b.val * 256 ^ n + leading n key

/-- The order-preserving 32-bit head of a key. -/
def head (key : Key) : Nat := leading 4 key

structure Slot where
  key : Key
  payload : Payload
  head : Nat
  deriving DecidableEq, Repr

instance : Inhabited Slot := ⟨[], .data [], 0⟩

def Slot.size (s : Slot) : Nat := s.key.length + s.payload.size

structure Node where
  isLeaf : Bool
  /-- `upperInnerNode` of an inner node, `nextLeafNode` of a leaf; `none` is `noNeighbour`,
  the largest 64-bit number, which is not handed out as a page id. -/
  link : Option PID
  /-- Exclusive; empty for the leftmost node of a level. -/
  lowerFence : Key
  /-- Inclusive; empty for the rightmost node of a level. -/
  upperFence : Key
  slots : List Slot
  spaceUsed : Nat
  dataOffset : Nat
  prefixLen : Nat
  hint : List Nat
  deriving DecidableEq, Repr

namespace Node

def new (isLeaf : Bool) : Node :=
  ⟨isLeaf, none, [], [], [], 0, pageSize, 0, List.replicate hintCount 0⟩

variable (n : Node)

def isInner : Bool := !n.isLeaf
def hasRightNeighbour : Bool := n.link.isSome
def count : Nat := n.slots.length
def slotAt (slotId : Nat) : Slot := n.slots.getD slotId default
def getPrefix : Key := n.lowerFence.take n.prefixLen
def getPayload (slotId : Nat) : Payload := (n.slotAt slotId).payload

/-- The full key of a slot, as callers assemble it from `getPrefix` and `getKey`. -/
def fullKey (slotId : Nat) : Key := n.getPrefix ++ (n.slotAt slotId).key

def getChild (slotId : Nat) : PID := (n.getPayload slotId).pid

/-- Write over the payload of a slot. -/
def setPayload (slotId : Nat) (payload : Payload) : Node :=
  { n with slots :=
      n.slots.set slotId ⟨(n.slotAt slotId).key, payload, (n.slotAt slotId).head⟩ }

def setChild (slotId : Nat) (pid : PID) : Node := n.setPayload slotId (.child pid)

/-- The end of the slot array, as an offset into the page. -/
def slotEnd : Nat := headerSize + slotSize * n.count

def freeSpace : Nat := n.dataOffset - n.slotEnd
def freeSpaceAfterCompaction : Nat := pageSize - n.slotEnd - n.spaceUsed

/-- The difference would wrap around in the source; the keys of a node begin with its prefix. -/
def spaceNeeded (keyLen payloadLen : Nat) : Nat := slotSize + (keyLen - n.prefixLen) + payloadLen

/-! ### Hints -/

/-- The head that `makeHint` stores in `hint[i]`. Past the last slot the source reads left-over
memory; such hints are never consulted. -/
def hintAt (i : Nat) : Nat := (n.slotAt (n.count / (hintCount + 1) * (i + 1))).head

def makeHint : Node := { n with hint := (List.range hintCount).map n.hintAt }

def updateHint (slotId : Nat) : Node :=
  let dist := n.count / (hintCount + 1)
  let start :=
    if n.count > hintCount * 2 + 1 ∧ (n.count - 1) / (hintCount + 1) = dist ∧ slotId / dist > 1
    then slotId / dist - 1 else 0
  { n with hint := (List.range hintCount).map fun i =>
      if i < start then n.hint.getD i 0 else n.hintAt i }

/-- The bounds `lowerOut` and `upperOut` for a search of all slots. -/
def searchHint (keyHead : Nat) : Nat × Nat :=
  if n.count > hintCount * 2 then
    let dist := n.count / (hintCount + 1)
    let pos := n.hint.findIdx (keyHead ≤ ·)
    let pos2 := pos + (n.hint.drop pos).findIdx (· ≠ keyHead)
    (pos * dist, if pos2 < hintCount then (pos2 + 1) * dist else n.count)
  else (0, n.count)

end Node

/-! ### Search -/

/-- One comparison of the binary search: heads first, then the bytes, then the lengths. -/
def Slot.order (s : Slot) (key : Key) (keyHead : Nat) : Ordering :=
  let m := min key.length s.key.length
  if keyHead < s.head then .lt
  else if s.head < keyHead then .gt
  else if key.take m < s.key.take m then .lt
  else if s.key.take m < key.take m then .gt
  else if key.length < s.key.length then .lt
  else if s.key.length < key.length then .gt
  else .eq

/-- The loop of `lowerBound` and `upperBound`, which differ in what they do on a match: the
first returns it, the second moves right of it. -/
def bisect (slots : List Slot) (key : Key) (keyHead : Nat) (stopAtMatch : Bool) :
    Nat → Nat → Nat → Nat × Bool
  | 0, lower, _ => (lower, false)
  | fuel + 1, lower, upper =>
    if lower < upper then
      let mid := (upper - lower) / 2 + lower
      match (slots.getD mid default).order key keyHead with
      | .lt => bisect slots key keyHead stopAtMatch fuel lower mid
      | .gt => bisect slots key keyHead stopAtMatch fuel (mid + 1) upper
      | .eq =>
        if stopAtMatch then (mid, true)
        else bisect slots key keyHead stopAtMatch fuel (mid + 1) upper
    else (lower, false)

namespace Node

variable (n : Node)

/-- The common body of `lowerBound` and `upperBound`: compare with the prefix of the page, then
search the range the hints leave. -/
def bound (stopAtMatch : Bool) (skey : Key) : Nat × Bool :=
  let m := min skey.length n.prefixLen
  if skey.take m < n.getPrefix.take m then (0, false)
  else if n.getPrefix.take m < skey.take m then (n.count, false)
  else if skey.length < n.prefixLen then (0, false)
  else
    let key := skey.drop n.prefixLen
    let range := n.searchHint (head key)
    bisect n.slots key (head key) stopAtMatch n.count range.1 range.2

/-- The first slot whose key is at least `skey`, and whether it is `skey`. -/
def lowerBound (skey : Key) : Nat × Bool := n.bound true skey

def upperBound (skey : Key) : Nat := (n.bound false skey).1

/-- The child of the slot a search ended at. -/
def childAt (pos : Nat) : PID := if pos = n.count then n.link.getD 0 else n.getChild pos

def lookupInner (key : Key) : PID := n.childAt (n.lowerBound key).1

def lookupInnerUpper (key : Key) : PID := n.childAt (n.upperBound key)

/-! ### Filling a page -/

def insertFence (key : Key) : Option Node := do
  guard (key.length ≤ n.freeSpace)
  some { n with dataOffset := n.dataOffset - key.length, spaceUsed := n.spaceUsed + key.length }

def setFences (lower upper : Key) : Option Node := do
  let n ← n.insertFence lower
  let n ← n.insertFence upper
  some { n with lowerFence := lower, upperFence := upper, prefixLen := Lex.commonLen lower upper }

/-- Take heap space for a key and a payload and point slot `slotId` to it; the slots from
`slotId` on have been moved up. -/
def place (slotId : Nat) (key : Key) (payload : Payload) : Option Node := do
  let space := key.length + payload.size
  guard (space ≤ n.dataOffset)
  some { n with
    slots := n.slots.insertIdx slotId ⟨key, payload, head key⟩
    dataOffset := n.dataOffset - space
    spaceUsed := n.spaceUsed + space }

def storeKeyValue (slotId : Nat) (skey : Key) (payload : Payload) : Option Node := do
  let n ← n.place slotId (skey.drop n.prefixLen) payload
  guard (headerSize + slotSize * slotId ≤ n.dataOffset)
  some n

/-- One round of `copyKeyValueRange`: append the entry of a slot of `n` to `dst`. -/
def copySlot (dst : Node) (s : Slot) : Option Node :=
  if n.prefixLen ≤ dst.prefixLen then
    dst.place dst.count (s.key.drop (dst.prefixLen - n.prefixLen)) s.payload
  else dst.storeKeyValue dst.count (n.getPrefix ++ s.key) s.payload

/-- Append the entries of `srcCount` slots to `dst`. Every caller passes the number of slots
already in `dst` as `dstSlot`. -/
def copyKeyValueRange (dst : Node) (srcSlot srcCount : Nat) : Option Node := do
  let dst ← ((n.slots.drop srcSlot).take srcCount).foldlM n.copySlot dst
  guard (dst.slotEnd ≤ dst.dataOffset)
  some dst

def compactify : Option Node := do
  let tmp ← (new n.isLeaf).setFences n.lowerFence n.upperFence
  let tmp ← n.copyKeyValueRange tmp 0 n.count
  let tmp := { tmp with link := n.link }.makeHint
  guard (tmp.freeSpace = n.freeSpaceAfterCompaction)
  some tmp

/-- Compact the page if the free space between slots and heap does not suffice. -/
def makeRoom (needed : Nat) : Option Node :=
  if needed > n.freeSpace then do
    guard (needed ≤ n.freeSpaceAfterCompaction)
    n.compactify
  else some n

def removeSlot (slotId : Nat) : Node :=
  { n with
    slots := n.slots.eraseIdx slotId
    spaceUsed := n.spaceUsed - (n.slotAt slotId).size }.makeHint

/-! ### Merging -/

/-- `mergeNodes`: the answer, this node and the parent. -/
def mergeNodes (pid : PID) (slotId : Nat) (parent right : Node) : Option (Bool × Node × Node) :=
  if n.isInner then some (true, n, parent)
  else do
    guard right.isLeaf
    guard parent.isInner
    let tmp ← (new n.isLeaf).setFences n.lowerFence right.upperFence
    let leftGrow := (n.prefixLen - tmp.prefixLen) * n.count
    let rightGrow := (right.prefixLen - tmp.prefixLen) * right.count
    let spaceUpperBound := n.spaceUsed + right.spaceUsed +
      (headerSize + slotSize * (n.count + right.count)) + leftGrow + rightGrow
    if spaceUpperBound > pageSize then some (false, n, parent)
    else do
      let tmp ← n.copyKeyValueRange tmp 0 n.count
      let tmp ← right.copyKeyValueRange tmp 0 right.count
      let parent := (parent.setChild (slotId + 1) pid).removeSlot slotId
      some (true, { tmp.makeHint with link := right.link }, parent)

/-! ### Choosing a separator -/

structure SeparatorInfo where
  /-- The length of the separator. -/
  len : Nat
  /-- The slot to split after. -/
  slot : Nat
  /-- The separator is cut from the key of the next slot. -/
  isTruncated : Bool
  deriving DecidableEq, Repr

def commonPrefix (slotA slotB : Nat) : Nat :=
  Lex.commonLen (n.slotAt slotA).key (n.slotAt slotB).key

end Node

/-- Advance `i` while `p` holds, at most `fuel` times. -/
def advance (p : Nat → Bool) : Nat → Nat → Nat
  | 0, i => i
  | fuel + 1, i => if p i then advance p fuel (i + 1) else i

namespace Node

variable (n : Node)

def separatorSlot (splitOrdered : Bool) : Nat :=
  if splitOrdered then n.count - 2
  else if n.count > 16 then
    let lower := n.count / 2 - n.count / 16
    let upper := n.count / 2
    let bestPrefixLen := n.commonPrefix lower 0
    if bestPrefixLen ≠ n.commonPrefix (upper - 1) 0 then
      advance (fun slotId => n.commonPrefix slotId 0 = bestPrefixLen) (upper - (lower + 1))
        (lower + 1)
    else lower
  else (n.count - 1) / 2

def findSeparator (splitOrdered : Bool) : Option SeparatorInfo := do
  guard (n.count > 1)
  if n.isInner then
    let slotId := n.count / 2
    some ⟨n.prefixLen + (n.slotAt slotId).key.length, slotId, false⟩
  else
    let bestSlot := n.separatorSlot splitOrdered
    let common := n.commonPrefix bestSlot (bestSlot + 1)
    if bestSlot + 1 < n.count ∧ (n.slotAt bestSlot).key.length > common ∧
        (n.slotAt (bestSlot + 1)).key.length > common + 1 then
      some ⟨n.prefixLen + common + 1, bestSlot, true⟩
    else some ⟨n.prefixLen + (n.slotAt bestSlot).key.length, bestSlot, false⟩

def getSep (info : SeparatorInfo) : Key :=
  n.getPrefix ++
    (n.slotAt (info.slot + if info.isTruncated then 1 else 0)).key.take (info.len - n.prefixLen)

end Node

end UringDb.BTree
