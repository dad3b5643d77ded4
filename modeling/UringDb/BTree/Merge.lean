import UringDb.BTree.Edit
import UringDb.BTree.Separator

/-!
# Merging leaves

`mergeNodes` rebuilds the left leaf from the entries of both leaves if an upper bound of the
space they need is not more than a page, and takes the separator between them from the parent.
-/
namespace UringDb.BTree

namespace Node

theorem Ok.heapSpace_shorter {n : Node} (ok : n.Ok) {m : Nat} (shorter : m ≤ n.prefixLen) :
    heapSpace m n.entries = payloadSpace n.slots + (n.prefixLen - m) * n.count := by
  have length : ∀ s : Slot, (n.keyOf s).length = n.prefixLen + s.key.length := fun s => by
    rw [keyOf, List.length_append, ok.length_getPrefix]
  rw [heapSpace, entries, List.map_map, payloadSpace, count]
  induction n.slots with
  | nil => simp
  | cons s slots ih =>
    simp only [List.map_cons, List.sum_cons, List.length_cons, Function.comp_apply, length] at ih ⊢
    rw [ih, Slot.size, Nat.mul_add]
    omega

theorem copyAll {n : Node} (ok : n.Ok) {dst : Node}
    (room : dst.slotEnd + slotSize * n.entries.length + heapSpace dst.prefixLen n.entries ≤
      dst.dataOffset) : n.copyKeyValueRange dst 0 n.count = some (dst.fill n.entries) := by
  have all : (n.entries.drop 0).take n.count = n.entries := by
    rw [List.drop_zero, ← length_entries, List.take_length]
  rw [copyKeyValueRange_eq ok]
  dsimp only
  rw [all, if_pos room]

variable {left right parent : Node} {pid : PID} {slotId : Nat}

/-- Two leaves with a common fence below an inner node that has a separator after them. -/
structure Siblings (parent left right : Node) (slotId : Nat) : Prop where
  parent_ok : parent.Ok
  left_ok : left.Ok
  right_ok : right.Ok
  inner : parent.isLeaf = false
  left_leaf : left.isLeaf = true
  right_leaf : right.isLeaf = true
  inside : slotId + 1 < parent.count
  left_upper : left.upperFence = parent.fullKey slotId
  right_lower : right.lowerFence = parent.fullKey slotId
  right_upper : right.upperFence = parent.fullKey (slotId + 1)

namespace Siblings

variable (pair : Siblings parent left right slotId)

include pair

theorem sep_eq : right.lowerFence = left.upperFence := pair.right_lower.trans pair.left_upper.symm

theorem sep_ne : left.upperFence ≠ [] := by
  have inside := pair.parent_ok.key_inside (fullKey_mem (Nat.lt_of_succ_lt pair.inside))
  rw [pair.left_upper]
  intro empty
  rw [empty] at inside
  exact absurd inside.1 (not_lt.mpr (Lex.nil_le _))

theorem lower_lt_sep : left.lowerFence < left.upperFence :=
  pair.left_ok.content.fences.resolve_left pair.sep_ne

theorem sep_lt_upper : left.upperFence < right.upperFence := by
  rw [pair.left_upper, pair.right_upper]
  exact pair.parent_ok.fullKey_lt (Nat.lt_succ_self slotId) pair.inside

theorem entries_ok : EntriesOk true left.lowerFence right.upperFence (left.entries ++ right.entries) := by
  have leftOk := pair.left_ok.content
  have rightOk := pair.right_ok.content
  rw [pair.sep_eq] at rightOk
  have upTo : ∀ e ∈ left.entries, e.1 ≤ left.upperFence :=
    fun e member => (leftOk.upTo e member).resolve_left pair.sep_ne
  constructor
  case fences => exact .inr (lt_trans pair.lower_lt_sep pair.sep_lt_upper)
  case ascending =>
    rw [List.map_append]
    refine List.pairwise_append.mpr ⟨leftOk.ascending, rightOk.ascending, fun k inLeft k' inRight => ?_⟩
    obtain ⟨e, member, rfl⟩ := List.mem_map.mp inLeft
    obtain ⟨e', member', rfl⟩ := List.mem_map.mp inRight
    exact lt_of_le_of_lt (upTo e member) (rightOk.above e' member')
  case above =>
    intro e member
    rcases List.mem_append.mp member with inLeft | inRight
    · exact leftOk.above e inLeft
    · exact lt_trans pair.lower_lt_sep (rightOk.above e inRight)
  case upTo =>
    intro e member
    rcases List.mem_append.mp member with inLeft | inRight
    · exact .inr (le_of_lt (lt_of_le_of_lt (upTo e inLeft) pair.sep_lt_upper))
    · exact rightOk.upTo e inRight
  case strict => exact fun inner => by cases inner
  case kind =>
    intro e member
    rcases List.mem_append.mp member with inLeft | inRight
    · rw [leftOk.kind e inLeft, pair.left_leaf]
    · rw [rightOk.kind e inRight, pair.right_leaf]

theorem prefix_le : Lex.commonLen left.lowerFence right.upperFence ≤ left.prefixLen ∧
    Lex.commonLen left.lowerFence right.upperFence ≤ right.prefixLen := by
  rw [pair.left_ok.prefixLen, pair.right_ok.prefixLen, pair.sep_eq]
  exact Lex.commonLen_between (le_of_lt pair.lower_lt_sep) (le_of_lt pair.sep_lt_upper)

/-- `spaceUpperBound` counts both leaves with their fences, under the new prefix. -/
theorem heapSpace_both : left.spaceUsed + right.spaceUsed +
      (headerSize + slotSize * (left.count + right.count)) +
      (left.prefixLen - Lex.commonLen left.lowerFence right.upperFence) * left.count +
      (right.prefixLen - Lex.commonLen left.lowerFence right.upperFence) * right.count =
    headerSize + slotSize * (left.entries ++ right.entries).length + left.lowerFence.length +
      left.upperFence.length + (right.lowerFence.length + right.upperFence.length) +
      heapSpace (Lex.commonLen left.lowerFence right.upperFence) (left.entries ++ right.entries) := by
  rw [heapSpace_append, pair.left_ok.heapSpace_shorter pair.prefix_le.1,
    pair.right_ok.heapSpace_shorter pair.prefix_le.2, pair.left_ok.spaceUsed,
    pair.right_ok.spaceUsed, List.length_append, length_entries, length_entries]
  omega

end Siblings

def withoutSeparator (parent : Node) (slotId : Nat) (pid : PID) : Node :=
  (parent.setChild (slotId + 1) pid).removeSlot slotId

/-- What a merge answers: it fails only on fences that do not fit. -/
theorem Siblings.mergeNodes_cases (pair : Siblings parent left right slotId) (pid : PID) :
    (left.mergeNodes pid slotId parent right = none ∧
        pageSize < headerSize + left.lowerFence.length + right.upperFence.length) ∨
      left.mergeNodes pid slotId parent right = some (false, left, parent) ∨
      (left.mergeNodes pid slotId parent right = some (true,
          build true right.link left.lowerFence right.upperFence (left.entries ++ right.entries),
          parent.withoutSeparator slotId pid) ∧
        Fits left.lowerFence right.upperFence (left.entries ++ right.entries)) := by
  have leaf : left.isInner = false := by rw [isInner, pair.left_leaf, Bool.not_true]
  have inner : parent.isInner = true := by rw [isInner, pair.inner, Bool.not_false]
  have space := pair.heapSpace_both
  unfold mergeNodes
  rw [if_neg (by rw [leaf]; exact Bool.false_ne_true), guard_bind, if_pos pair.right_leaf,
    guard_bind, if_pos inner, setFences_new, pair.left_leaf]
  by_cases fences : headerSize + left.lowerFence.length + right.upperFence.length ≤ pageSize
  · rw [if_pos fences, Option.bind_eq_bind, Option.bind_some]
    have prefixLen : (fresh true left.lowerFence right.upperFence).prefixLen =
        Lex.commonLen left.lowerFence right.upperFence := rfl
    dsimp only
    rw [prefixLen, space]
    split
    · exact .inr (.inl rfl)
    next enough =>
      have fits : Fits left.lowerFence right.upperFence (left.entries ++ right.entries) := by
        rw [Fits]
        omega
      refine .inr (.inr ⟨?_, fits⟩)
      rw [Fits, heapSpace_append, List.length_append, Nat.mul_add] at fits
      have slotEnd : (fresh true left.lowerFence right.upperFence).slotEnd = headerSize := rfl
      have offset : (fresh true left.lowerFence right.upperFence).dataOffset =
          pageSize - left.lowerFence.length - right.upperFence.length := rfl
      rw [copyAll pair.left_ok, Option.bind_some, copyAll pair.right_ok, Option.bind_some, fill_fill]
      · rfl
      · rw [slotEnd_fill, slotEnd]
        change _ + heapSpace (Lex.commonLen left.lowerFence right.upperFence) _ ≤
          pageSize - left.lowerFence.length - right.upperFence.length -
            heapSpace (Lex.commonLen left.lowerFence right.upperFence) _
        omega
      · rw [slotEnd, offset, prefixLen]
        omega
  · rw [if_neg fences]
    exact .inl ⟨rfl, Nat.lt_of_not_le fences⟩

theorem Siblings.withoutSeparator_ok (pair : Siblings parent left right slotId) :
    (parent.withoutSeparator slotId pid).Ok := by
  have entry : (parent.fullKey (slotId + 1), parent.getPayload (slotId + 1)) ∈ parent.entries := by
    refine List.mem_map.mpr ⟨parent.slotAt (slotId + 1), ?_, rfl⟩
    exact List.mem_of_getElem? (getElem?_slots pair.inside)
  -- a separator has a page id, so the write does not change the size of the slot
  have kind := pair.parent_ok.content.kind _ entry
  rw [pair.inner] at kind
  have size : (Payload.child pid).size = (parent.getPayload (slotId + 1)).size := by
    cases stored : parent.getPayload (slotId + 1) with
    | data bytes =>
      rw [stored] at kind
      cases kind
    | child other => rfl
  refine (pair.parent_ok.setPayload pair.inside size ?_).removeSlot_ok slotId ?_
  · rw [pair.inner]
    rfl
  · change slotId < (parent.slots.set _ _).length
    rw [List.length_set]
    exact Nat.lt_of_succ_lt pair.inside

theorem withoutSeparator_entries (parent : Node) (slotId : Nat) (pid : PID) :
    (parent.withoutSeparator slotId pid).entries =
      (parent.entries.set (slotId + 1) (parent.fullKey (slotId + 1), .child pid)).eraseIdx slotId := by
  rw [withoutSeparator, removeSlot_entries, setChild, setPayload_entries]

/-- A merge that succeeds leaves one leaf with the entries of both and a parent without the
separator between them; otherwise nothing changes. It always comes to an answer if the outer
fences fit on a page. -/
theorem merge_keeps_content (pair : Siblings parent left right slotId) :
    (headerSize + left.lowerFence.length + right.upperFence.length ≤ pageSize →
        left.mergeNodes (parent.getChild slotId) slotId parent right ≠ none) ∧
      (∀ merged parent',
        left.mergeNodes (parent.getChild slotId) slotId parent right =
          some (true, merged, parent') →
        merged.Ok ∧ merged.isLeaf = true ∧ merged.entries = left.entries ++ right.entries ∧
        merged.lowerFence = left.lowerFence ∧ merged.upperFence = right.upperFence ∧
        merged.link = right.link ∧ merged.hint = (List.range hintCount).map merged.hintAt ∧
        parent'.Ok ∧ SamePlace parent parent' ∧
        parent'.entries = (parent.entries.set (slotId + 1)
          (parent.fullKey (slotId + 1), .child (parent.getChild slotId))).eraseIdx slotId) ∧
      ∀ left' parent',
        left.mergeNodes (parent.getChild slotId) slotId parent right =
          some (false, left', parent') →
        left' = left ∧ parent' = parent := by
  rcases pair.mergeNodes_cases (parent.getChild slotId) with
    ⟨failed, large⟩ | same | ⟨merged, fits⟩
  · rw [failed]
    refine ⟨fun small => absurd small (by omega), ?_, ?_⟩ <;> intro _ _ answer <;> cases answer
  · rw [same]
    refine ⟨fun _ => Option.some_ne_none _, fun _ _ answer => (by cases answer), ?_⟩
    intro left' parent' answer
    cases answer
    exact ⟨rfl, rfl⟩
  · rw [merged]
    refine ⟨fun _ => Option.some_ne_none _, ?_, fun _ _ answer => (by cases answer)⟩
    intro merged parent' answer
    cases answer
    have content := pair.entries_ok
    exact ⟨build_ok content fits (fun inner => by cases inner), rfl, build_entries content.leads, rfl, rfl,
      rfl, rfl, pair.withoutSeparator_ok, ⟨rfl, rfl, rfl, rfl⟩, withoutSeparator_entries _ _ _⟩

/-- Two leaves below a parent with two separators. -/
def leftLeaf : Node := build true (some 4) [] [5] [([3], .data [1])]

def rightLeaf : Node := build true (some 5) [5] [8] [([6], .data [2]), ([8], .data [3])]

def twoLeaves : Node := build false (some 5) [] [] [([5], .child 3), ([8], .child 4)]

theorem twoLeaves_siblings : Siblings twoLeaves leftLeaf rightLeaf 0 where
  parent_ok := by
    refine build_ok ⟨.inl rfl, by decide +kernel, by decide, by decide, by decide, by decide⟩
      (by decide) fun _ => rfl
  left_ok := by
    refine build_ok ⟨.inr (by decide), by decide +kernel, by decide, by decide,
      (fun inner => by cases inner), by decide⟩ (by decide) (fun inner => by cases inner)
  right_ok := by
    refine build_ok ⟨.inr (by decide), by decide +kernel, by decide, by decide,
      (fun inner => by cases inner), by decide⟩ (by decide) (fun inner => by cases inner)
  inner := rfl
  left_leaf := rfl
  right_leaf := rfl
  inside := by decide
  left_upper := rfl
  right_lower := rfl
  right_upper := rfl

theorem merge_keeps_content_two : ∃ merged parent',
    leftLeaf.mergeNodes 3 0 twoLeaves rightLeaf = some (true, merged, parent') ∧
      merged.entries = leftLeaf.entries ++ rightLeaf.entries := by
  obtain ⟨-, kept, -⟩ := merge_keeps_content twoLeaves_siblings
  exact ⟨_, _, rfl, (kept _ _ rfl).2.2.1⟩

end Node

end UringDb.BTree
