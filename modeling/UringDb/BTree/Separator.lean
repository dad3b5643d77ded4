import UringDb.BTree.Build

/-!
# Separators

The key that `findSeparator` and `getSep` choose for a split. In a leaf it is the key of the slot
to split after, or the shortest start of the next key that is still above it.
-/
namespace UringDb.BTree

theorem advance_le (p : Nat → Bool) (fuel i : Nat) : advance p fuel i ≤ i + fuel := by
  induction fuel generalizing i with
  | zero => exact Nat.le_refl i
  | succ fuel ih =>
    rw [advance]
    split
    · have further := ih (i + 1)
      omega
    · omega

namespace Node

variable {n : Node}

/-! ### Keys by position -/

theorem fullKey_eq {i : Nat} (inside : i < n.count) :
    ∃ h : i < n.keys.length, n.keys[i] = n.fullKey i := by
  refine ⟨n.length_keys ▸ inside, ?_⟩
  simp only [keys, List.getElem_map, keyOf, fullKey, slotAt, List.getD_eq_getElem _ _ inside]
  rfl

theorem fullKey_mem {i : Nat} (inside : i < n.count) : n.fullKey i ∈ n.keys := by
  obtain ⟨h, same⟩ := fullKey_eq inside
  rw [← same]
  exact List.getElem_mem h

theorem Ok.fullKey_lt (ok : n.Ok) {i j : Nat} (before : i < j) (inside : j < n.count) :
    n.fullKey i < n.fullKey j := by
  obtain ⟨hi, atI⟩ := fullKey_eq (n := n) (lt_trans before inside)
  obtain ⟨hj, atJ⟩ := fullKey_eq inside
  rw [← atI, ← atJ]
  exact List.pairwise_iff_getElem.mp ok.searchable.ascending i j hi hj before

theorem Ok.key_inside (ok : n.Ok) {k : Key} (member : k ∈ n.keys) :
    n.lowerFence < k ∧ UpTo n.upperFence k := by
  rw [← map_fst_entries] at member
  obtain ⟨e, entry, rfl⟩ := List.mem_map.mp member
  exact ⟨ok.content.above e entry, ok.content.upTo e entry⟩

theorem Ok.length_fullKey (ok : n.Ok) (i : Nat) :
    (n.fullKey i).length = n.prefixLen + (n.slotAt i).key.length := by
  rw [fullKey, List.length_append, ok.length_getPrefix]

/-! ### Leaves -/

theorem separatorSlot_lt (many : 1 < n.count) (splitOrdered : Bool) :
    n.separatorSlot splitOrdered + 1 < n.count := by
  unfold separatorSlot
  split
  · omega
  split
  next more =>
    dsimp only
    split
    · have far := advance_le (fun slotId => n.commonPrefix slotId 0 =
        n.commonPrefix (n.count / 2 - n.count / 16) 0)
        (n.count / 2 - (n.count / 2 - n.count / 16 + 1)) (n.count / 2 - n.count / 16 + 1)
      omega
    · omega
  · omega

/-- A separator between the keys of a slot and of the next one, inside the fences. -/
structure Separates (n : Node) (info : SeparatorInfo) : Prop where
  inside : info.slot + 1 < n.count
  length : (n.getSep info).length = info.len
  left : n.fullKey info.slot ≤ n.getSep info
  right : n.getSep info < n.fullKey (info.slot + 1)
  above : n.lowerFence < n.getSep info
  below : n.upperFence ≠ [] → n.getSep info < n.upperFence

theorem Ok.separates (ok : n.Ok) {info : SeparatorInfo} (inside : info.slot + 1 < n.count)
    (length : (n.getSep info).length = info.len) (left : n.fullKey info.slot ≤ n.getSep info)
    (right : n.getSep info < n.fullKey (info.slot + 1)) : n.Separates info := by
  have lower := ok.key_inside (fullKey_mem (Nat.lt_of_succ_lt inside))
  have upper := ok.key_inside (fullKey_mem inside)
  refine ⟨inside, length, left, right, lt_of_lt_of_le lower.1 left, fun bounded => ?_⟩
  exact lt_of_lt_of_le right (upper.2.resolve_left bounded)

theorem Ok.truncated_separates (ok : n.Ok) {i : Nat} (inside : i + 1 < n.count)
    (differ : n.commonPrefix i (i + 1) < (n.slotAt i).key.length)
    (longer : n.commonPrefix i (i + 1) + 1 < (n.slotAt (i + 1)).key.length) :
    n.Separates ⟨n.prefixLen + n.commonPrefix i (i + 1) + 1, i, true⟩ := by
  have sep : n.getSep ⟨n.prefixLen + n.commonPrefix i (i + 1) + 1, i, true⟩ =
      n.getPrefix ++ (n.slotAt (i + 1)).key.take (n.commonPrefix i (i + 1) + 1) := by
    rw [getSep, if_pos rfl, Nat.add_assoc, Nat.add_sub_cancel_left]
  have ascends : (n.slotAt i).key < (n.slotAt (i + 1)).key :=
    (Lex.append_lt_append_iff _ _ _).mp (ok.fullKey_lt (Nat.lt_succ_self i) inside)
  refine ok.separates inside ?_ ?_ ?_
  · rw [sep, List.length_append, ok.length_getPrefix, List.length_take,
      Nat.min_eq_left (Nat.le_of_lt longer), Nat.add_assoc]
  · rw [sep]
    apply le_of_lt
    exact (Lex.append_lt_append_iff _ _ _).mpr (Lex.lt_take_commonLen_succ ascends differ)
  · rw [sep]
    exact (Lex.append_lt_append_iff _ _ _).mpr (Lex.take_lt longer)

theorem getSep_whole (n : Node) (i : Nat) :
    n.getSep ⟨n.prefixLen + (n.slotAt i).key.length, i, false⟩ = n.fullKey i := by
  rw [getSep, if_neg Bool.false_ne_true, Nat.add_zero, Nat.add_sub_cancel_left, List.take_length]
  rfl

theorem Ok.whole_separates (ok : n.Ok) {i : Nat} (inside : i + 1 < n.count) :
    n.Separates ⟨n.prefixLen + (n.slotAt i).key.length, i, false⟩ := by
  have sep := n.getSep_whole i
  refine ok.separates inside ?_ ?_ ?_
  · rw [sep, ok.length_fullKey]
  · rw [sep]
  · rw [sep]
    exact ok.fullKey_lt (Nat.lt_succ_self i) inside

theorem Ok.findSeparator_leaf (ok : n.Ok) (leaf : n.isLeaf = true) (many : 1 < n.count)
    (splitOrdered : Bool) :
    ∃ info, n.findSeparator splitOrdered = some info ∧ n.Separates info := by
  have inside := separatorSlot_lt many splitOrdered
  have notInner : n.isInner = false := by rw [isInner, leaf, Bool.not_true]
  unfold findSeparator
  rw [guard_bind, if_pos many, if_neg (by rw [notInner]; exact Bool.false_ne_true)]
  dsimp only
  split
  next cut => exact ⟨_, rfl, ok.truncated_separates inside cut.2.1 cut.2.2⟩
  next => exact ⟨_, rfl, ok.whole_separates inside⟩

/-- The separator of a leaf separates its keys and lies strictly inside its fences. -/
theorem leaf_separator (ok : n.Ok) (leaf : n.isLeaf = true) (many : 1 < n.count)
    (splitOrdered : Bool) :
    ∃ info, n.findSeparator splitOrdered = some info ∧ info.slot + 1 < n.count ∧
      (n.getSep info).length = info.len ∧ n.fullKey info.slot ≤ n.getSep info ∧
      n.getSep info < n.fullKey (info.slot + 1) ∧ n.lowerFence < n.getSep info ∧
      (n.upperFence ≠ [] → n.getSep info < n.upperFence) := by
  obtain ⟨info, found, sep⟩ := ok.findSeparator_leaf leaf many splitOrdered
  exact ⟨info, found, sep.inside, sep.length, sep.left, sep.right, sep.above, sep.below⟩

def pairLeaf : Node :=
  build true none [7] [7, 9] [([7, 1, 5], .data []), ([7, 2, 5, 5], .data [])]

theorem pairLeaf_ok : pairLeaf.Ok := by
  refine build_ok ⟨.inr (by decide), by decide +kernel, ?_, ?_, (fun inner => by cases inner), ?_⟩
    (by decide) (fun inner => by cases inner)
  all_goals decide

theorem leaf_separator_pair : ∃ info, pairLeaf.findSeparator true = some info ∧
    info.slot + 1 < pairLeaf.count ∧ pairLeaf.fullKey info.slot ≤ pairLeaf.getSep info := by
  obtain ⟨info, found, inside, -, left, -⟩ := leaf_separator pairLeaf_ok rfl (by decide) true
  exact ⟨info, found, inside, left⟩

end Node

end UringDb.BTree
