import UringDb.BTree.Build
import UringDb.BTree.Hints

/-!
# Changing a page

`removeSlot` and the payload writes, each with what it does to the entries of the page.
-/
namespace UringDb.BTree

/-! ### Entries -/

namespace EntriesOk

variable {isLeaf : Bool} {lower upper : Key} {l l' : List (Key × Payload)}

theorem sublist (ok : EntriesOk isLeaf lower upper l) (part : l'.Sublist l) :
    EntriesOk isLeaf lower upper l' where
  fences := ok.fences
  ascending := ok.ascending.sublist (part.map _)
  above e member := ok.above e (part.subset member)
  upTo e member := ok.upTo e (part.subset member)
  strict inner e member := ok.strict inner e (part.subset member)
  kind e member := ok.kind e (part.subset member)

theorem congr_keys (ok : EntriesOk isLeaf lower upper l) (keys : l'.map Prod.fst = l.map Prod.fst)
    (kind : ∀ e ∈ l', e.2.isData = isLeaf) : EntriesOk isLeaf lower upper l' := by
  have member : ∀ e ∈ l', ∃ e' ∈ l, e'.1 = e.1 := by
    intro e member
    exact List.mem_map.mp (keys ▸ List.mem_map_of_mem member)
  refine ⟨ok.fences, keys ▸ ok.ascending, ?_, ?_, ?_, kind⟩
  · intro e inside
    obtain ⟨e', inside', same⟩ := member e inside
    exact same ▸ ok.above e' inside'
  · intro e inside
    obtain ⟨e', inside', same⟩ := member e inside
    exact same ▸ ok.upTo e' inside'
  · intro inner e inside
    obtain ⟨e', inside', same⟩ := member e inside
    exact same ▸ ok.strict inner e' inside'

end EntriesOk

namespace Node

structure SamePlace (n n' : Node) : Prop where
  isLeaf : n'.isLeaf = n.isLeaf
  link : n'.link = n.link
  lowerFence : n'.lowerFence = n.lowerFence
  upperFence : n'.upperFence = n.upperFence

variable {n : Node}

/-! ### Removal -/

theorem Packed.removeSlot (packed : n.Packed) {i : Nat} (inside : i < n.count) :
    (n.removeSlot i).Packed := by
  have part : (n.slots.eraseIdx i).Sublist n.slots := List.eraseIdx_sublist _ _
  have size : payloadSpace n.slots = (n.slotAt i).size + payloadSpace (n.slots.eraseIdx i) := by
    have split := (List.getElem_cons_eraseIdx_perm inside).symm.map Slot.size
    rw [payloadSpace, split.sum_eq, List.map_cons, List.sum_cons, payloadSpace, slotAt,
      List.getD_eq_getElem _ _ inside]
  have used := packed.spaceUsed
  refine ⟨packed.prefixLen, packed.ascending.sublist (part.map _), ?_, ?_, fun _ => rfl⟩
  · exact fun s member => packed.heads s (part.subset member)
  · change n.spaceUsed - (n.slotAt i).size = n.lowerFence.length + n.upperFence.length +
      payloadSpace (n.slots.eraseIdx i)
    omega

theorem Ok.removeSlot_ok (ok : n.Ok) (i : Nat) (inside : i < n.count) : (n.removeSlot i).Ok := by
  have part : (n.slots.eraseIdx i).Sublist n.slots := List.eraseIdx_sublist _ _
  have entries : (n.removeSlot i).entries.Sublist n.entries := part.map _
  have heap := ok.heap
  refine (ok.packed.removeSlot inside).ok (ok.content.sublist entries) ok.linked ?_ ?_
  · change n.dataOffset + (n.spaceUsed - (n.slotAt i).size) ≤ pageSize
    omega
  · refine le_trans ?_ ok.room
    exact Nat.add_le_add_left (Nat.mul_le_mul_left _ part.length_le) _

theorem removeSlot_entries (n : Node) (i : Nat) :
    (n.removeSlot i).entries = n.entries.eraseIdx i := by
  rw [entries, entries, List.eraseIdx_map]
  rfl

/-! ### Writing a payload -/

theorem set_eq_self {α : Type} {l : List α} {i : Nat} {x : α} (stored : l[i]? = some x) :
    l.set i x = l := by
  obtain ⟨inside, rfl⟩ := List.getElem?_eq_some_iff.mp stored
  exact List.set_getElem_self inside

theorem getElem?_slots {i : Nat} (inside : i < n.count) : n.slots[i]? = some (n.slotAt i) := by
  rw [List.getElem?_eq_getElem inside, slotAt, List.getD_eq_getElem _ _ inside]

theorem setPayload_entries (n : Node) (i : Nat) (p : Payload) :
    (n.setPayload i p).entries = n.entries.set i (n.fullKey i, p) := by
  change (n.slots.set i _).map (fun s => (n.keyOf s, s.payload)) = _
  rw [List.map_set]
  rfl

theorem setPayload_keys (n : Node) (i : Nat) (p : Payload) : (n.setPayload i p).keys = n.keys := by
  change (n.slots.set i _).map n.keyOf = n.slots.map n.keyOf
  rw [List.map_set]
  by_cases inside : i < n.count
  · apply set_eq_self
    rw [List.getElem?_map, getElem?_slots inside]
    rfl
  · exact List.set_eq_of_length_le (by rw [List.length_map]; exact Nat.le_of_not_lt inside)

theorem Ok.setPayload (ok : n.Ok) {i : Nat} (inside : i < n.count) {p : Payload}
    (size : p.size = (n.getPayload i).size) (kind : p.isData = n.isLeaf) :
    (n.setPayload i p).Ok := by
  have stored := getElem?_slots inside
  have length : (n.setPayload i p).count = n.count := List.length_set
  have slotHead : ∀ j, ((n.setPayload i p).slotAt j).head = (n.slotAt j).head := by
    intro j
    change ((n.slots.set i _).getD j default).head = (n.slots.getD j default).head
    rw [List.getD_eq_getElem?_getD, List.getD_eq_getElem?_getD]
    by_cases same : i = j
    · subst same
      rw [List.getElem?_set_self inside, stored]
      rfl
    · rw [List.getElem?_set_ne same]
  constructor
  case prefixLen => exact ok.prefixLen
  case heads =>
    intro s member
    rcases List.mem_or_eq_of_mem_set member with member | rfl
    · exact ok.heads s member
    · exact ok.heads (n.slotAt i) (List.mem_of_getElem? stored)
  case content =>
    refine ok.content.congr_keys ?_ ?_
    · rw [map_fst_entries, map_fst_entries, setPayload_keys]
    · intro e member
      rw [setPayload_entries] at member
      rcases List.mem_or_eq_of_mem_set member with member | rfl
      · exact ok.content.kind e member
      · exact kind
  case linked => exact ok.linked
  case spaceUsed =>
    refine ok.spaceUsed.trans ?_
    change _ = _ + ((n.slots.set i _).map Slot.size).sum
    rw [List.map_set, set_eq_self]
    · rfl
    · rw [List.getElem?_map, stored, Option.map_some, Slot.size, Slot.size, size, getPayload]
  case heap => exact ok.heap
  case room =>
    rw [slotEnd, length]
    exact ok.room
  case hints =>
    intro many
    rw [length] at many
    refine (ok.hints many).trans (List.map_congr_left fun j _ => ?_)
    rw [hintAt, hintAt, slotHead, length]

end Node

end UringDb.BTree
