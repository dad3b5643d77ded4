import UringDb.BTree.Search
import UringDb.Lib.Guard

/-!
# Pages built by copying

`compactify`, `splitNode` and `mergeNodes` all build pages the same way: fences first, then
entries of other pages, which may have been stored under another prefix. `build` is the page
that results, and it is well formed whenever its entries are in order, inside the fences, and
fit.
-/
namespace UringDb.BTree

/-- The slot that stores an entry on a page whose prefix has length `m`. -/
def slotFor (m : Nat) (e : Key × Payload) : Slot := ⟨e.1.drop m, e.2, head (e.1.drop m)⟩

namespace Node

/-- The heap space entries take on a page whose prefix has length `m`. -/
def heapSpace (m : Nat) (l : List (Key × Payload)) : Nat :=
  (l.map fun e => e.1.length - m + e.2.size).sum

/-- An empty page with fences. -/
def fresh (isLeaf : Bool) (lower upper : Key) : Node :=
  { new isLeaf with
    lowerFence := lower, upperFence := upper
    spaceUsed := lower.length + upper.length
    dataOffset := pageSize - lower.length - upper.length
    prefixLen := Lex.commonLen lower upper }

/-- Entries appended to a page. -/
def fill (n : Node) (l : List (Key × Payload)) : Node :=
  { n with
    slots := n.slots ++ l.map (slotFor n.prefixLen)
    spaceUsed := n.spaceUsed + heapSpace n.prefixLen l
    dataOffset := n.dataOffset - heapSpace n.prefixLen l }

/-- The page with given fences and entries. -/
def build (isLeaf : Bool) (link : Option PID) (lower upper : Key) (l : List (Key × Payload)) :
    Node :=
  { ((fresh isLeaf lower upper).fill l).makeHint with link := link }

/-- The entries and fences of a page fit on it. -/
def Fits (lower upper : Key) (l : List (Key × Payload)) : Prop :=
  headerSize + slotSize * l.length + lower.length + upper.length +
    heapSpace (Lex.commonLen lower upper) l ≤ pageSize

instance (lower upper : Key) (l : List (Key × Payload)) : Decidable (Fits lower upper l) :=
  inferInstanceAs (Decidable (_ ≤ _))

theorem heapSpace_append (m : Nat) (l l' : List (Key × Payload)) :
    heapSpace m (l ++ l') = heapSpace m l + heapSpace m l' := by
  rw [heapSpace, List.map_append, List.sum_append, heapSpace, heapSpace]

theorem payloadSpace_map_slotFor (m : Nat) (l : List (Key × Payload)) :
    payloadSpace (l.map (slotFor m)) = heapSpace m l := by
  rw [payloadSpace, heapSpace, List.map_map]
  congr 1
  exact List.map_congr_left fun e _ => by
    rw [Function.comp_apply, Slot.size, slotFor, List.length_drop]

/-! ### Copying -/

theorem insertFence_eq (n : Node) (key : Key) :
    n.insertFence key = if key.length ≤ n.freeSpace then
      some { n with dataOffset := n.dataOffset - key.length, spaceUsed := n.spaceUsed + key.length }
      else none := guard_bind _ _

theorem setFences_new (isLeaf : Bool) (lower upper : Key) :
    (new isLeaf).setFences lower upper =
      if headerSize + lower.length + upper.length ≤ pageSize then some (fresh isLeaf lower upper)
      else none := by
  have header : headerSize = 96 := rfl
  have page : pageSize = 4096 := rfl
  have free : (new isLeaf).freeSpace = 4000 := rfl
  unfold setFences
  rw [insertFence_eq, free]
  by_cases first : lower.length ≤ 4000
  · rw [if_pos first, Option.bind_eq_bind, Option.bind_some, insertFence_eq]
    have left : Node.freeSpace { new isLeaf with
        dataOffset := (new isLeaf).dataOffset - lower.length
        spaceUsed := (new isLeaf).spaceUsed + lower.length } = 4000 - lower.length := by
      change 4096 - lower.length - 96 = _
      omega
    rw [left]
    by_cases second : upper.length ≤ 4000 - lower.length
    · rw [if_pos second, if_pos (by omega), Option.bind_some, fresh]
      simp only [new, Nat.zero_add]
    · rw [if_neg second, if_neg (by omega)]
      rfl
  · rw [if_neg first, if_neg (by omega)]
    rfl

theorem place_eq (n : Node) (slotId : Nat) (key : Key) (payload : Payload) :
    n.place slotId key payload = if key.length + payload.size ≤ n.dataOffset then
      some { n with
        slots := n.slots.insertIdx slotId ⟨key, payload, head key⟩
        dataOffset := n.dataOffset - (key.length + payload.size)
        spaceUsed := n.spaceUsed + (key.length + payload.size) }
      else none := guard_bind _ _

theorem place_count (n : Node) (e : Key × Payload) :
    n.place n.count (e.1.drop n.prefixLen) e.2 =
      if heapSpace n.prefixLen [e] ≤ n.dataOffset then some (n.fill [e]) else none := by
  have space : heapSpace n.prefixLen [e] = (e.1.drop n.prefixLen).length + e.2.size := by
    rw [heapSpace, List.map_singleton, List.sum_singleton, List.length_drop]
  rw [place_eq, fill, space, count, List.insertIdx_length_self]
  rfl

theorem copySlot_cases {n : Node} (ok : n.Ok) (dst : Node) (s : Slot) :
    n.copySlot dst s = none ∧ dst.dataOffset < headerSize + slotSize * dst.count +
        heapSpace dst.prefixLen [(n.keyOf s, s.payload)] ∨
      n.copySlot dst s = some (dst.fill [(n.keyOf s, s.payload)]) ∧
        heapSpace dst.prefixLen [(n.keyOf s, s.payload)] ≤ dst.dataOffset := by
  have placed := dst.place_count (n.keyOf s, s.payload)
  unfold copySlot
  split
  next grows =>
    -- the source drops only what the prefix has grown by
    have dropped : s.key.drop (dst.prefixLen - n.prefixLen) = (n.keyOf s).drop dst.prefixLen := by
      have gone : n.getPrefix.drop dst.prefixLen = [] :=
        List.drop_eq_nil_of_le (ok.length_getPrefix ▸ grows)
      rw [keyOf, List.drop_append, ok.length_getPrefix, gone, List.nil_append]
    rw [dropped, placed]
    by_cases enough : heapSpace dst.prefixLen [(n.keyOf s, s.payload)] ≤ dst.dataOffset
    · exact Or.inr ⟨if_pos enough, enough⟩
    · exact Or.inl ⟨if_neg enough, by omega⟩
  next =>
    rw [storeKeyValue, ← keyOf, placed]
    by_cases enough : heapSpace dst.prefixLen [(n.keyOf s, s.payload)] ≤ dst.dataOffset
    · rw [if_pos enough, Option.bind_eq_bind, Option.bind_some, guard_bind]
      by_cases above : headerSize + slotSize * dst.count ≤
          (dst.fill [(n.keyOf s, s.payload)]).dataOffset
      · exact Or.inr ⟨if_pos above, enough⟩
      · refine Or.inl ⟨if_neg above, ?_⟩
        rw [fill] at above
        dsimp only at above
        omega
    · exact Or.inl ⟨by rw [if_neg enough]; rfl, by omega⟩

theorem fill_nil (n : Node) : n.fill [] = n := by
  simp only [fill, List.map_nil, List.append_nil, heapSpace, List.sum_nil, Nat.add_zero,
    Nat.sub_zero]

theorem fill_fill (n : Node) (l l' : List (Key × Payload)) :
    (n.fill l).fill l' = n.fill (l ++ l') := by
  simp only [fill, List.map_append, List.append_assoc, heapSpace_append, Nat.add_assoc,
    Nat.sub_sub]

theorem slotEnd_fill (n : Node) (l : List (Key × Payload)) :
    (n.fill l).slotEnd = n.slotEnd + slotSize * l.length := by
  simp only [slotEnd, count, fill, List.length_append, List.length_map]
  rw [Nat.mul_add, Nat.add_assoc]

theorem copySlots_eq {n : Node} (ok : n.Ok) (dst : Node) (slots : List Slot) :
    (slots.foldlM n.copySlot dst >>= fun dst => do
        guard (dst.slotEnd ≤ dst.dataOffset)
        some dst) =
      let l := slots.map fun s => (n.keyOf s, s.payload)
      if dst.slotEnd + slotSize * l.length + heapSpace dst.prefixLen l ≤ dst.dataOffset
      then some (dst.fill l) else none := by
  dsimp only
  induction slots generalizing dst with
  | nil =>
    rw [List.foldlM_nil, List.map_nil, fill_nil]
    simp only [heapSpace, List.map_nil, List.sum_nil, List.length_nil, Nat.mul_zero, Nat.add_zero]
    exact guard_bind _ _
  | cons s slots ih =>
    have space := heapSpace_append dst.prefixLen [(n.keyOf s, s.payload)]
      (slots.map fun s => (n.keyOf s, s.payload))
    rw [List.singleton_append] at space
    rw [List.foldlM_cons, List.map_cons, space, List.length_cons, List.length_map]
    have slotEnd : dst.slotEnd = headerSize + slotSize * dst.count := rfl
    rcases copySlot_cases ok dst s with ⟨failed, short⟩ | ⟨copied, enough⟩
    · rw [failed, if_neg (by omega)]
      rfl
    · have rest := ih (dst.fill [(n.keyOf s, s.payload)])
      rw [slotEnd_fill, fill_fill, List.singleton_append, List.length_map] at rest
      rw [copied, Option.bind_eq_bind, Option.bind_some, ← Option.bind_eq_bind, rest]
      have offset : (dst.fill [(n.keyOf s, s.payload)]).dataOffset =
          dst.dataOffset - heapSpace dst.prefixLen [(n.keyOf s, s.payload)] := rfl
      have prefixSame : (dst.fill [(n.keyOf s, s.payload)]).prefixLen = dst.prefixLen := rfl
      have slot : slotSize * (slots.length + 1) = slotSize * slots.length + slotSize * 1 :=
        Nat.mul_add _ _ _
      rw [offset, prefixSame, List.length_singleton, slot]
      congr 1
      rw [eq_iff_iff]
      omega

/-- What `copyKeyValueRange` does to the destination, whichever prefix is longer. -/
theorem copyKeyValueRange_eq {n : Node} (ok : n.Ok) (dst : Node) (srcSlot srcCount : Nat) :
    n.copyKeyValueRange dst srcSlot srcCount =
      let l := (n.entries.drop srcSlot).take srcCount
      if dst.slotEnd + slotSize * l.length + heapSpace dst.prefixLen l ≤ dst.dataOffset
      then some (dst.fill l) else none := by
  have copied := copySlots_eq ok dst ((n.slots.drop srcSlot).take srcCount)
  rw [List.map_take, List.map_drop] at copied
  exact copied

end Node

/-! ### The prefix of a page -/

/-- What two fences have in common, every key between them starts with. -/
theorem fencePrefix_leads {lower upper k : Key} (above : lower < k) (upTo : UpTo upper k) :
    lower.take (Lex.commonLen lower upper) <+: k := by
  rcases upTo with rfl | upTo
  · rw [Lex.commonLen_comm, Lex.commonLen.eq_def]
    exact List.nil_prefix
  · refine Lex.leads_of_between (List.take_prefix _ _) ?_ (le_of_lt above) upTo
    rw [Lex.take_commonLen]
    exact List.take_prefix _ _

variable {isLeaf : Bool} {lower upper : Key} {l : List (Key × Payload)} {link : Option PID}

theorem fencePrefix_append_drop {k : Key} (leads : lower.take (Lex.commonLen lower upper) <+: k) :
    lower.take (Lex.commonLen lower upper) ++ k.drop (Lex.commonLen lower upper) = k := by
  obtain ⟨t, rfl⟩ := leads
  have length : (lower.take (Lex.commonLen lower upper)).length = Lex.commonLen lower upper := by
    rw [List.length_take, Nat.min_eq_left (Lex.commonLen_le_left _ _)]
  rw [List.drop_left' length]

theorem EntriesOk.leads (content : EntriesOk isLeaf lower upper l) :
    ∀ e ∈ l, lower.take (Lex.commonLen lower upper) <+: e.1 :=
  fun e member => fencePrefix_leads (content.above e member) (content.upTo e member)

namespace Node

theorem build_entries (leads : ∀ e ∈ l, lower.take (Lex.commonLen lower upper) <+: e.1) :
    (build isLeaf link lower upper l).entries = l := by
  change (([] ++ l.map (slotFor _)).map fun s : Slot => (_, s.payload)) = l
  rw [List.nil_append, List.map_map]
  conv => rhs; rw [← List.map_id l]
  apply List.map_congr_left
  intro e member
  exact Prod.ext (fencePrefix_append_drop (leads e member)) rfl

theorem build_packed (leads : ∀ e ∈ l, lower.take (Lex.commonLen lower upper) <+: e.1)
    (ascending : Ascending (l.map Prod.fst)) : (build isLeaf link lower upper l).Packed where
  prefixLen := rfl
  ascending := by
    rw [← map_fst_entries, build_entries leads]
    exact ascending
  heads := by
    intro s member
    obtain ⟨e, -, rfl⟩ := List.mem_map.mp member
    rfl
  spaceUsed := by
    change lower.length + upper.length + _ = lower.length + upper.length + payloadSpace ([] ++ _)
    rw [List.nil_append, payloadSpace_map_slotFor]
  hints _ := rfl

theorem build_ok (content : EntriesOk isLeaf lower upper l) (fits : Fits lower upper l)
    (linked : isLeaf = false → link.isSome) : (build isLeaf link lower upper l).Ok := by
  refine (build_packed content.leads content.ascending).ok ?_ linked ?_ ?_
  · rw [build_entries content.leads]
    exact content
  · change pageSize - lower.length - upper.length - heapSpace (Lex.commonLen lower upper) l +
      (lower.length + upper.length + heapSpace (Lex.commonLen lower upper) l) ≤ pageSize
    rw [Fits] at fits
    omega
  · change headerSize + slotSize * ([] ++ l.map (slotFor _)).length ≤
      pageSize - lower.length - upper.length - heapSpace (Lex.commonLen lower upper) l
    rw [List.nil_append, List.length_map]
    rw [Fits] at fits
    omega

end Node

end UringDb.BTree
