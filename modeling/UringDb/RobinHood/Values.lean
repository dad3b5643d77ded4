import UringDb.RobinHood.Session

/-!
# Values of the robin-hood map

`find` returns a pointer, and callers change the value behind it. What the users of the table need
to know is said here by `find` alone: what it answers after an insertion, an erasure and such a
write. The occupied slots are the entries of the map, each once.
-/
namespace UringDb.RobinHood.RHBSU64Map

variable {V : Type} {hash : UInt64 → UInt64} {m t : RHBSU64Map V} {i j : Nat} {k : UInt64} {v : V}

/-- Change the value of an occupied slot. -/
def write (m : RHBSU64Map V) (i : Nat) (v : V) : RHBSU64Map V :=
  m.put i { m.entries i with val := v } (m.ctrl i)

def slots (m : RHBSU64Map V) : List Nat := (List.range m.n).filter fun i => m.ctrl i ≠ 0

/-- A table between two calls. -/
def Ordered (hash : UInt64 → UInt64) (m : RHBSU64Map V) : Prop := ∃ f, Represents hash m f

theorem mem_slots : i ∈ m.slots ↔ i < m.n ∧ m.ctrl i ≠ 0 := by
  simp [slots]

theorem ordered_new [Inhabited V] (bits : Nat) : Ordered hash (new bits : RHBSU64Map V) :=
  ⟨∅, represents_new hash bits⟩

theorem find_new [Inhabited V] (bits : Nat) : (new bits : RHBSU64Map V).find hash k = none := by
  rw [(represents_new hash bits).find_eq, Finmap.lookup_empty]

theorem Ordered.stored_iff (ordered : Ordered hash m) :
    Stored m ⟨k, v⟩ ↔ m.find hash k = some v := by
  obtain ⟨f, rep⟩ := ordered
  rw [rep.stored, rep.find_eq]

theorem Ordered.find_slot (ordered : Ordered hash m) (occupied : i ∈ m.slots) :
    m.find hash (m.entries i).key = some (m.entries i).val :=
  ordered.stored_iff.mp ⟨i, (mem_slots.mp occupied).1, (mem_slots.mp occupied).2, rfl⟩

theorem Ordered.slot_of_find (ordered : Ordered hash m) (found : m.find hash k = some v) :
    ∃ i ∈ m.slots, m.entries i = ⟨k, v⟩ := by
  obtain ⟨i, inside, taken, same⟩ := ordered.stored_iff.mpr found
  exact ⟨i, mem_slots.mpr ⟨inside, taken⟩, same⟩

theorem Ordered.slotOf (ordered : Ordered hash m) (found : m.slotOf hash k = some i) :
    i ∈ m.slots ∧ (m.entries i).key = k := by
  obtain ⟨f, rep⟩ := ordered
  have proper : k ≠ emptyKey := by
    rintro rfl
    cases found
  obtain ⟨inside, taken, same⟩ := (rep.sound.slotOf_eq_some_iff proper).mp found
  exact ⟨mem_slots.mpr ⟨inside, taken⟩, same⟩

theorem Ordered.slot_unique (ordered : Ordered hash m) (mine : i ∈ m.slots) (other : j ∈ m.slots)
    (same : (m.entries i).key = (m.entries j).key) : i = j := by
  obtain ⟨f, rep⟩ := ordered
  exact rep.sound.unique i (mem_slots.mp mine).1 j (mem_slots.mp other).1 (mem_slots.mp mine).2
    (mem_slots.mp other).2 same

theorem Ordered.length_slots (ordered : Ordered hash m) : m.slots.length = m.sz := by
  have unique : ∀ i ∈ m.slots, ∀ j ∈ m.slots, (m.entries i).key = (m.entries j).key → i = j :=
    fun _ mine _ other => ordered.slot_unique mine other
  obtain ⟨f, rep⟩ := ordered
  have distinct : (m.slots.map fun i => (m.entries i).key).Nodup :=
    List.Nodup.map_on unique (List.nodup_range.filter _)
  have keys : (m.slots.map fun i => (m.entries i).key).toFinset = f.keys := by
    ext k
    rw [List.mem_toFinset, List.mem_map, Finmap.mem_keys]
    constructor
    · rintro ⟨i, occupied, rfl⟩
      have found := (Ordered.find_slot ⟨f, rep⟩ occupied)
      rw [rep.find_eq] at found
      exact Finmap.mem_of_lookup_eq_some found
    · intro member
      obtain ⟨i, inside, taken, same⟩ := rep.slot member
      exact ⟨i, mem_slots.mpr ⟨inside, taken⟩, same⟩
  rw [rep.size, ← keys, List.toFinset_card_of_nodup distinct, List.length_map]

/-! ### The three changes -/

theorem Ordered.insert (ordered : Ordered hash m)
    (inserted : m.insert hash k v = some (.inserted, t)) :
    Ordered hash t ∧ t.bits = m.bits ∧ t.sz = m.sz + 1 ∧ m.find hash k = none ∧
      t.find hash = Function.update (m.find hash) k (some v) := by
  obtain ⟨f, rep⟩ := ordered
  have proper : k ≠ emptyKey := by
    rintro rfl
    rw [RHBSU64Map.insert, if_pos rfl] at inserted
    cases inserted
  obtain ⟨out, t', done, bits, overflow | ⟨answer, rep'⟩⟩ := rep.insert proper v
  · rw [overflow, inserted] at done
    cases done
  · rw [inserted] at done
    cases done
    have absent : k ∉ f := of_decide_eq_true (Answer.bool.inj answer).symm
    refine ⟨⟨_, rep'⟩, bits, ?_, ?_, ?_⟩
    · rw [rep'.size, rep.size, card_insert absent]
    · rw [rep.find_eq, Finmap.lookup_eq_none.mpr absent]
    · funext q
      rw [rep'.find_eq]
      by_cases same : q = k
      · subst same
        rw [Finmap.lookup_insert, Function.update_self]
      · rw [Finmap.lookup_insert_of_ne _ same, Function.update_of_ne same, rep.find_eq]

theorem Ordered.erase (ordered : Ordered hash m) (found : m.find hash k = some v) :
    ∃ t, m.erase hash k = some (true, t) ∧ Ordered hash t ∧ t.bits = m.bits ∧ t.sz + 1 = m.sz ∧
      t.find hash = Function.update (m.find hash) k none := by
  obtain ⟨f, rep⟩ := ordered
  have member : k ∈ f := by
    rw [rep.find_eq] at found
    exact Finmap.mem_of_lookup_eq_some found
  have proper : k ≠ emptyKey := by
    rintro rfl
    exact rep.clear member
  obtain ⟨t, done, bits, rep'⟩ := rep.erase proper
  rw [decide_eq_true member] at done
  refine ⟨t, done, ⟨_, rep'⟩, bits, ?_, ?_⟩
  · rw [rep'.size, rep.size, Finmap.keys_erase]
    exact Finset.card_erase_add_one (Finmap.mem_keys.mpr member)
  · funext q
    rw [rep'.find_eq]
    by_cases same : q = k
    · subst same
      rw [Finmap.lookup_erase, Function.update_self]
    · rw [Finmap.lookup_erase_ne same, Function.update_of_ne same, rep.find_eq]

@[simp] theorem write_ctrl : (m.write i v).ctrl = m.ctrl := Function.update_eq_self i m.ctrl

@[simp] theorem write_n : (m.write i v).n = m.n := rfl

@[simp] theorem write_bits : (m.write i v).bits = m.bits := rfl

@[simp] theorem write_sz : (m.write i v).sz = m.sz := rfl

@[simp] theorem write_slots : (m.write i v).slots = m.slots := by
  simp only [slots, write_n, write_ctrl]

theorem write_entries_self : (m.write i v).entries i = ⟨(m.entries i).key, v⟩ :=
  Function.update_self ..

theorem write_entries_of_ne (apart : j ≠ i) : (m.write i v).entries j = m.entries j :=
  Function.update_of_ne apart ..

@[simp] theorem write_key : ((m.write i v).entries j).key = (m.entries j).key := by
  by_cases same : j = i
  · subst same
    rw [write_entries_self]
  · rw [write_entries_of_ne same]

theorem Ordered.write (ordered : Ordered hash m) (occupied : i ∈ m.slots) :
    Ordered hash (m.write i v) ∧
      (m.write i v).find hash = Function.update (m.find hash) (m.entries i).key (some v) := by
  have stored := ordered.find_slot occupied
  obtain ⟨f, rep⟩ := ordered
  obtain ⟨inside, taken⟩ := mem_slots.mp occupied
  have member : (m.entries i).key ∈ f := by
    rw [rep.find_eq] at stored
    exact Finmap.mem_of_lookup_eq_some stored
  have rep' : Represents hash (m.write i v) (f.insert (m.entries i).key v) := by
    refine ⟨⟨⟨?_, ?_, ?_⟩, ?_⟩, ?_, ?_, ?_, ?_⟩
    · intro j insideJ takenJ
      rw [write_ctrl] at takenJ ⊢
      rw [write_key]
      exact rep.sound.placed j insideJ takenJ
    · rw [write_ctrl]
      exact rep.sound.gentle
    · rw [write_ctrl]
      exact rep.sound.bounded
    · simp only [write_ctrl, write_key, write_n]
      exact rep.sound.unique
    · rw [Based, write_ctrl]
      exact rep.based
    · intro k w
      rw [lookup_insert_iff, ← rep.stored, ← entry_eq_iff]
      unfold RHBSU64Map.write
      rw [stored_put inside taken, stored_of_taken inside taken]
      constructor
      · rintro (off | here)
        · exact Or.inl ⟨Or.inl off, rep.sound.key_ne_of_off inside taken off⟩
        · exact Or.inr here
      · rintro (⟨off | here, apart⟩ | here)
        · exact Or.inl off
        · rw [← here] at apart
          exact absurd rfl apart
        · exact Or.inr here
    · rw [write_sz, rep.size, card_insert_of_mem member]
    · rw [Finmap.mem_insert, not_or]
      refine ⟨fun same => rep.clear ?_, rep.clear⟩
      rwa [same]
  refine ⟨⟨_, rep'⟩, ?_⟩
  funext q
  rw [rep'.find_eq]
  by_cases same : q = (m.entries i).key
  · subst same
    rw [Finmap.lookup_insert, Function.update_self]
  · rw [Finmap.lookup_insert_of_ne _ same, Function.update_of_ne same, rep.find_eq]

end UringDb.RobinHood.RHBSU64Map
