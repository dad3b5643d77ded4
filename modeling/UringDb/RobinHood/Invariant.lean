import UringDb.Lib.Sum
import UringDb.RobinHood.Model

/-!
# The order of a robin-hood table

Every entry stands as far behind its home as its control byte says, and from a slot to the next
the control byte grows by one at most. So all slots between the home of a key and its entry have
control bytes that let a probe pass, which is what the early exits of `find`, `erase` and `insert`
rely on. Both loops that move entries keep this order at every turn: `insert` with an entry in
hand, and the backshift with a hole that still shows its old entry.
-/
namespace UringDb.RobinHood.RHBSU64Map

open UringDb.Ring (Gentle)

variable {V : Type} {hash : UInt64 → UInt64} {m t : RHBSU64Map V} {i j c : Nat} {e x : Entry V}

/-! ### The order -/

/-- Entries are where their control bytes say, and the bytes are gentle. -/
structure Shape (hash : UInt64 → UInt64) (m : RHBSU64Map V) : Prop where
  placed : ∀ i < m.n, m.ctrl i ≠ 0 → (m.home hash (m.entries i).key + (m.ctrl i - 1)) % m.n = i
  gentle : Gentle m.n m.ctrl
  bounded : ∀ i < m.n, m.ctrl i ≤ 254

/-- A table between two calls. -/
structure Sound (hash : UInt64 → UInt64) (m : RHBSU64Map V) : Prop extends Shape hash m where
  unique : ∀ i < m.n, ∀ j < m.n, m.ctrl i ≠ 0 → m.ctrl j ≠ 0 →
    (m.entries i).key = (m.entries j).key → i = j

/-- Some slot is empty or holds an entry at its home. -/
def Based (m : RHBSU64Map V) : Prop := ∃ i < m.n, m.ctrl i ≤ 1

def Stored (m : RHBSU64Map V) (x : Entry V) : Prop :=
  ∃ j < m.n, m.ctrl j ≠ 0 ∧ m.entries j = x

/-- Stored in another slot than `i`. -/
def StoredOff (m : RHBSU64Map V) (i : Nat) (x : Entry V) : Prop :=
  ∃ j < m.n, j ≠ i ∧ m.ctrl j ≠ 0 ∧ m.entries j = x

theorem Shape.put (shape : Shape hash m) (small : c ≤ 254)
    (reach : c ≠ 0 → (m.home hash e.key + (c - 1)) % m.n = i)
    (before : ∀ p < m.n, (p + 1) % m.n = i → c ≤ m.ctrl p + 1)
    (after : m.ctrl (m.next i) ≤ c + 1) : Shape hash (m.put i e c) where
  placed := by
    intro j inside taken
    by_cases here : j = i
    · subst here
      rw [put_ctrl_self] at taken ⊢
      rw [put_entries_self]
      exact reach taken
    · rw [put_ctrl_of_ne _ _ _ _ here] at taken ⊢
      rw [put_entries_of_ne _ _ _ _ here]
      exact shape.placed j inside taken
  gentle := by
    rw [next_eq] at after
    exact shape.gentle.update before after
  bounded := by
    intro j inside
    by_cases here : j = i
    · subst here
      rw [put_ctrl_self]
      exact small
    · rw [put_ctrl_of_ne _ _ _ _ here]
      exact shape.bounded j inside

theorem unique_put
    (unique : ∀ j < m.n, ∀ l < m.n, j ≠ i → l ≠ i → m.ctrl j ≠ 0 → m.ctrl l ≠ 0 →
      (m.entries j).key = (m.entries l).key → j = l)
    (fresh : c ≠ 0 → ∀ x, StoredOff m i x → x.key ≠ e.key) :
    ∀ j < (m.put i e c).n, ∀ l < (m.put i e c).n,
      (m.put i e c).ctrl j ≠ 0 → (m.put i e c).ctrl l ≠ 0 →
      ((m.put i e c).entries j).key = ((m.put i e c).entries l).key → j = l := by
  intro j insideJ l insideL takenJ takenL same
  by_cases hereJ : j = i <;> by_cases hereL : l = i
  · rw [hereJ, hereL]
  · subst hereJ
    rw [put_ctrl_self] at takenJ
    rw [put_ctrl_of_ne _ _ _ _ hereL] at takenL
    rw [put_entries_self, put_entries_of_ne _ _ _ _ hereL] at same
    exact absurd same.symm (fresh takenJ _ ⟨l, insideL, hereL, takenL, rfl⟩)
  · subst hereL
    rw [put_ctrl_self] at takenL
    rw [put_ctrl_of_ne _ _ _ _ hereJ] at takenJ
    rw [put_entries_self, put_entries_of_ne _ _ _ _ hereJ] at same
    exact absurd same (fresh takenL _ ⟨j, insideJ, hereJ, takenJ, rfl⟩)
  · rw [put_ctrl_of_ne _ _ _ _ hereJ] at takenJ
    rw [put_ctrl_of_ne _ _ _ _ hereL] at takenL
    rw [put_entries_of_ne _ _ _ _ hereJ, put_entries_of_ne _ _ _ _ hereL] at same
    exact unique j insideJ l insideL hereJ hereL takenJ takenL same

/-! ### What is stored -/

theorem stored_of_taken (inside : i < m.n) (taken : m.ctrl i ≠ 0) :
    Stored m x ↔ StoredOff m i x ∨ x = m.entries i := by
  constructor
  · rintro ⟨j, insideJ, takenJ, rfl⟩
    by_cases here : j = i
    · exact Or.inr (by rw [here])
    · exact Or.inl ⟨j, insideJ, here, takenJ, rfl⟩
  · rintro (⟨j, insideJ, -, takenJ, same⟩ | rfl)
    · exact ⟨j, insideJ, takenJ, same⟩
    · exact ⟨i, inside, taken, rfl⟩

theorem stored_of_free (free : m.ctrl i = 0) : Stored m x ↔ StoredOff m i x := by
  constructor
  · rintro ⟨j, insideJ, takenJ, same⟩
    refine ⟨j, insideJ, ?_, takenJ, same⟩
    rintro rfl
    exact takenJ free
  · rintro ⟨j, insideJ, -, takenJ, same⟩
    exact ⟨j, insideJ, takenJ, same⟩

theorem storedOff_put : StoredOff (m.put i e c) i x ↔ StoredOff m i x := by
  constructor
  · rintro ⟨j, insideJ, apart, takenJ, same⟩
    rw [put_ctrl_of_ne _ _ _ _ apart] at takenJ
    rw [put_entries_of_ne _ _ _ _ apart] at same
    exact ⟨j, insideJ, apart, takenJ, same⟩
  · rintro ⟨j, insideJ, apart, takenJ, same⟩
    refine ⟨j, insideJ, apart, ?_, ?_⟩
    · rwa [put_ctrl_of_ne _ _ _ _ apart]
    · rwa [put_entries_of_ne _ _ _ _ apart]

theorem stored_put (inside : i < m.n) (taken : c ≠ 0) :
    Stored (m.put i e c) x ↔ StoredOff m i x ∨ x = e := by
  have here : (m.put i e c).ctrl i ≠ 0 := by rwa [put_ctrl_self]
  rw [@stored_of_taken V (m.put i e c) i x inside here, storedOff_put, put_entries_self]

theorem Sound.key_ne_of_off (sound : Sound hash m) (inside : i < m.n) (taken : m.ctrl i ≠ 0)
    (off : StoredOff m i x) : x.key ≠ (m.entries i).key := by
  obtain ⟨j, insideJ, apart, takenJ, rfl⟩ := off
  intro same
  exact apart (sound.unique j insideJ i inside takenJ taken same)

/-! ### Between the home of an entry and its slot -/

theorem Shape.passes (shape : Shape hash m) (inside : j < m.n) (taken : m.ctrl j ≠ 0) {d : Nat}
    (way : d < m.ctrl j) : d + 1 ≤ m.ctrl ((m.home hash (m.entries j).key + d) % m.n) := by
  have grows := shape.gentle.add_le m.n_pos (m.home hash (m.entries j).key) d (m.ctrl j - 1 - d)
  have whole : d + (m.ctrl j - 1 - d) = m.ctrl j - 1 := by omega
  rw [whole, shape.placed j inside taken] at grows
  omega

theorem Shape.ahead (shape : Shape hash m) (inside : j < m.n) (taken : m.ctrl j ≠ 0) {d : Nat}
    (way : d < m.ctrl j)
    (other : (m.entries ((m.home hash (m.entries j).key + d) % m.n)).key ≠ (m.entries j).key) :
    d + 1 < m.ctrl j := by
  refine Nat.lt_of_le_of_ne way fun last => other ?_
  have reached := shape.placed j inside taken
  rw [← last, Nat.add_sub_cancel] at reached
  rw [reached]

/-- A slot that is empty or at home keeps all distances below the capacity. -/
theorem Shape.near (shape : Shape hash m) (based : Based m) (inside : i < m.n) :
    m.ctrl i ≤ m.n := by
  obtain ⟨b, insideB, low⟩ := based
  have grows := shape.gentle.add_le m.n_pos b 0 (Ring.dist m.n b i)
  rw [Nat.zero_add, Ring.add_dist b i inside, Nat.add_zero, Nat.mod_eq_of_lt insideB] at grows
  have short := Ring.dist_lt m.n_pos b i
  omega

theorem Shape.ctrl_eq (shape : Shape hash m) (based : Based m) (inside : i < m.n)
    (taken : m.ctrl i ≠ 0) :
    m.ctrl i = 1 + Ring.dist m.n (m.home hash (m.entries i).key) i := by
  have near := shape.near based inside
  have back : Ring.dist m.n (m.home hash (m.entries i).key) i = m.ctrl i - 1 := by
    have reached := @Ring.dist_add m.n (m.home hash (m.entries i).key) (m.ctrl i - 1) (by omega)
    rwa [shape.placed i inside taken] at reached
  omega

end UringDb.RobinHood.RHBSU64Map
