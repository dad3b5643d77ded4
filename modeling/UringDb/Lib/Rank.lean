import Mathlib

/-!
# Positions in strictly ascending lists

The rank of `k` in a list is the number of its elements below `k`: the position at which a
lower-bound search for `k` ends, and at which `k` is inserted.
-/
namespace UringDb

variable {α : Type} [LinearOrder α]

abbrev Ascending (l : List α) : Prop := l.Pairwise (· < ·)

def rank (l : List α) (k : α) : Nat := l.countP (· < k)

variable {l : List α} {k : α}

theorem rank_le_length (l : List α) (k : α) : rank l k ≤ l.length := List.countP_le_length

theorem rank_cons (x : α) (l : List α) (k : α) :
    rank (x :: l) k = rank l k + if x < k then 1 else 0 := by
  simp only [rank, List.countP_cons, decide_eq_true_iff]

theorem rank_of_all_lt (below : ∀ x ∈ l, x < k) : rank l k = l.length :=
  List.countP_eq_length.mpr fun x member => decide_eq_true (below x member)

theorem rank_of_all_ge (above : ∀ x ∈ l, k ≤ x) : rank l k = 0 :=
  List.countP_eq_zero.mpr fun x member less =>
    absurd (of_decide_eq_true less) (not_lt.mpr (above x member))

theorem rank_eq_countP {p : α → Bool} (same : ∀ x ∈ l, x < k ↔ p x = true) : rank l k = l.countP p :=
  List.countP_congr fun x member => by
    rw [decide_eq_true_iff]
    exact same x member

/-! ### The cut at the rank -/

/-- In an ascending list the elements below `k` come first. -/
theorem Ascending.cut (ascending : Ascending l) (k : α) :
    ∃ a b, l = a ++ b ∧ a.length = rank l k ∧ (∀ x ∈ a, x < k) ∧ ∀ x ∈ b, k ≤ x := by
  induction l with
  | nil => exact ⟨[], [], rfl, rfl, by simp, by simp⟩
  | cons x l ih =>
    rw [Ascending, List.pairwise_cons] at ascending
    by_cases less : x < k
    · obtain ⟨a, b, rfl, length, below, above⟩ := ih ascending.2
      refine ⟨x :: a, b, rfl, ?_, ?_, above⟩
      · rw [rank_cons, if_pos less, List.length_cons, length]
      · intro y member
        rcases List.mem_cons.mp member with rfl | member
        · exact less
        · exact below y member
    · have above : ∀ y ∈ x :: l, k ≤ y := by
        intro y member
        rcases List.mem_cons.mp member with rfl | member
        · exact not_lt.mp less
        · exact le_trans (not_lt.mp less) (le_of_lt (ascending.1 y member))
      exact ⟨[], x :: l, rfl, (rank_of_all_ge above).symm, by simp, above⟩

theorem Ascending.lt_iff (ascending : Ascending l) {i : Nat} (inside : i < l.length) :
    l[i] < k ↔ i < rank l k := by
  obtain ⟨a, b, rfl, length, below, above⟩ := ascending.cut k
  rw [← length]
  by_cases left : i < a.length
  · simp only [List.getElem_append_left left, left, iff_true]
    exact below _ (List.getElem_mem left)
  · rw [List.getElem_append_right (Nat.le_of_not_lt left)]
    exact iff_of_false (not_lt.mpr (above _ (List.getElem_mem _))) left

theorem Ascending.le_iff (ascending : Ascending l) {i : Nat} (inside : i < l.length) :
    k ≤ l[i] ↔ rank l k ≤ i := by
  rw [← not_lt, ascending.lt_iff inside, Nat.not_lt]

/-- The rank is the only cut between the elements below `k` and the others. -/
theorem Ascending.rank_unique (ascending : Ascending l) {r : Nat} (inside : r ≤ l.length)
    (below : ∀ i (h : i < l.length), i < r → l[i] < k)
    (above : ∀ i (h : i < l.length), r ≤ i → k ≤ l[i]) : rank l k = r := by
  have bound := rank_le_length l k
  rcases Nat.lt_trichotomy (rank l k) r with less | same | more
  · have h := (ascending.lt_iff (by omega)).mp (below (rank l k) (by omega) less)
    omega
  · exact same
  · have h := (ascending.le_iff (by omega)).mp (above r (by omega) (Nat.le_refl r))
    omega

theorem Ascending.rank_getElem (ascending : Ascending l) {i : Nat} (inside : i < l.length) :
    rank l l[i] = i := by
  apply ascending.rank_unique (Nat.le_of_lt inside)
  · intro j h less
    exact List.pairwise_iff_getElem.mp ascending j i h inside less
  · intro j h le
    rcases Nat.eq_or_lt_of_le le with rfl | less
    · exact le_refl _
    · exact le_of_lt (List.pairwise_iff_getElem.mp ascending i j inside h less)

theorem Ascending.getElem_rank (ascending : Ascending l) (member : k ∈ l) :
    ∃ inside : rank l k < l.length, l[rank l k] = k := by
  obtain ⟨i, inside, rfl⟩ := List.mem_iff_getElem.mp member
  simp only [ascending.rank_getElem inside]
  exact ⟨inside, trivial⟩

end UringDb
