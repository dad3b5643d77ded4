import Mathlib

/-!
# Sums over components of which one changes

Conservation arguments count something over all components of a state. A step replaces
one component, so the sum changes by what that component's share changes.
-/
namespace UringDb

open Finset

variable {ι σ : Type} [DecidableEq ι]

theorem sum_update {M : Type} [AddCommMonoid M] (s : Finset ι) (g : ι → σ) (i : ι) (x : σ)
    (F : σ → M) (member : i ∈ s) :
    (∑ u ∈ s, F (Function.update g i x u)) + F (g i) = (∑ u ∈ s, F (g u)) + F x := by
  have rest : ∑ u ∈ s.erase i, F (Function.update g i x u) = ∑ u ∈ s.erase i, F (g u) :=
    sum_congr rfl fun u hu => by rw [Function.update_of_ne (ne_of_mem_erase hu)]
  rw [← add_sum_erase s _ member, ← add_sum_erase s (fun u => F (g u)) member, rest,
    Function.update_self]
  abel

omit [DecidableEq ι] in
theorem le_sum [Fintype ι] (F : ι → Nat) (i : ι) : F i ≤ ∑ u, F u :=
  single_le_sum (fun _ _ => Nat.zero_le _) (mem_univ i)

theorem add_le_sum [Fintype ι] (F : ι → Nat) {i j : ι} (ne : i ≠ j) : F i + F j ≤ ∑ u, F u := by
  rw [← add_sum_erase univ F (mem_univ i)]
  exact Nat.add_le_add_left
    (single_le_sum (f := F) (fun _ _ => Nat.zero_le _) (mem_erase.mpr ⟨ne.symm, mem_univ j⟩)) _

theorem length_eq_sum_count {l : List Nat} {m : Nat} (bounded : ∀ x ∈ l, x < m) :
    l.length = ∑ b ∈ range m, l.count b := by
  rw [← List.sum_toFinset_count_eq_length l]
  refine sum_subset (fun x member => ?_) fun x _ absent => ?_
  · exact mem_range.mpr (bounded x (List.mem_toFinset.mp member))
  · exact List.count_eq_zero.mpr fun member => absent (List.mem_toFinset.mpr member)

end UringDb
