import Mathlib

/-!
# Positions on a ring

Slots of an open-addressed table are numbered modulo the table size. A slot is best
named by its distance from a base: `(base + d) % n` runs over every position exactly
once for `d < n`.
-/
namespace UringDb.Ring

/-- The distance from `base` forward to `i` on a ring of `n` positions. -/
def dist (n base i : Nat) : Nat := (i + (n - base % n)) % n

variable {n : Nat}

theorem dist_lt (pos : 0 < n) (base i : Nat) : dist n base i < n := Nat.mod_lt _ pos

theorem add_dist (base i : Nat) (bounded : i < n) : (base + dist n base i) % n = i := by
  have pos : 0 < n := by omega
  have below := Nat.mod_lt base pos
  have whole : base % n + (i + (n - base % n)) = n + i := by omega
  rw [dist, Nat.add_mod_mod, ← Nat.mod_add_mod, whole, Nat.add_mod_left, Nat.mod_eq_of_lt bounded]

theorem add_inj {base d e : Nat} (hd : d < n) (he : e < n)
    (same : (base + d) % n = (base + e) % n) : d = e := by
  have congruent : d ≡ e [MOD n] := Nat.ModEq.add_left_cancel' base same
  have reduced : d % n = e % n := congruent
  rwa [Nat.mod_eq_of_lt hd, Nat.mod_eq_of_lt he] at reduced

theorem dist_add {base d : Nat} (hd : d < n) : dist n base ((base + d) % n) = d := by
  have pos : 0 < n := by omega
  exact add_inj (dist_lt pos _ _) hd (add_dist base _ (Nat.mod_lt _ pos))

theorem add_shift (base d m : Nat) : ((base + d) % n + m) % n = (base + (d + m)) % n := by
  rw [Nat.mod_add_mod, Nat.add_assoc]

theorem pred_succ (pos : 0 < n) (x : Nat) :
    (if (x + 1) % n = 0 then n - 1 else (x + 1) % n - 1) = x % n := by
  have below := Nat.mod_lt x pos
  rw [← Nat.mod_add_mod]
  rcases Nat.lt_or_ge (x % n + 1) n with lt | ge
  · rw [Nat.mod_eq_of_lt lt, if_neg (by omega)]
    omega
  · have whole : x % n + 1 = n := by omega
    rw [whole, Nat.mod_self, if_pos rfl]
    omega

theorem succ_inj {i j : Nat} (hi : i < n) (hj : j < n) (same : (i + 1) % n = (j + 1) % n) :
    i = j := by
  have congruent : i ≡ j [MOD n] := Nat.ModEq.add_right_cancel' 1 same
  have reduced : i % n = j % n := congruent
  rwa [Nat.mod_eq_of_lt hi, Nat.mod_eq_of_lt hj] at reduced

/-- A function on the ring that grows by one at most from a position to the next. -/
def Gentle (n : Nat) (f : Nat → Nat) : Prop := ∀ i < n, f ((i + 1) % n) ≤ f i + 1

theorem Gentle.add_le {f : Nat → Nat} (gentle : Gentle n f) (pos : 0 < n) (base d m : Nat) :
    f ((base + (d + m)) % n) ≤ f ((base + d) % n) + m := by
  induction m with
  | zero => rfl
  | succ m ih =>
    have step := gentle ((base + (d + m)) % n) (Nat.mod_lt _ pos)
    rw [add_shift] at step
    exact step.trans (Nat.add_le_add_right ih 1)

theorem Gentle.update {f : Nat → Nat} (gentle : Gentle n f) {i c : Nat}
    (before : ∀ p < n, (p + 1) % n = i → c ≤ f p + 1) (after : f ((i + 1) % n) ≤ c + 1) :
    Gentle n (Function.update f i c) := by
  intro j bounded
  by_cases here : j = i
  · subst here
    rw [Function.update_self]
    by_cases around : (j + 1) % n = j
    · rw [around, Function.update_self]
      exact Nat.le_succ c
    · rw [Function.update_of_ne around]
      exact after
  · rw [Function.update_of_ne here]
    by_cases hit : (j + 1) % n = i
    · rw [hit, Function.update_self]
      exact before j bounded hit
    · rw [Function.update_of_ne hit]
      exact gentle j bounded

/-- Summing over the ring from any base. -/
theorem sum_rotate {M : Type} [AddCommMonoid M] (base : Nat) (f : Nat → M) :
    ∑ d ∈ Finset.range n, f ((base + d) % n) = ∑ i ∈ Finset.range n, f i := by
  refine Finset.sum_nbij' (fun d => (base + d) % n) (dist n base) ?_ ?_ ?_ ?_ fun _ _ => rfl
  · intro d inRange
    exact Finset.mem_range.mpr (Nat.mod_lt _ (Nat.zero_lt_of_lt (Finset.mem_range.mp inRange)))
  · intro i inRange
    exact Finset.mem_range.mpr (dist_lt (Nat.zero_lt_of_lt (Finset.mem_range.mp inRange)) _ _)
  · intro d inRange
    exact dist_add (Finset.mem_range.mp inRange)
  · intro i inRange
    exact add_dist base i (Finset.mem_range.mp inRange)

theorem and_mask (x bits : Nat) : x &&& (2 ^ bits - 1) = x % 2 ^ bits :=
  Nat.and_two_pow_sub_one_eq_mod x bits

end UringDb.Ring
