import Mathlib

/-!
# Words in lexicographic order

A word is a list over a linear order, a proper prefix coming first. The facts collected here
are the ones an ordered index needs: comparing words piecewise, as `memcmp` does, the words
between two words with a common prefix, the least word above a given one, and the shortest
words that separate two others.
-/
namespace UringDb.Lex

/-- Bytes are an alphabet. -/
instance neZero_byte : NeZero 256 := ⟨Nat.succ_ne_zero 255⟩

variable {α : Type} [LinearOrder α]

theorem append_lt_append_iff (p a b : List α) : p ++ a < p ++ b ↔ a < b := by
  induction p with
  | nil => rfl
  | cons x p ih => simp only [List.cons_append, List.cons_lt_cons_iff, lt_self_iff_false, false_or,
      true_and, ih]

theorem cons_le_cons_iff (x y : α) (a b : List α) : x :: a ≤ y :: b ↔ x < y ∨ x = y ∧ a ≤ b := by
  rw [le_iff_lt_or_eq, List.cons_lt_cons_iff, List.cons.injEq, le_iff_lt_or_eq]
  tauto

theorem append_le_append_iff (p a b : List α) : p ++ a ≤ p ++ b ↔ a ≤ b := by
  rw [← not_lt, ← not_lt, append_lt_append_iff]

/-! ### Prefixes -/

theorem le_append (a t : List α) : a ≤ a ++ t := by
  have least : ([] : List α) ≤ t := by
    cases t with
    | nil => exact le_refl _
    | cons x t => exact le_of_lt (List.nil_lt_cons x t)
  simpa only [List.append_nil] using (append_le_append_iff a [] t).mpr least

theorem le_of_leads {a b : List α} (leads : a <+: b) : a ≤ b := by
  obtain ⟨t, rfl⟩ := leads
  exact le_append a t

theorem nil_le (a : List α) : [] ≤ a := le_append [] a

theorem lt_of_leads {a b : List α} (leads : a <+: b) (shorter : a.length < b.length) : a < b := by
  refine lt_of_le_of_ne (le_of_leads leads) ?_
  rintro rfl
  exact lt_irrefl _ shorter

/-- What is in order up to position `n` is in order. -/
theorem lt_of_take_lt {a b : List α} {n : Nat} (less : a.take n < b.take n) : a < b := by
  induction n generalizing a b with
  | zero => simp only [List.take_zero, lt_self_iff_false] at less
  | succ n ih =>
    cases b with
    | nil => simp only [List.take_nil, List.not_lt_nil] at less
    | cons y b =>
      cases a with
      | nil => exact List.nil_lt_cons y b
      | cons x a =>
        simp only [List.take_succ_cons, List.cons_lt_cons_iff] at less ⊢
        exact less.imp_right fun same => ⟨same.1, ih same.2⟩

omit [LinearOrder α] in
/-- Two words that agree on the length of the shorter one: the shorter one is a prefix. -/
theorem leads_of_take_eq {a b : List α} (agree : a.take (min a.length b.length) =
    b.take (min a.length b.length)) (shorter : a.length ≤ b.length) : a <+: b := by
  rw [min_eq_left shorter, List.take_length] at agree
  exact List.prefix_iff_eq_take.mpr agree

/-- Everything between two words that start with `p` starts with `p`. -/
theorem leads_of_between {p a b x : List α} (left : p <+: a) (right : p <+: b) (above : a ≤ x)
    (below : x ≤ b) : p <+: x := by
  obtain ⟨a, rfl⟩ := left
  obtain ⟨b, rfl⟩ := right
  induction p generalizing x with
  | nil => exact List.nil_prefix
  | cons c p ih =>
    cases x with
    | nil => exact absurd above (not_le.mpr (List.nil_lt_cons c _))
    | cons d x =>
      simp only [List.cons_append, cons_le_cons_iff] at above below
      rcases above with less | ⟨rfl, above⟩
      · rcases below with more | ⟨rfl, -⟩
        · exact absurd more (lt_asymm less)
        · exact absurd less (lt_irrefl _)
      · rcases below with more | ⟨-, below⟩
        · exact absurd more (lt_irrefl _)
        · exact List.cons_prefix_cons.mpr ⟨rfl, ih above below⟩

/-! ### The next word -/

/-- `a` followed by the least letter is the least word above `a`. -/
theorem lt_iff_snoc_bot_le [OrderBot α] (a x : List α) : a < x ↔ a ++ [⊥] ≤ x := by
  induction a generalizing x with
  | nil =>
    cases x with
    | nil => simp only [lt_self_iff_false, List.nil_append, false_iff, not_le, List.nil_lt_cons]
    | cons y x =>
      simp only [List.nil_lt_cons, List.nil_append, cons_le_cons_iff, true_iff]
      rcases eq_or_lt_of_le (bot_le : ⊥ ≤ y) with same | less
      · exact Or.inr ⟨same, nil_le x⟩
      · exact Or.inl less
  | cons c a ih =>
    cases x with
    | nil => simp only [List.not_lt_nil, List.cons_append, false_iff, not_le, List.nil_lt_cons]
    | cons y x => simp only [List.cons_lt_cons_iff, List.cons_append, cons_le_cons_iff, ih]

theorem lt_snoc [OrderBot α] (a : List α) : a < a ++ [⊥] :=
  (lt_iff_snoc_bot_le a _).mpr (le_refl _)

/-! ### Common prefixes -/

/-- The length of the longest common prefix. -/
def commonLen : List α → List α → Nat
  | a :: as, b :: bs => if a = b then commonLen as bs + 1 else 0
  | _, _ => 0

theorem commonLen_le_left (a b : List α) : commonLen a b ≤ a.length := by
  fun_induction commonLen a b with
  | case1 a as bs ih => exact Nat.succ_le_succ ih
  | case2 => exact Nat.zero_le _
  | case3 => exact Nat.zero_le _

theorem commonLen_comm (a b : List α) : commonLen a b = commonLen b a := by
  fun_induction commonLen a b with
  | case1 a as bs ih => rw [commonLen, if_pos rfl, ih]
  | case2 a as b bs differ => rw [commonLen, if_neg (Ne.symm differ)]
  | case3 as bs short =>
    cases as with
    | nil => cases bs <;> rfl
    | cons a as =>
      cases bs with
      | nil => rfl
      | cons b bs => exact absurd rfl (short a as b bs rfl)

theorem take_commonLen (a b : List α) : a.take (commonLen a b) = b.take (commonLen a b) := by
  fun_induction commonLen a b with
  | case1 a as bs ih => rw [List.take_succ_cons, List.take_succ_cons, ih]
  | case2 => rfl
  | case3 => rfl

theorem length_le_commonLen {p a b : List α} (left : p <+: a) (right : p <+: b) :
    p.length ≤ commonLen a b := by
  obtain ⟨a, rfl⟩ := left
  obtain ⟨b, rfl⟩ := right
  induction p with
  | nil => exact Nat.zero_le _
  | cons c p ih =>
    rw [List.cons_append, List.cons_append, commonLen, if_pos rfl, List.length_cons]
    exact Nat.succ_le_succ ih

/-- A word between two others has what they have in common. -/
theorem commonLen_between {a x b : List α} (above : a ≤ x) (below : x ≤ b) :
    commonLen a b ≤ commonLen a x ∧ commonLen a b ≤ commonLen x b := by
  have left : a.take (commonLen a b) <+: a := List.take_prefix _ _
  have right : a.take (commonLen a b) <+: b := by
    rw [take_commonLen]
    exact List.take_prefix _ _
  have mid := leads_of_between left right above below
  have length : (a.take (commonLen a b)).length = commonLen a b := by
    rw [List.length_take, Nat.min_eq_left (commonLen_le_left a b)]
  have first := length_le_commonLen left mid
  have second := length_le_commonLen mid right
  rw [length] at first second
  exact ⟨first, second⟩

/-- One letter more than the common prefix, taken from the larger word, separates the words. -/
theorem lt_take_commonLen_succ {a b : List α} (less : a < b) (inside : commonLen a b < a.length) :
    a < b.take (commonLen a b + 1) := by
  fun_induction commonLen a b with
  | case1 a as bs ih =>
    rw [List.take_succ_cons, List.cons_lt_cons_iff]
    rw [List.cons_lt_cons_iff] at less
    refine Or.inr ⟨rfl, ih ?_ (Nat.lt_of_succ_lt_succ inside)⟩
    exact less.resolve_left (lt_irrefl _) |>.2
  | case2 a as b bs differ =>
    rw [List.take_succ_cons, List.cons_lt_cons_iff]
    rw [List.cons_lt_cons_iff] at less
    exact Or.inl (less.resolve_right fun same => differ same.1)
  | case3 as bs short =>
    cases as with
    | nil => exact absurd inside (Nat.not_lt_zero _)
    | cons a as =>
      cases bs with
      | nil => exact absurd less (List.not_lt_nil _)
      | cons b bs => exact absurd rfl (short a as b bs rfl)

theorem take_lt {a : List α} {n : Nat} (short : n < a.length) : a.take n < a := by
  have leads : a.take n <+: a := List.take_prefix n a
  exact lt_of_leads leads (by rw [List.length_take]; omega)

end UringDb.Lex
