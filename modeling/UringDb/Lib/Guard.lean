import Mathlib

/-!
# Checks

A function that may fail runs into `guard p` where the program checks `p`, or names what failed.
-/
namespace UringDb

variable {β : Type}

theorem guard_bind (p : Prop) [Decidable p] (f : Unit → Option β) :
    (guard p >>= f) = if p then f () else none := by
  by_cases holds : p
  · rw [guard, if_pos holds, if_pos holds]
    rfl
  · rw [guard, if_neg holds, if_neg holds]
    rfl

theorem isSome_guard_bind (p : Prop) [Decidable p] (f : Unit → Option β) :
    (guard p >>= f).isSome = true ↔ p ∧ (f ()).isSome = true := by
  rw [guard_bind]
  split
  next holds => simp only [holds, true_and]
  next fails => simp only [fails, Option.isSome_none, Bool.false_eq_true, false_and]

theorem guard_bind_eq_some_iff (p : Prop) [Decidable p] (f : Unit → Option β) (b : β) :
    (guard p >>= f) = some b ↔ p ∧ f () = some b := by
  rw [guard_bind]
  split
  next holds => simp only [holds, true_and]
  next fails => simp only [fails, reduceCtorEq, false_and]

theorem bind_ok {ε α : Type} {x : Except ε α} {f : α → Except ε β} {r : β} :
    (x >>= f) = .ok r ↔ ∃ a, x = .ok a ∧ f a = .ok r := by
  cases x with
  | error stop =>
    constructor
    · intro ends
      cases ends
    · rintro ⟨a, ends, -⟩
      cases ends
  | ok a =>
    constructor
    · exact fun ends => ⟨a, rfl, ends⟩
    · rintro ⟨a, same, ends⟩
      cases same
      exact ends

end UringDb
