import Mathlib

/-!
# Linked lists in memory

`next` is the memory: the pointer stored in each cell. A pointer is the head of the list of
cells that following `next` passes before it meets the null pointer.
-/
namespace UringDb

variable {α : Type}

/-- `Linked next p l`: following `next` from `p` passes the cells `l` and ends. -/
inductive Linked (next : α → Option α) : Option α → List α → Prop
  | nil : Linked next none []
  | cons {a : α} {l : List α} (rest : Linked next (next a) l) : Linked next (some a) (a :: l)

/-- The first `k` cells from a pointer. -/
def follow (next : α → Option α) : Nat → Option α → List α
  | 0, _ => []
  | _ + 1, none => []
  | k + 1, some a => a :: follow next k (next a)

variable {next : α → Option α} {p : Option α} {l : List α}

theorem Linked.follow_eq (linked : Linked next p l) {k : Nat} (enough : l.length ≤ k) :
    follow next k p = l := by
  induction linked generalizing k with
  | nil => cases k <;> rfl
  | cons rest ih =>
    cases k with
    | zero => cases enough
    | succ k => rw [follow, ih (Nat.le_of_succ_le_succ enough)]

theorem length_follow (next : α → Option α) (k : Nat) (p : Option α) :
    (follow next k p).length ≤ k := by
  induction k generalizing p with
  | zero => exact Nat.le_refl 0
  | succ k ih =>
    cases p with
    | none => exact Nat.zero_le _
    | some a => exact Nat.succ_le_succ (ih (next a))

theorem Linked.write [DecidableEq α] (linked : Linked next p l) {a : α} (out : a ∉ l)
    (q : Option α) : Linked (Function.update next a q) p l := by
  induction linked with
  | nil => exact .nil
  | @cons b l rest ih =>
    rw [List.mem_cons, not_or] at out
    refine .cons ?_
    rw [Function.update_of_ne (Ne.symm out.1)]
    exact ih out.2

/-! ### Bounded lists -/

/-- The list at `p` ends within `k` cells. -/
def Bounded (next : α → Option α) (k : Nat) (p : Option α) : Prop :=
  Linked next p (follow next k p)

theorem Linked.bounded (linked : Linked next p l) {k : Nat} (enough : l.length ≤ k) :
    Bounded next k p := by
  rw [Bounded, linked.follow_eq enough]
  exact linked

theorem bounded_null (next : α → Option α) (k : Nat) : Bounded next k none :=
  Linked.nil.bounded (Nat.zero_le k)

theorem follow_null (next : α → Option α) (k : Nat) : follow next k none = [] :=
  Linked.nil.follow_eq (Nat.zero_le k)

theorem Bounded.write [DecidableEq α] {k : Nat} {a : α} (bounded : Bounded next k p)
    (out : a ∉ follow next k p) (q : Option α) :
    follow (Function.update next a q) k p = follow next k p ∧
      Bounded (Function.update next a q) k p := by
  have linked := Linked.write bounded out q
  have same := linked.follow_eq (length_follow next k p)
  refine ⟨same, ?_⟩
  rw [Bounded, same]
  exact linked

theorem Bounded.step {k : Nat} {a : α} (bounded : Bounded next k (some a)) :
    follow next k (some a) = a :: follow next k (next a) ∧ Bounded next k (next a) := by
  have long := length_follow next k (some a)
  unfold Bounded at bounded
  cases whole : follow next k (some a) with
  | nil =>
    rw [whole] at bounded
    cases bounded
  | cons b l =>
    rw [whole] at bounded long
    cases bounded with
    | cons rest =>
      have enough : l.length ≤ k := by
        rw [List.length_cons] at long
        omega
      rw [rest.follow_eq enough]
      exact ⟨rfl, rest.bounded enough⟩

theorem Bounded.cons {k : Nat} {a : α} (bounded : Bounded next k (next a))
    (room : (follow next k (next a)).length < k) :
    follow next k (some a) = a :: follow next k (next a) ∧ Bounded next k (some a) := by
  have linked : Linked next (some a) (a :: follow next k (next a)) := .cons bounded
  exact ⟨linked.follow_eq room, linked.bounded room⟩

end UringDb
