import Mathlib

/-!
# Consecutive spans

Stretches of natural numbers that follow each other without a gap. Every number between the two
ends is in exactly one of them, and no other number is in any.
-/
namespace UringDb

/-- The `len` numbers from `start` on. -/
structure Span where
  start : Nat
  len : Nat
deriving DecidableEq

namespace Span

def stop (s : Span) : Nat := s.start + s.len

def Has (s : Span) (x : Nat) : Prop := s.start ≤ x ∧ x < s.stop

instance decidableHas (s : Span) (x : Nat) : Decidable (s.Has x) :=
  inferInstanceAs (Decidable (_ ∧ _))

/-- No number is in both. -/
def Apart (s t : Span) : Prop := s.stop ≤ t.start ∨ t.stop ≤ s.start

theorem Apart.symm {s t : Span} (apart : s.Apart t) : t.Apart s := Or.symm apart

theorem Apart.not_both {s t : Span} {x : Nat} (apart : s.Apart t) (first : s.Has x) :
    ¬t.Has x := by
  rintro ⟨le, less⟩
  rcases apart with before | behind
  · exact absurd (lt_of_lt_of_le first.2 (le_trans before le)) (lt_irrefl x)
  · exact absurd (lt_of_lt_of_le less (le_trans behind first.1)) (lt_irrefl x)

/-- A number is in one span of a list at most, if no two of them overlap. -/
theorem countP_has_eq_one {α : Type} {f : α → Span} {l : List α} {a : α} {x : Nat}
    (apart : l.Pairwise fun a b => (f a).Apart (f b)) (member : a ∈ l) (has : (f a).Has x) :
    l.countP (fun a => decide ((f a).Has x)) = 1 := by
  induction l with
  | nil => cases member
  | cons b l ih =>
    rw [List.pairwise_cons] at apart
    by_cases first : (f b).Has x
    · have rest : l.countP (fun a => decide ((f a).Has x)) = 0 := by
        rw [List.countP_eq_zero]
        intro c later
        rw [decide_eq_true_eq]
        exact (apart.1 c later).not_both first
      rw [List.countP_cons, rest, if_pos (decide_eq_true first)]
    · have later : a ∈ l := by
        rcases List.mem_cons.mp member with rfl | later
        · exact absurd has first
        · exact later
      rw [List.countP_cons, ih apart.2 later, decide_eq_false first]
      rfl

end Span

/-- Spans that follow each other from `a` to `b`. -/
inductive Follow : Nat → Nat → List Span → Prop
  | nil (a : Nat) : Follow a a []
  | cons {s : Span} {b : Nat} {rest : List Span} (follow : Follow s.stop b rest) :
      Follow s.start b (s :: rest)

namespace Follow

variable {a b : Nat} {l : List Span}

theorem le (follow : Follow a b l) : a ≤ b := by
  induction follow with
  | nil a => exact le_refl a
  | cons _ ih => exact le_trans (Nat.le_add_right _ _) ih

theorem inside (follow : Follow a b l) : ∀ s ∈ l, a ≤ s.start ∧ s.stop ≤ b := by
  induction follow with
  | nil a =>
    intro s member
    cases member
  | @cons s b rest follow ih =>
    intro t member
    rcases List.mem_cons.mp member with rfl | later
    · exact ⟨le_refl _, follow.le⟩
    · obtain ⟨behind, stops⟩ := ih t later
      exact ⟨le_trans (Nat.le_add_right _ _) behind, stops⟩

theorem pairwise (follow : Follow a b l) : l.Pairwise Span.Apart := by
  induction follow with
  | nil a => exact List.Pairwise.nil
  | cons follow ih =>
    refine List.pairwise_cons.mpr ⟨fun t member => ?_, ih⟩
    exact Or.inl (follow.inside t member).1

theorem covers (follow : Follow a b l) {x : Nat} (above : a ≤ x) (below : x < b) :
    ∃ s ∈ l, s.Has x := by
  induction follow with
  | nil a => exact absurd below (Nat.not_lt.mpr above)
  | @cons s b rest follow ih =>
    by_cases first : x < s.stop
    · exact ⟨s, List.mem_cons_self, above, first⟩
    · obtain ⟨t, member, has⟩ := ih (Nat.not_lt.mp first) below
      exact ⟨t, List.mem_cons_of_mem s member, has⟩

theorem snoc (follow : Follow a b l) {s : Span} (starts : s.start = b) :
    Follow a s.stop (l ++ [s]) := by
  induction follow with
  | nil a =>
    subst starts
    exact .cons (.nil _)
  | cons _ ih => exact .cons (ih starts)

/-- Spans that are numbered, each of which begins where the one before it ends. -/
theorem of_range {start len : Nat → Nat} {n : Nat}
    (next : ∀ i < n, start (i + 1) = start i + len i) :
    Follow (start 0) (start n) ((List.range n).map fun i => ⟨start i, len i⟩) := by
  induction n with
  | zero => exact .nil _
  | succ n ih =>
    have before := ih fun i less => next i (Nat.lt_succ_of_lt less)
    rw [List.range_succ, List.map_append, List.map_cons, List.map_nil,
      next n (Nat.lt_succ_self n)]
    exact @snoc _ _ _ before ⟨start n, len n⟩ rfl

theorem apart_of_ne {span : Nat → Span} {n i j : Nat}
    (follow : Follow a b ((List.range n).map span)) (first : i < n) (second : j < n)
    (ne : i ≠ j) : (span i).Apart (span j) := by
  have symmetric : Std.Symm fun i j => (span i).Apart (span j) := ⟨fun _ _ => Span.Apart.symm⟩
  have apart := List.pairwise_map.mp follow.pairwise
  exact apart.forall (List.mem_range.mpr first) (List.mem_range.mpr second) ne

/-- Every number between the ends is in exactly one of the numbered spans. -/
theorem existsUnique {span : Nat → Span} {n x : Nat}
    (follow : Follow a b ((List.range n).map span)) (above : a ≤ x) (below : x < b) :
    ∃! i, i < n ∧ (span i).Has x := by
  obtain ⟨s, member, has⟩ := follow.covers above below
  obtain ⟨i, less, rfl⟩ := List.mem_map.mp member
  refine ⟨i, ⟨List.mem_range.mp less, has⟩, ?_⟩
  rintro j ⟨inside, too⟩
  by_contra other
  have apart := follow.apart_of_ne (List.mem_range.mp less) inside (Ne.symm other)
  exact apart.not_both has too

end Follow

end UringDb
