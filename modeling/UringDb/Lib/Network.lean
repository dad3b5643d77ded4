import UringDb.Lib.Run

/-!
# Systems side by side

A number of systems take their steps in any order. Which steps a component may take depends on
the states of the others, such as which messages are under way to it; whatever that rule is, a run
of the whole is a run of every component.
-/
namespace UringDb

variable {ι σ α : Type}

/-- The components `M i`, of which one takes a step that the states of all of them permit. -/
def System.network (M : ι → System σ α) (permits : (ι → σ) → ι → α → Prop) :
    System (ι → σ) (ι × α) where
  init s := ∀ i, (M i).init (s i)
  step s a t := permits s a.1 a.2 ∧ (M a.1).step (s a.1) a.2 (t a.1) ∧ ∀ j, j ≠ a.1 → t j = s j

namespace System

variable {M : ι → System σ α} {permits : (ι → σ) → ι → α → Prop}
  {ok : (ι → σ) → ι × α → Prop} {s : ι → σ} {acts : List (ι × α)}

/-- What a component reaches in a run of the whole, it reaches in a run of its own. -/
theorem Reaches.component (reached : (network M permits).Reaches ok acts s) (i : ι) :
    ∃ acts, (M i).Reaches anyStep acts (s i) := by
  refine Reaches.invariant (P := fun s => ∃ acts, (M i).Reaches anyStep acts (s i)) ?_ ?_ reached
  · intro s start
    exact ⟨[], s i, start i, .nil _⟩
  · rintro s ⟨j, a⟩ t ⟨acts, before⟩ _ ⟨-, step, rest⟩
    by_cases here : i = j
    · subst here
      exact ⟨acts ++ [a], before.extend (.cons step trivial (.nil _))⟩
    · rw [rest i here]
      exact ⟨acts, before⟩

variable [DecidableEq ι]

/-- One component takes steps that are permitted while the others rest. -/
theorem Path.component {i : ι} {x y : σ} {acts : List α} {ok : σ → α → Prop}
    (path : (M i).Path ok x acts y) (here : s i = x)
    (free : ∀ a ∈ acts, ∀ s, permits s i a) :
    (network M permits).Path anyStep s (acts.map fun a => (i, a)) (Function.update s i y) := by
  induction path generalizing s with
  | nil =>
    rw [← here, Function.update_eq_self]
    exact .nil _
  | @cons x mid y a acts step _ _ ih =>
    have later := ih (s := Function.update s i mid) (Function.update_self i mid s)
      fun a member => free a (List.mem_cons_of_mem _ member)
    rw [Function.update_idem] at later
    refine .cons ⟨free a List.mem_cons_self s, ?_, fun j other => ?_⟩ trivial later
    · rw [here, Function.update_self]
      exact step
    · exact Function.update_of_ne other mid s

/-- Two components that take only steps which are always permitted, one after the other. -/
theorem Reaches.pair {i j : ι} {x y : σ} {as bs : List α} {ok : σ → α → Prop} (apart : i ≠ j)
    (only : ∀ l, l = i ∨ l = j) (first : (M i).Reaches ok as x) (second : (M j).Reaches ok bs y)
    (freeFirst : ∀ a ∈ as, ∀ s, permits s i a) (freeSecond : ∀ a ∈ bs, ∀ s, permits s j a) :
    ∃ acts s, (network M permits).Reaches anyStep acts s ∧ s i = x ∧ s j = y := by
  obtain ⟨x₀, startFirst, pathFirst⟩ := first
  obtain ⟨y₀, startSecond, pathSecond⟩ := second
  let start : ι → σ := Function.update (fun _ => x₀) j y₀
  have here : start i = x₀ := Function.update_of_ne apart _ _
  have second : start j = y₀ := Function.update_self _ _ _
  have there : Function.update start i x j = y₀ := by
    rw [Function.update_of_ne apart.symm, second]
  refine ⟨_, _, ⟨start, ?_, (pathFirst.component here freeFirst).append
    (pathSecond.component there freeSecond)⟩, ?_, Function.update_self _ _ _⟩
  · intro l
    rcases only l with rfl | rfl
    · rw [here]
      exact startFirst
    · rw [second]
      exact startSecond
  · rw [Function.update_of_ne apart, Function.update_self]

end System

end UringDb
