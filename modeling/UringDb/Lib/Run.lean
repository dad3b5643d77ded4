import Mathlib

/-!
# Labelled transition systems and guarded runs

A system is a set of initial states and a labelled step relation. A guarded run is
a finite sequence of steps each of which meets a side condition in the state before
it; the unguarded runs are those of the trivial side condition. Safety arguments
only ever need `Reaches.invariant`: an assertion that holds initially and survives
one guarded step holds in every state a guarded run reaches.
-/
namespace UringDb

/-- Parties are numbered; concrete runs have one, two or three of them. -/
instance neZero_one : NeZero 1 := ⟨Nat.succ_ne_zero 0⟩

instance neZero_two : NeZero 2 := ⟨Nat.succ_ne_zero 1⟩

instance neZero_three : NeZero 3 := ⟨Nat.succ_ne_zero 2⟩

structure System (σ α : Type) where
  init : σ → Prop
  step : σ → α → σ → Prop

namespace System

variable {σ α : Type} (M : System σ α)

/-- The side condition of unrestricted runs. -/
def anyStep : σ → α → Prop := fun _ _ => True

/-- `M.Path ok s acts t`: the labels `acts` lead from `s` to `t`, and every step
meets `ok` in the state it is taken from. -/
inductive Path (ok : σ → α → Prop) : σ → List α → σ → Prop
  | nil (s : σ) : Path ok s [] s
  | cons {s t u : σ} {a : α} {acts : List α}
      (step : M.step s a t) (meets : ok s a) (rest : Path ok t acts u) :
      Path ok s (a :: acts) u

def Reaches (ok : σ → α → Prop) (acts : List α) (s : σ) : Prop :=
  ∃ s₀, M.init s₀ ∧ M.Path ok s₀ acts s

variable {M} {ok : σ → α → Prop}

theorem Path.append {s t u : σ} {as bs : List α} (first : M.Path ok s as t)
    (second : M.Path ok t bs u) : M.Path ok s (as ++ bs) u := by
  induction first with
  | nil => exact second
  | cons step meets _ ih => exact .cons step meets (ih second)

/-- What one guarded step preserves, a guarded run preserves. -/
theorem Path.preserves {P : σ → Prop}
    (keeps : ∀ s a t, P s → ok s a → M.step s a t → P t)
    {s t : σ} {acts : List α} (path : M.Path ok s acts t) (start : P s) : P t := by
  induction path with
  | nil => exact start
  | cons step meets _ ih => exact ih (keeps _ _ _ start meets step)

theorem Reaches.invariant {P : σ → Prop} (initial : ∀ s, M.init s → P s)
    (keeps : ∀ s a t, P s → ok s a → M.step s a t → P t)
    {s : σ} {acts : List α} (reached : M.Reaches ok acts s) : P s := by
  obtain ⟨s₀, start, path⟩ := reached
  exact path.preserves keeps (initial s₀ start)

theorem Reaches.extend {s t : σ} {as bs : List α} (reached : M.Reaches ok as s)
    (path : M.Path ok s bs t) : M.Reaches ok (as ++ bs) t := by
  obtain ⟨s₀, start, before⟩ := reached
  exact ⟨s₀, start, before.append path⟩

theorem Path.weaken {ok' : σ → α → Prop} (weaker : ∀ s a, ok s a → ok' s a)
    {s t : σ} {acts : List α} (path : M.Path ok s acts t) : M.Path ok' s acts t := by
  induction path with
  | nil => exact .nil _
  | cons step meets _ ih => exact .cons step (weaker _ _ meets) ih

end System

/-! ### Executable systems

A system whose steps are computed: a step is a partial function of state and
action, and the label records the output beside the action. -/

section Executable

variable {σ α ω : Type}

def System.ofStep (init : σ → Prop) (step : σ → α → Option (σ × ω)) : System σ (α × ω) where
  init := init
  step s a t := step s a.1 = some (t, a.2)

/-- Run a list of actions, checking the side condition before each step, and
collect the labels. -/
def drive (step : σ → α → Option (σ × ω)) (ok : σ → α → Bool) :
    σ → List α → Option (σ × List (α × ω))
  | s, [] => some (s, [])
  | s, a :: acts =>
    if ok s a then
      match step s a with
      | none => none
      | some (t, out) => (drive step ok t acts).map fun r => (r.1, (a, out) :: r.2)
    else none

theorem drive_of_any {step : σ → α → Option (σ × ω)} {ok : σ → α → Bool} {s : σ} {acts : List α}
    {test : σ × List (α × ω) → Bool} (passed : (drive step ok s acts).any test = true) :
    ∃ t labels, drive step ok s acts = some (t, labels) ∧ test (t, labels) = true := by
  obtain ⟨⟨t, labels⟩, driven, passes⟩ := (Option.any_eq_true _ _).mp passed
  exact ⟨t, labels, driven, passes⟩

theorem drive_path {init : σ → Prop} {step : σ → α → Option (σ × ω)} {ok : σ → α → Bool}
    {meets : σ → α × ω → Prop} (sound : ∀ s a out, ok s a = true → meets s (a, out))
    {acts : List α} {s t : σ} {labels : List (α × ω)}
    (driven : drive step ok s acts = some (t, labels)) :
    (System.ofStep init step).Path meets s labels t := by
  induction acts generalizing s labels with
  | nil =>
    simp only [drive, Option.some.injEq, Prod.mk.injEq] at driven
    obtain ⟨rfl, rfl⟩ := driven
    exact .nil _
  | cons a acts ih =>
    simp only [drive] at driven
    split at driven
    next allowed =>
      split at driven
      · cases driven
      next u out stepped =>
        simp only [Option.map_eq_some_iff, Prod.mk.injEq] at driven
        obtain ⟨⟨t', rest⟩, driven', rfl, rfl⟩ := driven
        exact .cons stepped (sound s a out allowed) (ih driven')
    · cases driven

section

variable {init : σ → Prop} {step : σ → α → Option (σ × ω)} {s : σ} {acts : List α}
  {test : σ × List (α × ω) → Bool} (M : System σ (α × ω)) (is : M = System.ofStep init step)
  (start : init s)

include is start

/-- A concrete run that passes a test is a run of the system. -/
theorem drive_anyStep (passed : (drive step (fun _ _ => true) s acts).any test = true) :
    ∃ t labels, M.Reaches System.anyStep labels t ∧ test (t, labels) = true := by
  obtain ⟨t, labels, driven, passes⟩ := drive_of_any passed
  exact ⟨t, labels, is ▸ ⟨s, start, drive_path (fun _ _ _ _ => trivial) driven⟩, passes⟩

theorem drive_meets {meets : σ → α → Prop} {_ : ∀ s a, Decidable (meets s a)}
    (passed : (drive step (fun s a => decide (meets s a)) s acts).any test = true) :
    ∃ t labels, M.Reaches (fun s label => meets s label.1) labels t ∧
      test (t, labels) = true := by
  obtain ⟨t, labels, driven, passes⟩ := drive_of_any passed
  exact ⟨t, labels, is ▸ ⟨s, start, drive_path (fun _ _ _ ok => of_decide_eq_true ok) driven⟩,
    passes⟩

end

/-- Run a list of actions of which each leads to one state at most. -/
def perform (step : σ → α → Option σ) : σ → List α → Option σ
  | s, [] => some s
  | s, a :: acts =>
    match step s a with
    | none => none
    | some t => perform step t acts

theorem perform_path {M : System σ α} {ok : σ → α → Prop} {step : σ → α → Option σ}
    (sound : ∀ s a t, step s a = some t → M.step s a t ∧ ok s a) {acts : List α} {s t : σ}
    (performed : perform step s acts = some t) : M.Path ok s acts t := by
  induction acts generalizing s with
  | nil =>
    cases performed
    exact .nil _
  | cons a acts ih =>
    unfold perform at performed
    split at performed
    next => cases performed
    next u stepped =>
      obtain ⟨taken, meets⟩ := sound s a u stepped
      exact .cons taken meets (ih performed)

end Executable

end UringDb
