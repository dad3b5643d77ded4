import UringDb.Shuffle.Filling

/-!
# The scan

What the scan loops of both workers do to tuples, fill buffers and budgets, without the
connections: a machine whose steps the workers' steps are made of. In every state of it, the
tuples scanned for a partition are those in the buffers handed over and in the fill buffer, until
a buffer that is not full is handed over behind the scan. A target's budget counts the buffers
received from it and those handed to it.
-/
namespace UringDb.Shuffle

variable {N : TupleSize} {cfg : Config}

structure Scan (N : TupleSize) where
  core : Core N
  morsels : Morsels N
  /-- The tuples of the current morsel that are still to come. -/
  rest : List (Tuple N)
  /-- The target whose full buffer is to be handed over. -/
  target : Option Nat
  /-- The target whose budget is still to be charged. -/
  owed : Option Nat
  scanning : Bool

namespace Scan

inductive Advance (cfg : Config) : Scan N → Scan N → Prop
  | quiet {s : Scan N} {core : Core N} (same : Core.Quiet cfg s.core core) :
      Advance cfg s { s with core }
  | morsel {core : Core N} {ms later : Morsels N} {m : List (Tuple N)}
      (next : ms.next = some (m, later)) :
      Advance cfg ⟨core, ms, [], none, none, true⟩ ⟨core, later, m, none, none, true⟩
  | leave {core : Core N} {ms : Morsels N} (next : ms.next = none) :
      Advance cfg ⟨core, ms, [], none, none, true⟩ ⟨core, ms, [], none, none, false⟩
  | scanLocal {core : Core N} {ms : Morsels N} {t : Tuple N} {rest : List (Tuple N)}
      (own : partitionOf cfg t = cfg.myId) :
      Advance cfg ⟨core, ms, t :: rest, none, none, true⟩
        ⟨core.scanLocal cfg t, ms, rest, none, none, true⟩
  | fill {core after : Core N} {ms : Morsels N} {t : Tuple N} {rest : List (Tuple N)}
      (filled : core.fill (partitionOf cfg t) t = some after) :
      Advance cfg ⟨core, ms, t :: rest, none, none, true⟩
        ⟨after, ms, rest,
          if after.fillFull (partitionOf cfg t) then some (partitionOf cfg t) else none, none, true⟩
  | hand {core after : Core N} {ms : Morsels N} {rest : List (Tuple N)} {p c : Nat}
      (passed : core.hand p c = some after) :
      Advance cfg ⟨core, ms, rest, some p, none, true⟩ ⟨after, ms, rest, none, some p, true⟩
  | charge {core : Core N} {ms : Morsels N} {rest : List (Tuple N)} {p : Nat} :
      Advance cfg ⟨core, ms, rest, none, some p, true⟩
        ⟨core.charge cfg p, ms, rest, none, none, true⟩
  | flush {core after : Core N} {ms : Morsels N} {p c : Nat}
      (passed : core.hand p c = some after) :
      Advance cfg ⟨core, ms, [], none, none, false⟩ ⟨after, ms, [], none, none, false⟩

/-- Any number of steps. -/
abbrev Advances (cfg : Config) : Scan N → Scan N → Prop := Relation.ReflTransGen (Advance cfg)

/-! ### The invariant -/

/-- How full the fill buffer of a partition is. -/
def Room (s : Scan N) (p : Nat) : Prop :=
  if s.target = some p then (s.core.filling p).length = N.perBuffer
  else (s.core.filling p).length < N.perBuffer

/-- What holds of a remote partition behind the scan. -/
def Closing (cfg : Config) (s : Core N) (p : Nat) : Prop :=
  Core.Open cfg s p ∧ (s.filling p).length < N.perBuffer ∨ Core.Padded cfg s p

structure Inv (cfg : Config) (all : List (Tuple N)) (s : Scan N) : Prop where
  tuples : s.core.scanned ++ (s.rest ++ s.morsels.list.flatten) = all
  past : s.scanning = false → s.rest = [] ∧ s.morsels.list = []
  scan : s.scanning = true → ∀ p, p ≠ cfg.myId → Core.Open cfg s.core p ∧ s.Room p
  final : s.scanning = false → ∀ p, p ≠ cfg.myId → Closing cfg s.core p
  credit : cfg.useBudget = true → cfg.recvZc = false → s.scanning = true →
    ∀ p, s.core.budget p - s.core.buffersIn p =
      2 - (s.core.handed p).length + if s.owed = some p then 1 else 0

variable {all : List (Tuple N)} {s t : Scan N}

theorem Closing.congr {s t : Core N} {p : Nat} (state : Closing cfg s p)
    (same : Core.SameFill s t) : Closing cfg t p := by
  rcases state with ⟨opened, room⟩ | padded
  · exact Or.inl ⟨opened.congr same, by rwa [same.filling]⟩
  · exact Or.inr (padded.congr same)

theorem Closing.hand {s t : Core N} {p q c : Nat} {buf : OutputBuffer N}
    (state : Closing cfg s q) (handed : Core.Handed s p c t buf) : Closing cfg t q := by
  rcases state with ⟨opened, room⟩ | padded
  · by_cases here : q = p
    · subst here
      exact Or.inr (opened.pad handed room)
    · refine Or.inl ⟨opened.hand_other handed here, ?_⟩
      rwa [(handed.other q here).1]
  · exact Or.inr (padded.hand_other handed)

theorem Inv.quiet {core : Core N} (inv : Inv cfg all s) (same : Core.Quiet cfg s.core core) :
    Inv cfg all { s with core } where
  tuples := by
    dsimp only
    rw [same.scanned]
    exact inv.tuples
  past := inv.past
  scan scanning p remote := by
    obtain ⟨opened, room⟩ := inv.scan scanning p remote
    refine ⟨opened.congr same.toSameFill, ?_⟩
    unfold Room
    dsimp only
    rw [same.filling]
    exact room
  final past p remote := (inv.final past p remote).congr same.toSameFill
  credit budgets plain scanning p := by
    dsimp only
    rw [same.credit budgets plain, same.handed]
    exact inv.credit budgets plain scanning p

theorem Inv.fill {core after : Core N} {ms : Morsels N} {tuple : Tuple N} {rest : List (Tuple N)}
    (inv : Inv cfg all ⟨core, ms, tuple :: rest, none, none, true⟩)
    (filled : core.fill (partitionOf cfg tuple) tuple = some after) :
    Inv cfg all ⟨after, ms, rest,
      if after.fillFull (partitionOf cfg tuple) then some (partitionOf cfg tuple) else none,
      none, true⟩ := by
  have spec := Core.fill_spec filled
  constructor
  · rw [← inv.tuples, spec.scanned]
    exact List.append_assoc _ [tuple] _
  · exact fun past => by cases past
  · intro _ p remote
    obtain ⟨opened, room⟩ := inv.scan rfl p remote
    have room : (core.filling p).length < N.perBuffer := room
    refine ⟨opened.fill rfl spec, ?_⟩
    unfold Room
    dsimp only
    -- only the buffer that was written to can have become full
    by_cases mine : p = partitionOf cfg tuple
    · have one : (after.filling p).length = (core.filling p).length + 1 := by
        rw [mine, spec.self, List.length_append, List.length_singleton]
      by_cases full : after.fillFull (partitionOf cfg tuple) = true
      · rw [if_pos full, if_pos (congrArg some mine.symm)]
        rw [Core.fillFull_iff, ← mine] at full
        exact full
      · rw [if_neg full, if_neg (Option.some_ne_none p).symm, one]
        rw [Core.fillFull_iff, ← mine, one] at full
        exact Nat.lt_of_le_of_ne room full
    · have other :
          (if after.fillFull (partitionOf cfg tuple) = true then some (partitionOf cfg tuple)
            else none) ≠ some p := by
        split
        · exact fun same => mine (Option.some.inj same).symm
        · exact (Option.some_ne_none p).symm
      rw [if_neg other, (spec.other p mine).1]
      exact room
  · exact fun past => by cases past
  · intro budgets plain _ p
    dsimp only
    rw [spec.budget, spec.buffersIn, spec.handed]
    exact inv.credit budgets plain rfl p

theorem Inv.hand {core after : Core N} {ms : Morsels N} {rest : List (Tuple N)} {p c : Nat}
    (inv : Inv cfg all ⟨core, ms, rest, some p, none, true⟩)
    (passed : core.hand p c = some after) :
    Inv cfg all ⟨after, ms, rest, none, some p, true⟩ := by
  obtain ⟨buf, spec⟩ := Core.hand_spec passed
  constructor
  · rw [← inv.tuples, spec.scanned]
  · exact fun past => by cases past
  · intro _ q remote
    obtain ⟨opened, room⟩ := inv.scan rfl q remote
    unfold Room at room
    by_cases mine : q = p
    · subst mine
      rw [if_pos rfl] at room
      refine ⟨opened.hand_full spec room, ?_⟩
      have empty : (after.filling q).length < N.perBuffer := by
        rw [Core.filling_of_vacant spec.vacant]
        exact N.perBuffer_pos
      exact empty
    · rw [if_neg fun same => mine (Option.some.inj same).symm] at room
      refine ⟨opened.hand_other spec mine, ?_⟩
      have kept : (after.filling q).length < N.perBuffer := by
        rw [(spec.other q mine).1]
        exact room
      exact kept
  · exact fun past => by cases past
  · intro budgets plain _ q
    have before := inv.credit budgets plain rfl q
    dsimp only at before ⊢
    rw [if_neg (Option.some_ne_none q).symm] at before
    rw [spec.budget, spec.buffersIn, before, spec.handed]
    by_cases mine : q = p
    · subst mine
      rw [Function.update_self, List.length_append, List.length_singleton, if_pos rfl]
      push_cast
      ring
    · rw [Function.update_of_ne mine, if_neg fun same => mine (Option.some.inj same).symm]

theorem Inv.charge {core : Core N} {ms : Morsels N} {rest : List (Tuple N)} {p : Nat}
    (inv : Inv cfg all ⟨core, ms, rest, none, some p, true⟩) :
    Inv cfg all ⟨core.charge cfg p, ms, rest, none, none, true⟩ := by
  constructor
  · exact inv.tuples
  · exact fun past => by cases past
  · intro _ q remote
    obtain ⟨opened, room⟩ := inv.scan rfl q remote
    exact ⟨opened.congr ⟨rfl, rfl, fun _ => rfl, fun _ _ _ => rfl⟩, room⟩
  · exact fun past => by cases past
  · intro budgets plain _ q
    have before := inv.credit budgets plain rfl q
    dsimp only [Core.charge] at before ⊢
    rw [if_pos budgets, if_neg (Option.some_ne_none q).symm]
    by_cases mine : q = p
    · subst mine
      rw [if_pos rfl] at before
      rw [Function.update_self]
      linarith
    · rw [if_neg fun same => mine (Option.some.inj same).symm] at before
      rw [Function.update_of_ne mine]
      exact before

theorem Inv.morsel {core : Core N} {ms later : Morsels N} {m : List (Tuple N)}
    (inv : Inv cfg all ⟨core, ms, [], none, none, true⟩) (next : ms.next = some (m, later)) :
    Inv cfg all ⟨core, later, m, none, none, true⟩ where
  tuples := by
    have tuples := inv.tuples
    dsimp only at tuples
    rw [Morsels.list_of_next next] at tuples
    exact tuples
  past past := by cases past
  scan := inv.scan
  final past := by cases past
  credit := inv.credit

theorem Inv.leave {core : Core N} {ms : Morsels N}
    (inv : Inv cfg all ⟨core, ms, [], none, none, true⟩) (next : ms.next = none) :
    Inv cfg all ⟨core, ms, [], none, none, false⟩ where
  tuples := inv.tuples
  past _ := ⟨rfl, Morsels.list_of_next_none next⟩
  scan scanning := by cases scanning
  final _ p remote := Or.inl (inv.scan rfl p remote)
  credit _ _ scanning := by cases scanning

theorem Inv.scanLocal {core : Core N} {ms : Morsels N} {tuple : Tuple N} {rest : List (Tuple N)}
    (inv : Inv cfg all ⟨core, ms, tuple :: rest, none, none, true⟩)
    (own : partitionOf cfg tuple = cfg.myId) :
    Inv cfg all ⟨core.scanLocal cfg tuple, ms, rest, none, none, true⟩ where
  tuples := by
    rw [← inv.tuples]
    exact List.append_assoc _ [tuple] _
  past past := by cases past
  scan _ p remote := by
    obtain ⟨opened, room⟩ := inv.scan rfl p remote
    exact ⟨opened.scanLocal fun mine => remote (mine.symm.trans own), room⟩
  final past := by cases past
  credit := inv.credit

theorem Inv.flush {core after : Core N} {ms : Morsels N} {p c : Nat}
    (inv : Inv cfg all ⟨core, ms, [], none, none, false⟩) (passed : core.hand p c = some after) :
    Inv cfg all ⟨after, ms, [], none, none, false⟩ := by
  obtain ⟨buf, spec⟩ := Core.hand_spec passed
  constructor
  · rw [← inv.tuples, spec.scanned]
  · exact inv.past
  · exact fun scanning => by cases scanning
  · exact fun past q remote => (inv.final past q remote).hand spec
  · exact fun _ _ scanning => by cases scanning

/-- **One step** keeps the invariant. -/
theorem Inv.advance (inv : Inv cfg all s) (step : Advance cfg s t) : Inv cfg all t := by
  cases step with
  | quiet same => exact inv.quiet same
  | morsel next => exact inv.morsel next
  | leave next => exact inv.leave next
  | scanLocal own => exact inv.scanLocal own
  | fill filled => exact inv.fill filled
  | hand passed => exact inv.hand passed
  | charge => exact inv.charge
  | flush passed => exact inv.flush passed

/-- **A run** keeps it. -/
theorem Inv.advances (inv : Inv cfg all s) (steps : Advances cfg s t) : Inv cfg all t := by
  induction steps with
  | refl => exact inv
  | tail _ step ih => exact ih.advance step

theorem inv_new (cfg : Config) (ms : Morsels N) (done : ConnId → Bool) :
    Inv cfg ms.list.flatten ⟨Core.new N done, ms, [], none, none, true⟩ where
  tuples := rfl
  past past := by cases past
  scan _ p _ := ⟨Core.open_new cfg done p, N.perBuffer_pos⟩
  final past := by cases past
  credit _ _ _ _ := rfl

/-! ### What follows -/

theorem Inv.scanned (inv : Inv cfg all s) (past : s.scanning = false) : s.core.scanned = all := by
  obtain ⟨rest, morsels⟩ := inv.past past
  have tuples := inv.tuples
  rw [rest, morsels, List.flatten_nil, List.append_nil, List.append_nil] at tuples
  exact tuples

/-- **Behind the scan**, what was handed over for a partition is what was scanned for it exactly
if the tuples fill whole buffers. -/
theorem Inv.sent_perm_iff (inv : Inv cfg all s) (past : s.scanning = false) {p : Nat}
    (remote : p ≠ cfg.myId) :
    (s.core.sentTuples p).Perm ((tuplesFor cfg all p).map Tuple.bytes) ↔
      N.perBuffer ∣ (tuplesFor cfg all p).length := by
  have same : s.core.scannedFor cfg p = tuplesFor cfg all p := by
    rw [Core.scannedFor, inv.scanned past]
  rw [← same]
  exact Core.sentTuples_perm_iff (inv.final past p remote)

end Scan

end UringDb.Shuffle
