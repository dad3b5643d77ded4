import UringDb.BufferMgr.Invariant

/-!
# Stability of what a fiber knows

A fiber's assertions survive the steps of the others under `Rely`: versions never go
back, a frame it refers to stays mapped or becomes committed, a locked frame stays mapped,
and nobody else writes the version or page id of a frame it owns.
-/
namespace UringDb.BufferMgr

open PageState PageTable

variable {n : Nat} {cfg : Config n} {s s' : State n}

/-- A frame that a fiber refers to goes on as that fiber expects. -/
structure Kept (cfg : Config n) (s s' : State n) (b : Nat) : Prop where
  pid : (s'.shared.frames b).pid = (s.shared.frames b).pid
  mapped : ∀ p, Mapped cfg s p b → Mapped cfg s' p b ∨ Committed s' p b
  committed : ∀ p, Committed s p b → Committed s' p b
  evicting : version s' b = version s b → (word s b).evicting = true → (word s' b).evicting = true
  sections : version s' b = version s b → ∀ p, Mapped cfg s p b → Mapped cfg s' p b →
    s'.shared.sections p = s.shared.sections p

structure Rely (cfg : Config n) (s s' : State n) (u : Fin n) : Prop where
  fiber : s'.fibers u = s.fibers u
  table : s'.shared.table.pcs u = s.shared.table.pcs u
  later : ∀ b, version s b ≤ version s' b
  kept : ∀ b, (s.fibers u).refersTo (version s b) b = true → Kept cfg s s' b
  locks : ∀ lock ∈ (s.fibers u).locks, Mapped cfg s' lock.pid lock.bid
  own : ∀ b, 0 < (s.fibers u).exclusives b ∨ b ∈ (s.fibers u).pc.owned cfg →
    version s' b = version s b ∧
      (s'.shared.frames b).pid = (s.shared.frames b).pid
  committed : ∀ p b, (s.fibers u).pc.committed = some (p, b) →
    (word s' b).evicting = true ∧ (word s' b).free = true

theorem Ref.stable {p b : Nat} (kept : Kept cfg s s' b) (known : Ref cfg s p b) :
    Ref cfg s' p b := by
  refine ⟨kept.pid.trans known.1, ?_⟩
  rcases known.2 with mapped | committed
  · exact kept.mapped p mapped
  · exact Or.inr (kept.committed p committed)

theorem Seen.stable {p b : Nat} {w : Word} {checked : Bool}
    (later : version s b ≤ version s' b) (kept : w.version = version s b → Kept cfg s s' b)
    (known : Seen cfg s p b w checked) : Seen cfg s' p b w checked := by
  refine ⟨known.1.trans later, fun current => ?_⟩
  have same : version s' b = version s b := by
    have := known.1
    omega
  have wasCurrent : w.version = version s b := by omega
  have keep := kept wasCurrent
  obtain ⟨ref, bit⟩ := known.2 wasCurrent
  refine ⟨ref.stable keep, fun set => ?_⟩
  exact ⟨(bit set).1, keep.evicting same (bit set).2⟩

theorem GuardOk.stable {g : Guard} (later : version s g.bid ≤ version s' g.bid)
    (kept : g.word.version = version s g.bid → Kept cfg s s' g.bid)
    (known : GuardOk cfg s g) : GuardOk cfg s' g := by
  refine ⟨known.1.trans later, fun current => ?_⟩
  have same : version s' g.bid = version s g.bid := by
    have := known.1
    omega
  have wasCurrent : g.word.version = version s g.bid := by omega
  have keep := kept wasCurrent
  obtain ⟨pid, place⟩ := known.2 wasCurrent
  refine ⟨keep.pid.trans pid, ?_⟩
  rcases place with ⟨mapped, stamp⟩ | committed
  · rcases keep.mapped _ mapped with still | committed
    · exact Or.inl ⟨still, (keep.sections same _ mapped still).trans stamp⟩
    · exact Or.inr committed
  · exact Or.inr (keep.committed _ committed)

section

variable {u : Fin n}

theorem Rely.kept_pc (rely : Rely cfg s s' u) {b : Nat}
    (refers : (s.fibers u).pc.refersTo (version s b) b = true) : Kept cfg s s' b :=
  rely.kept b (by simp [Fiber.refersTo, refers])

theorem Rely.kept_guard (rely : Rely cfg s s' u) {g : Guard} (member : g ∈ (s.fibers u).guards)
    (current : g.word.version = version s g.bid) : Kept cfg s s' g.bid := by
  refine rely.kept g.bid ?_
  have live : (s.fibers u).guards.any (fun guard => guard.current (version s g.bid) g.bid) = true :=
    List.any_eq_true.mpr ⟨g, member, by simp [Guard.current, current]⟩
  simp [Fiber.refersTo, live]

theorem Rely.own_lock (rely : Rely cfg s s' u) {lock : Held}
    (member : lock ∈ (s.fibers u).locks) (exclusive : lock.kind = .exclusive) :
    version s' lock.bid = version s lock.bid := by
  refine (rely.own lock.bid (Or.inl ?_)).1
  have counted : 0 < (s.fibers u).locks.countP
      (fun held => held.kind == .exclusive && held.bid == lock.bid) :=
    List.countP_pos_iff.mpr ⟨lock, member, by simp [exclusive]⟩
  unfold Fiber.exclusives
  omega

theorem PcOk.stable (rely : Rely cfg s s' u) (ok : PcOk cfg s (s.fibers u).pc) :
    PcOk cfg s' (s.fibers u).pc := by
  have kept : ∀ {b : Nat}, (s.fibers u).pc.refersTo (version s b) b = true → Kept cfg s s' b :=
    rely.kept_pc
  have locked : ∀ {lock : Held}, lock ∈ (s.fibers u).pc.locks → lock.kind = .exclusive →
      version s' lock.bid = version s lock.bid :=
    fun member kind => rely.own_lock (List.mem_append_left _ member) kind
  have own : ∀ {b : Nat}, b ∈ (s.fibers u).pc.owned cfg →
      version s' b = version s b ∧ (s'.shared.frames b).pid = (s.shared.frames b).pid :=
    fun member => rely.own _ (Or.inr member)
  have committed := rely.committed
  cases at_ : (s.fibers u).pc with
  | fixPid fx b | fixLoad fx b =>
    rw [at_] at ok kept
    refine ⟨ok.1, ?_⟩
    have target := ok.2
    unfold Fix.Target at target ⊢
    split
    next form =>
      rw [form] at target
      exact target.stable (kept (by simp [Pc.refersTo, Fix.guard, form]))
    next form =>
      rw [form] at target
      exact target
  | fixPidAgain fx b w | fixIo fx b w | fixEvicting fx b w | fixLock fx b w =>
    rw [at_] at ok kept
    exact ⟨ok.1, ok.2.stable (rely.later b) (fun current => kept (by simp [Pc.refersTo, current]))⟩
  | optPid p b | optIo p b | optEvicting p b | optLoad p b =>
    rw [at_] at ok kept
    exact Ref.stable (kept (by simp [Pc.refersTo])) ok
  | optMark p b w =>
    rw [at_] at ok kept
    exact ⟨Ref.stable (kept (by simp [Pc.refersTo])) ok.1, ok.2⟩
  | optPidAgain g =>
    rw [at_] at ok kept
    exact GuardOk.stable (rely.later _)
      (fun current => kept (by simp [Pc.refersTo, Guard.current, current])) ok
  | evPid ev sw p b | evMode ev sw p b | evIo ev sw p b m | evEvicting ev sw p b m
  | evMarkLoad ev sw p b | evMarkCas ev sw p b w | evSet ev sw p b | evDirty ev sw p b
  | evClean ev sw p b =>
    rw [at_] at ok kept
    exact Ref.stable (kept (by simp [Pc.refersTo])) ok
  | unfixXStore lock w =>
    rw [at_] at ok locked
    exact ⟨ok.1, ok.2.trans (locked (by simp [Pc.locks]) ok.1).symm⟩
  | readStore p b c w =>
    rw [at_] at ok locked
    have same : version s' b = version s b := locked (by simp [Pc.locks] :
      (⟨.exclusive, p, b⟩ : Held) ∈ _) rfl
    exact Eq.trans ok same.symm
  | rebindStore setup b w | loseStore p b c w =>
    rw [at_] at ok own
    exact Eq.trans ok (own (by simp [Pc.owned])).1.symm
  | insert setup b =>
    rw [at_] at ok own
    exact (own (by simp [Pc.owned])).2.trans ok
  | evCollapse ev ph b p rest | evPost ev ph b p rest =>
    rw [at_] at ok own committed
    exact ⟨(own (by simp [Pc.owned])).2.trans ok.1, committed p b rfl⟩
  | _ =>
    rw [at_] at ok
    exact ok

theorem FiberOk.stable (rely : Rely cfg s s' u) (ok : FiberOk cfg s u) : FiberOk cfg s' u where
  pc := by
    rw [rely.fiber]
    exact ok.pc.stable rely
  agree := by
    rw [rely.fiber, rely.table]
    exact ok.agree
  handed := by
    rw [rely.fiber]
    exact ok.handed
  alone := by
    rw [rely.fiber]
    exact ok.alone
  guards := by
    rw [rely.fiber]
    intro g member
    exact (ok.guards g member).stable (rely.later _) (rely.kept_guard member)
  locks := by
    rw [rely.fiber]
    exact rely.locks

end

/-- One fiber steps: the others rely on it, and it establishes its own assertion. -/
theorem Inv.next {f : Fin n} (inv : Inv cfg s)
    (table : PageTable.Inv cfg.table s'.shared.table)
    (mapped : ∀ p b, Mapped cfg s' p b → (s'.shared.frames b).pid = p)
    (fewer : ∀ b, places cfg s' b ≤ places cfg s b)
    (locks : ∀ b, LockOk s' b) (others : ∀ u, u ≠ f → Rely cfg s s' u)
    (own : FiberOk cfg s' f) : Inv cfg s' where
  table := table
  mapped := mapped
  once := fun b => (fewer b).trans (inv.once b)
  locks := locks
  fibers := fun u => by
    by_cases same : u = f
    · exact same ▸ own
    · exact (inv.fibers u).stable (others u same)

end UringDb.BufferMgr
