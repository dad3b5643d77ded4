import UringDb.BufferMgr.Change

/-!
# Candidates of an eviction

Between the step that sets the EvictingBit of a frame and the step that erases its entry
the frame is a candidate. As long as sweeps set the bit only on unlocked frames that are
nobody's candidate, a candidate stays mapped, protected and unlocked, it is the candidate
of one evictor only, and once it has been examined it stays clean.
-/
namespace UringDb.BufferMgr

open PageState PageTable

variable {n : Nat}

section

variable (cfg : Config n) (s : State n)

def jobOf (u : Fin n) : Job := (s.fibers u).pc.job cfg

/-- What is asked of a step: a page-table step is undisturbed; `set_evicting` is applied to a
frame that is not locked and that no running `evict()` has as a candidate; and when
`postcommit` clears the bit, no other fiber holds the frame. -/
def Cautious (f : Fin n) : Pc → Prop
  | .evSet _ _ _ b => (word s b).free = true ∧ ∀ u, b ∉ (jobOf cfg s u).claims
  | .evPost _ _ b _ _ => ∀ u, u ≠ f → (s.fibers u).refersTo (version s b) b = false
  | _ => True

def Careful : Act n → Prop
  | .step f _ =>
    (∀ answer, Undisturbed cfg.table s.shared.table (.step f answer)) ∧
      Cautious cfg s f (s.fibers f).pc
  | _ => True

instance (f : Fin n) (pc : Pc) : Decidable (Cautious cfg s f pc) := by
  apply @Pc.casesOn (fun pc => Decidable (Cautious cfg s f pc)) pc
  case evSet => exact fun _ _ _ _ => inferInstanceAs (Decidable (_ ∧ ∀ u, _ ∉ _))
  case evPost => exact fun _ _ _ _ _ => inferInstanceAs (Decidable (∀ u, u ≠ f → _ = false))
  all_goals
    intros
    exact inferInstanceAs (Decidable True)

instance (act : Act n) : Decidable (Careful cfg s act) :=
  match act with
  | .step f _ =>
    inferInstanceAs (Decidable ((∀ answer, Undisturbed cfg.table s.shared.table (.step f answer)) ∧
      Cautious cfg s f (s.fibers f).pc))
  | .call _ _ => isTrue trivial
  | .initWorker _ => isTrue trivial
  | .shutdownWorker _ => isTrue trivial

structure Protected (b : Nat) : Prop where
  mapped : ∃ p, Mapped cfg s p b
  evicting : (word s b).evicting = true
  free : (word s b).free = true

structure Claims : Prop where
  protected_ : ∀ u, ∀ b ∈ (jobOf cfg s u).fresh ++ (jobOf cfg s u).chosen, Protected cfg s b
  clean : ∀ u, ∀ b ∈ (jobOf cfg s u).chosen, (word s b).dirty = false
  apart : ∀ b, ∑ u, (jobOf cfg s u).claims.count b ≤ 1
  writes : ∀ u, (∀ b ∈ (jobOf cfg s u).unissued, b ∈ (jobOf cfg s u).chosen) ∧
    ∀ wr ∈ (jobOf cfg s u).pending, wr.bid ∈ (jobOf cfg s u).chosen

end

variable {cfg : Config n} {s : State n} {f : Fin n} {r : Result n}

/-! ### One frame is one evictor's candidate -/

theorem mem_claims {job : Job} {b : Nat} :
    b ∈ job.claims ↔ b ∈ job.fresh ∨ b ∈ job.chosen ∨ b ∈ job.retiring := by
  simp [Job.claims]

theorem Claims.unique (claims : Claims cfg s) {u v : Fin n} {b : Nat}
    (first : b ∈ (jobOf cfg s u).claims) (second : b ∈ (jobOf cfg s v).claims) : u = v := by
  by_contra ne
  have both := add_le_sum (fun u => (jobOf cfg s u).claims.count b) ne
  have once := claims.apart b
  have h1 := List.count_pos_iff.mpr first
  have h2 := List.count_pos_iff.mpr second
  omega

theorem Claims.once (claims : Claims cfg s) (u : Fin n) (b : Nat) :
    (jobOf cfg s u).claims.count b ≤ 1 :=
  (le_sum (fun u => (jobOf cfg s u).claims.count b) u).trans (claims.apart b)

theorem committed_retiring {pc : Pc} {p b : Nat} (at_ : pc.committed = some (p, b)) :
    b ∈ (pc.job cfg).retiring := by
  cases pc <;> cases at_ <;> simp [Pc.job, Eviction.erasing]

theorem Claims.sound {act : Act n} (claims : Claims cfg s) (careful : Careful cfg s act) :
    Sound cfg s act := by
  cases act with
  | step f choice =>
    obtain ⟨undisturbed, cautious⟩ := careful
    refine ⟨undisturbed, ?_⟩
    cases at_ : (s.fibers f).pc with
    | evErase ev ph b p rest =>
      intro _
      have chosen : b ∈ (jobOf cfg s f).chosen := by
        rw [jobOf, at_]
        exact List.mem_cons_self
      have safe := claims.protected_ f b (List.mem_append_right _ chosen)
      exact ⟨safe.evicting, safe.free⟩
    | evPost ev ph b p rest =>
      rw [at_] at cautious
      exact cautious
    | _ => trivial
  | _ => trivial

/-! ### Steps keep protected frames -/

theorem mapped_of_grows {sh : Shared n} {fib : Fiber}
    (grows : Grows s f sh) {p b : Nat} (mapped : Mapped cfg s p b) :
    Mapped cfg (s.after f sh fib) p b := by
  obtain ⟨i, inRange, entry⟩ := mapped
  exact ⟨i, inRange, grows.entry entry⟩

/-- The state word of a protected frame after a change. -/
def StaysSafe (w w' : Word) : Prop :=
  w'.evicting = true ∧ w'.free = true ∧ (w.dirty = false → w'.dirty = false)

theorem Protected.staysSafe {b : Nat} (safe : Protected cfg s b) {frames : Nat → Frame}
    (same : (frames b).state = word s b) : StaysSafe (word s b) (frames b).state := by
  rw [same]
  exact ⟨safe.evicting, safe.free, id⟩

theorem setState_state (sh : Shared n) (c b : Nat) (w : Word) :
    ((sh.setState c w).frames b).state = if b = c then w else (sh.frames b).state := by
  by_cases here : b = c
  · subst here
    simp
  · simp [here, setState_frames_ne _ _ _ here]

theorem setFrame_state (sh : Shared n) (c b : Nat) (frame : Frame) :
    ((sh.setFrame c frame).frames b).state = if b = c then frame.state else (sh.frames b).state := by
  by_cases here : b = c
  · subst here
    simp
  · simp [here, setFrame_ne _ _ _ here]

/-- No step unprotects, locks or dirties a protected frame. -/
theorem Change.staysSafe (inv : Inv cfg s) (change : Change cfg s f r) {b : Nat}
    (safe : Protected cfg s b) : StaysSafe (word s b) (r.shared.frames b).state := by
  obtain ⟨p, mapped⟩ := safe.mapped
  have same : r.shared.frames = s.shared.frames → StaysSafe (word s b) (r.shared.frames b).state :=
    fun frames => safe.staysSafe (by rw [frames, word])
  cases change with
  | quiet frames | settle _ _ _ _ frames | issue _ _ _ _ _ frames | giveUp _ _ _ _ _ frames
  | release _ _ _ _ _ _ frames | done _ _ frames =>
    exact same frames
  | fixed _ _ _ shared | validated _ _ shared | aim _ _ _ _ _ shared => exact same (by rw [shared])
  | lock _ c w _ at_ _ here frames =>
    -- the compare-and-swap expects a word without the bit
    rw [frames, setState_state]
    split
    next this =>
      subst this
      have current : w.version = version s b := by rw [← here]; rfl
      have unchecked := ((inv.ok_at at_).2.2 current).2 (here ▸ safe.evicting)
      cases unchecked.1
    next => exact safe.staysSafe rfl
  | mark _ _ _ stays frames =>
    rw [frames, setState_state]
    split
    next this =>
      subst this
      exact ⟨safe.evicting, (free_iff _).mpr stays, id⟩
    next => exact safe.staysSafe rfl
  | unlockS lock _ at_ _ frames =>
    have member : lock ∈ (s.fibers f).locks := by simp [Fiber.locks, at_, Pc.locks]
    rw [frames, setState_state, if_neg (inv.unlocked safe.free f member).symm]
    exact safe.staysSafe rfl
  | holder _ _ member _ _ frames =>
    rw [frames, setFrame_state, if_neg (inv.unlocked safe.free f member).symm]
    exact safe.staysSafe rfl
  | owner c _ member _ _ frames =>
    have ne : b ≠ c := by
      rintro rfl
      exact inv.mapped_not_owned mapped f member
    rw [frames, setFrame_state, if_neg ne]
    exact safe.staysSafe rfl
  | claim _ _ _ _ _ frames =>
    rw [frames, setState_state]
    split
    next this =>
      subst this
      exact ⟨rfl, safe.free, id⟩
    next => exact safe.staysSafe rfl
  | clean _ _ _ frames =>
    rw [frames, setState_state]
    split
    next this =>
      subst this
      exact ⟨safe.evicting, safe.free, fun _ => rfl⟩
    next => exact safe.staysSafe rfl
  | complete _ _ _ _ _ _ frames =>
    refine safe.staysSafe ?_
    rw [frames]
    unfold Shared.stored
    split
    · rw [setFrame_state]
      split
      next this => rw [this, word]
      next => rfl
    · rfl
  | retire _ _ c q _ at_ frames =>
    have ne : b ≠ c := by
      rintro rfl
      refine inv.mapped_not_owned mapped f (committed_owned (p := q) ?_)
      rw [at_]
      rfl
    rw [frames, setState_state, if_neg ne]
    exact safe.staysSafe rfl

theorem Protected.after {b : Nat} {fib : Fiber} (safe : Protected cfg s b)
    (grows : Grows s f r.shared)
    (stays : StaysSafe (word s b) (r.shared.frames b).state) :
    Protected cfg (s.after f r.shared fib) b where
  mapped := safe.mapped.imp fun _ => mapped_of_grows grows
  evicting := stays.1
  free := stays.2.1

/-! ### Steps keep the claims apart -/

theorem jobOf_self (sh : Shared n) (fib : Fiber) : jobOf cfg (s.after f sh fib) f = fib.pc.job cfg := by
  rw [jobOf, after_self]

theorem jobOf_ne (sh : Shared n) (fib : Fiber) {u : Fin n} (ne : u ≠ f) :
    jobOf cfg (s.after f sh fib) u = jobOf cfg s u := by
  rw [jobOf, after_ne _ _ _ _ ne, jobOf]

theorem Claims.next (claims : Claims cfg s)
    (others : ∀ b, (∃ u, u ≠ f ∧ b ∈ (jobOf cfg s u).fresh ++ (jobOf cfg s u).chosen) →
      Protected cfg s b → Protected cfg (s.after f r.shared r.fiber) b ∧
        ((word s b).dirty = false → (r.shared.frames b).state.dirty = false))
    (own : ∀ b ∈ (r.fiber.pc.job cfg).fresh ++ (r.fiber.pc.job cfg).chosen,
      Protected cfg (s.after f r.shared r.fiber) b)
    (clean : ∀ b ∈ (r.fiber.pc.job cfg).chosen, (r.shared.frames b).state.dirty = false)
    (apart : ∀ b, (r.fiber.pc.job cfg).claims.count b ≤ (jobOf cfg s f).claims.count b ∨
      ((r.fiber.pc.job cfg).claims.count b ≤ 1 ∧ ∀ u, b ∉ (jobOf cfg s u).claims))
    (writes : (∀ b ∈ (r.fiber.pc.job cfg).unissued, b ∈ (r.fiber.pc.job cfg).chosen) ∧
      ∀ wr ∈ (r.fiber.pc.job cfg).pending, wr.bid ∈ (r.fiber.pc.job cfg).chosen) :
    Claims cfg (s.after f r.shared r.fiber) := by
  have keeps : ∀ u, u ≠ f → ∀ b ∈ (jobOf cfg s u).fresh ++ (jobOf cfg s u).chosen,
      Protected cfg (s.after f r.shared r.fiber) b ∧
        ((word s b).dirty = false → (r.shared.frames b).state.dirty = false) := fun u ne b member =>
    others b ⟨u, ne, member⟩ (claims.protected_ u b member)
  refine ⟨fun u b member => ?_, fun u b member => ?_, fun b => ?_, fun u => ?_⟩
  · by_cases self : u = f
    · subst self
      rw [jobOf_self] at member
      exact own b member
    · rw [jobOf_ne _ _ self] at member
      exact (keeps u self b member).1
  · by_cases self : u = f
    · subst self
      rw [jobOf_self] at member
      exact clean b member
    · rw [jobOf_ne _ _ self] at member
      exact (keeps u self b (List.mem_append_right _ member)).2 (claims.clean u b member)
  · have sum := sum_after s f r.shared r.fiber fun fib => (fib.pc.job cfg).claims.count b
    have once := claims.apart b
    unfold jobOf at once ⊢
    rcases apart b with less | ⟨one, unclaimed⟩
    · unfold jobOf at less
      omega
    · have none : ∑ u, ((s.fibers u).pc.job cfg).claims.count b = 0 :=
        Finset.sum_eq_zero fun u _ => List.count_eq_zero.mpr (unclaimed u)
      omega
  · by_cases self : u = f
    · subst self
      rw [jobOf_self]
      exact writes
    · rw [jobOf_ne _ _ self]
      exact claims.writes u

theorem Claims.shrink {job job' : Job} (inv : Inv cfg s) (claims : Claims cfg s)
    (grows : Grows s f r.shared) (change : Change cfg s f r) (before : jobOf cfg s f = job)
    (now : r.fiber.pc.job cfg = job') (fewer : ∀ b, job'.claims.count b ≤ job.claims.count b)
    (fresh : job'.fresh ⊆ job.fresh) (chosen : job'.chosen ⊆ job.chosen)
    (writes : job'.unissued ⊆ job'.chosen ∧ ∀ wr ∈ job'.pending, wr.bid ∈ job'.chosen) :
    Claims cfg (s.after f r.shared r.fiber) := by
  subst before now
  have stays := fun {b} (safe : Protected cfg s b) => change.staysSafe inv safe
  refine claims.next (fun b _ safe => ⟨safe.after grows (stays safe), (stays safe).2.2⟩)
    (fun b member => ?_) (fun b member => ?_) (fun b => Or.inl (fewer b)) writes
  · have old : b ∈ (jobOf cfg s f).fresh ++ (jobOf cfg s f).chosen := by
      rcases List.mem_append.mp member with first | second
      · exact List.mem_append_left _ (fresh first)
      · exact List.mem_append_right _ (chosen second)
    have safe := claims.protected_ f b old
    exact safe.after grows (stays safe)
  · have old := chosen member
    have safe := claims.protected_ f b (List.mem_append_right _ old)
    exact (stays safe).2.2 (claims.clean f b old)

theorem Claims.keep (inv : Inv cfg s) (claims : Claims cfg s)
    (grows : Grows s f r.shared) (change : Change cfg s f r)
    (same : r.fiber.pc.job cfg = (s.fibers f).pc.job cfg) :
    Claims cfg (s.after f r.shared r.fiber) :=
  claims.shrink inv grows change rfl same (fun _ => le_refl _) (List.Subset.refl _)
    (List.Subset.refl _) (claims.writes f)

/-- The job past its writes only gives frames up. -/
theorem Claims.shed {job job' : Job} (inv : Inv cfg s) (claims : Claims cfg s)
    (grows : Grows s f r.shared) (change : Change cfg s f r) (before : jobOf cfg s f = job)
    (now : r.fiber.pc.job cfg = job')
    (written : job'.fresh = [] ∧ job'.unissued = [] ∧ job'.pending = [])
    (fewer : ∀ b, job'.claims.count b ≤ job.claims.count b) (chosen : job'.chosen ⊆ job.chosen) :
    Claims cfg (s.after f r.shared r.fiber) := by
  obtain ⟨fresh, unissued, pending⟩ := written
  refine claims.shrink inv grows change before now fewer ?_ chosen ⟨?_, ?_⟩
  · rw [fresh]
    exact List.nil_subset _
  · rw [unissued]
    exact List.nil_subset _
  · simp [pending]

theorem Claims.claim {ev : Eviction} {sw : Sweep} {p b : Nat} (inv : Inv cfg s)
    (claims : Claims cfg s) (grows : Grows s f r.shared)
    (change : Change cfg s f r) (at_ : (s.fibers f).pc = .evSet ev sw p b)
    (cautious : (word s b).free = true ∧ ∀ u, b ∉ (jobOf cfg s u).claims)
    (frames : r.shared.frames = (s.shared.setState b { word s b with evicting := true }).frames)
    (next : r.fiber.pc = .evDirty ev sw p b) : Claims cfg (s.after f r.shared r.fiber) := by
  have stays := fun {b} (safe : Protected cfg s b) => change.staysSafe inv safe
  have before : jobOf cfg s f = ev.sweeping [] := by rw [jobOf, at_]; rfl
  have now : r.fiber.pc.job cfg = ev.sweeping [b] := by rw [next]; rfl
  have here : r.shared.frames b = { s.shared.frames b with
      state := { word s b with evicting := true } } := by
    rw [frames]
    simp
  have mapped : Mapped cfg s p b := by
    rcases (inv.ok_at at_).2 with mapped | ⟨u, at_u⟩
    · exact mapped
    · exact absurd (mem_claims.mpr (Or.inr (Or.inr (committed_retiring at_u)))) (cautious.2 u)
  have old : ∀ c ∈ ev.selected, Protected cfg s c := fun c member =>
    claims.protected_ f c (by rw [before]; exact member)
  refine claims.next (fun c _ safe => ⟨safe.after grows (stays safe), (stays safe).2.2⟩)
    (fun c member => ?_) (fun c member => ?_) (fun c => ?_) ?_
  · rw [now] at member
    rcases List.mem_cons.mp member with rfl | chosen
    · refine ⟨⟨p, mapped_of_grows grows mapped⟩, ?_, ?_⟩
      · rw [word, after_shared, here]
      · rw [word, after_shared, here]
        exact cautious.1
    · exact (old c chosen).after grows (stays (old c chosen))
  · rw [now] at member
    refine (stays (old c member)).2.2 (claims.clean f c ?_)
    rw [before]
    exact member
  · rw [now, before]
    by_cases this : c = b
    · subst this
      right
      have none := List.count_eq_zero.mpr (cautious.2 f)
      rw [before] at none
      refine ⟨?_, cautious.2⟩
      simp only [Job.claims, Eviction.sweeping, List.append_nil, List.nil_append, List.cons_append,
        List.count_cons_self] at none ⊢
      omega
    · left
      simp [Job.claims, Eviction.sweeping, Ne.symm this]
  · rw [now]
    have writes := claims.writes f
    rw [before] at writes
    exact writes

theorem Claims.select {ev ev' : Eviction} {b : Nat} (inv : Inv cfg s)
    (claims : Claims cfg s) (grows : Grows s f r.shared)
    (change : Change cfg s f r) (job : (s.fibers f).pc.job cfg = ev.sweeping [b])
    (job' : r.fiber.pc.job cfg = ev'.sweeping []) (selected : ev'.selected.Perm (b :: ev.selected))
    (clean : (r.shared.frames b).state.dirty = false) : Claims cfg (s.after f r.shared r.fiber) := by
  have stays := fun {b} (safe : Protected cfg s b) => change.staysSafe inv safe
  have before : jobOf cfg s f = ev.sweeping [b] := job
  have old : ∀ c ∈ ev'.selected, Protected cfg s c := fun c member => by
    refine claims.protected_ f c ?_
    rw [before]
    exact selected.mem_iff.mp member
  refine claims.next (fun c _ safe => ⟨safe.after grows (stays safe), (stays safe).2.2⟩)
    (fun c member => ?_) (fun c member => ?_) (fun c => Or.inl ?_) ?_
  · rw [job'] at member
    exact (old c member).after grows (stays (old c member))
  · rw [job'] at member
    rcases List.mem_cons.mp (selected.mem_iff.mp member) with rfl | chosen
    · exact clean
    · refine (stays (old c member)).2.2 (claims.clean f c ?_)
      rw [before]
      exact chosen
  · rw [job', before]
    have same := selected.count_eq c
    simp only [Job.claims, Eviction.sweeping, List.append_nil, List.nil_append, List.cons_append]
    omega
  · rw [job']
    exact ⟨fun c member => List.mem_append_right _ member, (fun _ member => by cases member)⟩

theorem Claims.change (inv : Inv cfg s) (claims : Claims cfg s)
    (cautious : Cautious cfg s f (s.fibers f).pc)
    (grows : Grows s f r.shared) (change : Change cfg s f r) :
    Claims cfg (s.after f r.shared r.fiber) := by
  have writes := claims.writes f
  have clients : (s.fibers f).pc.inEvict = false → r.fiber.pc.inEvict = false →
      Claims cfg (s.after f r.shared r.fiber) := fun client client' =>
    claims.keep inv grows change ((job_client client').trans (job_client client).symm)
  have whole := change
  cases change with
  | quiet _ job | mark _ _ _ _ _ job => exact claims.keep inv grows whole job
  | fixed _ _ at_ _ next | lock _ _ _ _ at_ _ _ _ next | unlockS _ _ at_ _ _ next =>
    exact clients (by rw [at_]; rfl) (by rw [next]; rfl)
  | validated _ _ _ next client => exact clients client (by rw [next]; rfl)
  | holder _ _ _ _ _ _ client | owner _ _ _ _ _ _ _ client => exact clients client.1 client.2
  | claim _ _ _ _ at_ frames next =>
    rw [at_] at cautious
    exact claims.claim inv grows whole at_ cautious frames next
  | settle ev c job clean frames job' =>
    refine claims.select inv grows whole job job' ?_ ?_
    · change ((ev.toEvict ++ [c]) ++ ev.toWrite).Perm (c :: (ev.toEvict ++ ev.toWrite))
      rw [List.append_assoc]
      exact List.perm_middle
    · rw [frames]
      exact clean
  | clean ev c job frames job' =>
    refine claims.select inv grows whole job job' ?_ ?_
    · change (ev.toEvict ++ (ev.toWrite ++ [c])).Perm (c :: (ev.toEvict ++ ev.toWrite))
      rw [← List.append_assoc]
      exact List.perm_append_singleton c _
    · rw [frames]
      simp
  | issue ev c rest pending job frames job' =>
    have before : jobOf cfg s f = ev.writing (c :: rest) pending := job
    rw [before] at writes
    refine claims.shrink inv grows whole before job' (fun _ => le_refl _) (List.nil_subset _)
      (List.Subset.refl _)
      ⟨fun b member => writes.1 b (List.mem_cons_of_mem _ member), fun wr member => ?_⟩
    rcases List.mem_append.mp member with old | new
    · exact writes.2 wr old
    · obtain rfl := List.mem_singleton.mp new
      exact writes.1 c List.mem_cons_self
  | complete ev pending k wr job here frames job' =>
    have before : jobOf cfg s f = ev.writing [] pending := job
    rw [before] at writes
    exact claims.shrink inv grows whole before job' (fun _ => le_refl _) (List.nil_subset _)
      (List.Subset.refl _)
      ⟨List.nil_subset _, fun wr' member => writes.2 wr' (List.mem_of_mem_eraseIdx member)⟩
  -- from here on everything is written, and frames are only given up
  | aim ev ph c rest at_ shared next =>
    have before : jobOf cfg s f = ev.erase ph c rest := by rw [jobOf, at_]; rfl
    exact claims.shed inv grows whole before (congrArg _ next) ⟨rfl, rfl, rfl⟩ (fun _ => le_refl _)
      (List.Subset.refl _)
  | giveUp ev c q rest job frames job' =>
    refine claims.shed inv grows whole job job' ⟨rfl, rfl, rfl⟩ (fun b => ?_)
      (List.subset_cons_self c rest)
    simp only [Job.claims, Job.aimed, Eviction.erasing, List.append_nil, List.nil_append]
    exact List.count_le_count_cons
  | retire ev ph c p rest at_ frames job' =>
    have before : jobOf cfg s f = ev.erasing (ev.after ph rest) [c] ev.freed := by rw [jobOf, at_]; rfl
    refine claims.shed inv grows whole before job' ⟨rfl, rfl, rfl⟩ (fun b => ?_) (List.Subset.refl _)
    simp only [Job.claims, Eviction.erasing, List.append_nil, List.nil_append, List.count_append]
    omega
  | release _ _ _ _ _ job _ _ job' =>
    exact claims.shed inv grows whole job job' ⟨rfl, rfl, rfl⟩ (fun _ => le_refl _)
      (List.Subset.refl _)
  | done _ _ _ next =>
    exact claims.shed inv grows whole rfl (congrArg _ next) ⟨rfl, rfl, rfl⟩ (fun _ => Nat.zero_le _)
      (List.nil_subset _)

theorem Commits.mapped {ev : Eviction} {ph : Phase} {b p i : Nat} {rest : List Nat}
    (commits : Commits cfg s f r ev ph b p rest i) {fib : Fiber} {q c : Nat} (ne : c ≠ b)
    (mapped : Mapped cfg s q c) : Mapped cfg (s.after f r.shared fib) q c := by
  obtain ⟨j, inRange, entry⟩ := mapped
  have apart : j ≠ i := by
    rintro rfl
    exact ne (entry.2.symm.trans commits.entry.2)
  refine ⟨j, inRange, ?_, ?_⟩
  · rw [after_shared, commits.slots, holds_setSlot_ne _ apart]
    exact entry.1
  · rw [after_shared, commits.slots, setSlot_ne _ _ apart]
    exact entry.2

theorem Claims.commit {ev : Eviction} {ph : Phase} {b p i : Nat} {rest : List Nat}
    (claims : Claims cfg s) (commits : Commits cfg s f r ev ph b p rest i) :
    Claims cfg (s.after f r.shared r.fiber) := by
  have before : jobOf cfg s f = (ev.erase ph b rest).aimed p b := by
    rw [jobOf, commits.at_]
    rfl
  have now : r.fiber.pc.job cfg = ev.erasing (ev.after ph rest) [b] ev.freed := by
    rw [commits.next]
    rfl
  have mine : b ∈ (jobOf cfg s f).claims := by
    rw [before]
    simp [Job.claims, Job.aimed, Eviction.erase, Eviction.erasing]
  have once := claims.once f b
  rw [before] at once
  simp only [Job.claims, Job.aimed, Eviction.erase, Eviction.erasing, List.append_nil, List.nil_append,
    List.count_cons_self] at once
  have others : ∀ c, c ≠ b → Protected cfg s c → Protected cfg (s.after f r.shared r.fiber) c ∧
      ((word s c).dirty = false → (r.shared.frames c).state.dirty = false) := by
    intro c ne safe
    refine ⟨⟨safe.mapped.imp fun q => commits.mapped ne, ?_, ?_⟩, ?_⟩
    · rw [word, after_shared, commits.frames]
      exact safe.evicting
    · rw [word, after_shared, commits.frames]
      exact safe.free
    · rw [commits.frames]
      exact id
  have chosen : ∀ c ∈ ev.after ph rest, c ≠ b ∧ c ∈ (jobOf cfg s f).chosen := by
    intro c member
    refine ⟨?_, ?_⟩
    · rintro rfl
      have := List.count_pos_iff.mpr member
      omega
    · rw [before]
      exact List.mem_cons_of_mem _ member
  refine claims.next (fun c elsewhere safe => others c ?_ safe) (fun c member => ?_)
    (fun c member => ?_) (fun c => Or.inl ?_) ?_
  · rintro rfl
    obtain ⟨u, ne, member⟩ := elsewhere
    have theirs : c ∈ (jobOf cfg s u).claims := by
      rw [mem_claims]
      rcases List.mem_append.mp member with fresh | chosen
      · exact Or.inl fresh
      · exact Or.inr (Or.inl chosen)
    exact ne (claims.unique theirs mine)
  · rw [now] at member
    obtain ⟨ne, old⟩ := chosen c member
    exact (others c ne (claims.protected_ f c (List.mem_append_right _ old))).1
  · rw [now] at member
    obtain ⟨ne, old⟩ := chosen c member
    exact (others c ne (claims.protected_ f c (List.mem_append_right _ old))).2 (claims.clean f c old)
  · rw [now, before]
    simp only [Job.claims, Job.aimed, Eviction.erase, Eviction.erasing, List.append_nil,
      List.nil_append, List.count_append, List.count_cons, List.count_nil]
    omega
  · rw [now]
    exact ⟨(fun _ member => by cases member), (fun _ member => by cases member)⟩

/-! ### Runs -/

theorem claims_initial (cfg : Config n) : Claims cfg (initial cfg) :=
  ⟨(fun _ _ member => by cases member), (fun _ _ member => by cases member), fun _ => (Finset.sum_eq_zero fun _ _ => rfl).trans_le (Nat.zero_le 1),
    fun _ => ⟨(fun _ member => by cases member), (fun _ member => by cases member)⟩⟩

theorem Careful.undisturbed {act : Act n} (careful : Careful cfg s act) (f : Fin n) (choice : Nat)
    (here : act = .step f choice) : Undisturbed cfg.table s.shared.table (.step f false) := by
  subst here
  exact careful.1 false

theorem Careful.cautious {act : Act n} {s' : State n} {out : Out} (careful : Careful cfg s act)
    (execs : exec cfg s act = some (s', out)) (acts : act.fiber = some f) :
    Cautious cfg s f (s.fibers f).pc := by
  cases act with
  | step u choice =>
    cases acts
    exact careful.2
  | call u op =>
    cases acts
    simp only [exec] at execs
    split at execs
    next allowed =>
      rw [isIdle_iff.mp allowed.1]
      trivial
    next => cases execs
  | initWorker w => cases acts
  | shutdownWorker w => cases acts

theorem claims_exec {act : Act n} {s' : State n} {out : Out} (inv : Inv cfg s)
    (claims : Claims cfg s) (careful : Careful cfg s act)
    (execs : exec cfg s act = some (s', out)) : Claims cfg s' := by
  rcases exec_change inv careful.undisturbed execs with
    ⟨f, r, acts, rfl, -, ⟨grows, change⟩ | ⟨ev, ph, b, p, rest, i, commits⟩⟩ | ⟨frames, table, fibers, -⟩
  · exact claims.change inv (careful.cautious execs acts) grows change
  · exact claims.commit commits
  · obtain ⟨sh, fibers'⟩ := s'
    dsimp only at frames table fibers
    subst fibers
    have words : ∀ b, word ⟨sh, s.fibers⟩ b = word s b := fun b => by simp only [word, frames]
    refine ⟨fun u b member => ?_, fun u b member => ?_, claims.apart, claims.writes⟩
    · have safe := claims.protected_ u b member
      refine ⟨?_, by rw [words]; exact safe.evicting, by rw [words]; exact safe.free⟩
      simpa only [Mapped, table] using safe.mapped
    · rw [words]
      exact claims.clean u b member

end UringDb.BufferMgr
