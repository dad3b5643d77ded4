import UringDb.BufferMgr.Ledger

/-!
# Every step is booked

Refills, pops, releases and the counter updates change the lists and the counters; the
compare-and-swaps of `insert` and `erase_if` change one entry. All other steps move on with
what the fiber has.
-/
namespace UringDb.BufferMgr

open PageState PageTable

variable {n : Nat} {cfg : Config n} {s : State n} {f : Fin n} {sh : Shared n} {fib : Fiber}
  {pc : Pc} {r : Result n}

theorem u64_cast (x : Int) : (u64 x : Int) = x % 2 ^ 64 :=
  Int.toNat_of_nonneg (Int.emod_nonneg _ (by norm_num))

theorem u64_add (x y : Int) : u64 (u64 x + y) = u64 (x + y) := by
  unfold u64
  rw [Int.toNat_of_nonneg (Int.emod_nonneg _ (by norm_num)), Int.emod_add_emod]

theorem account_setLocal (sh : Shared n) {w : Nat} (inRange : w < cfg.workers) (loc : Local) :
    account cfg (sh.setLocal w loc) + (sh.locals w).delta + (sh.locals w).free.length =
      account cfg sh + loc.delta + loc.free.length := by
  have lists := weigh_setLocal List.length sh inRange loc
  have counts : deltas cfg (sh.setLocal w loc) + (sh.locals w).delta = deltas cfg sh + loc.delta :=
    sum_update (Finset.range cfg.workers) sh.locals w loc Local.delta
      (Finset.mem_range.mpr inRange)
  have used : (sh.setLocal w loc).used = sh.used := rfl
  unfold account listed
  omega

theorem account_setPool (sh : Shared n) {k : Nat} (inRange : k < cfg.poolCount) (l : List Nat) :
    account cfg (sh.setPool k l) + (sh.pools k).length = account cfg sh + l.length := by
  have lists := weigh_setPool List.length sh inRange l
  have counts : deltas cfg (sh.setPool k l) = deltas cfg sh := rfl
  have used : (sh.setPool k l).used = sh.used := rfl
  unfold account listed
  omega

theorem account_used (cfg : Config n) (sh : Shared n) (used : Nat) :
    account cfg { sh with used := used } + sh.used = account cfg sh + used := by
  change (used + deltas cfg sh + listed cfg sh : Int) + sh.used = account cfg sh + used
  unfold account
  omega

/-! ### Lists and counters -/

theorem Ledger.transfer (ledger : Ledger cfg s) (at_ : (s.fibers f).pc = pc)
    (table : sh.table = s.shared.table)
    (frames : ∀ b, freeCount cfg sh b + (fib.pc.owned cfg).count b =
      freeCount cfg s.shared b + (pc.owned cfg).count b)
    (used : (account cfg sh + fib.pc.due cfg) % 2 ^ 64 =
      (account cfg s.shared + pc.due cfg) % 2 ^ 64)
    (active : ∀ w, (sh.locals w).active = (s.shared.locals w).active)
    (locals : ∀ w, w ≠ cfg.wid f → sh.locals w = s.shared.locals w)
    (pools : pc.locksPool = false → sh.pools = s.shared.pools)
    (agree : Agree fib.pc (s.shared.table.pcs f)) (spares : fib.pc.Spares cfg) :
    Booked cfg s f sh fib where
  frames := fun b => by
    have slots : slotsOf cfg sh b = slotsOf cfg s.shared b := by simp only [slotsOf, table]
    have moved := frames b
    rw [at_]
    omega
  used := by rw [used, at_]
  zero := by
    simp only [slotsOf, table]
    exact ledger.zero
  root := by
    rw [table]
    exact ledger.root
  others := fun u _ => by rw [table]
  carries := by
    rw [table]
    exact ledger.carries f
  agree := by rwa [table]
  spares := spares
  active := active
  locals := locals
  pools := fun apart => pools (at_ ▸ apart)

theorem locals_setLocal (sh : Shared n) (w : Nat) (loc : Local)
    (same : loc.active = (sh.locals w).active) :
    (∀ v, ((sh.setLocal w loc).locals v).active = (sh.locals v).active) ∧
      ∀ v, v ≠ w → (sh.setLocal w loc).locals v = sh.locals v := by
  refine ⟨fun v => ?_, fun v ne => by simp [Shared.setLocal, ne]⟩
  by_cases here : v = w
  · subst here
    simp [Shared.setLocal, same]
  · simp [Shared.setLocal, here]

theorem accum_shared (cfg : Config n) (sh : Shared n) (f : Fin n) (d : Int) :
    (accumPhysUsed cfg sh f d).table = sh.table ∧
    (accumPhysUsed cfg sh f d).pools = sh.pools ∧
    (∀ w, ((accumPhysUsed cfg sh f d).locals w).active = (sh.locals w).active) ∧
    ∀ w, w ≠ cfg.wid f → (accumPhysUsed cfg sh f d).locals w = sh.locals w := by
  unfold accumPhysUsed
  dsimp only
  split
  · exact ⟨rfl, rfl, locals_setLocal sh _ _ rfl⟩
  · exact ⟨rfl, rfl, locals_setLocal sh _ _ rfl⟩

/-- `accum_phys_used` adds to the account, whether it flushes or not. -/
theorem account_accum (cfg : Config n) (sh : Shared n) (f : Fin n) (d : Int) :
    account cfg (accumPhysUsed cfg sh f d) % 2 ^ 64 = (account cfg sh + d) % 2 ^ 64 := by
  unfold accumPhysUsed ownLocal
  dsimp only
  split
  · have local_ := account_setLocal sh (cfg.wid_lt f) { sh.locals (cfg.wid f) with delta := 0 }
    have used := account_used cfg
      (sh.setLocal (cfg.wid f) { sh.locals (cfg.wid f) with delta := 0 })
      (u64 (sh.used + ((sh.locals (cfg.wid f)).delta + d)))
    have cast := u64_cast (sh.used + ((sh.locals (cfg.wid f)).delta + d))
    have same : (sh.setLocal (cfg.wid f)
      { sh.locals (cfg.wid f) with delta := 0 }).used = sh.used := rfl
    dsimp only at local_ used same
    omega
  · have local_ := account_setLocal sh (cfg.wid_lt f)
      { sh.locals (cfg.wid f) with delta := (sh.locals (cfg.wid f)).delta + d }
    dsimp only at local_
    omega

theorem Ledger.accum (ledger : Ledger cfg s) (at_ : (s.fibers f).pc = pc) (d : Int)
    (owned : fib.pc.owned cfg = pc.owned cfg) (due : fib.pc.due cfg + d = pc.due cfg)
    (agree : Agree fib.pc (s.shared.table.pcs f)) (spares : fib.pc.Spares cfg) :
    Booked cfg s f (accumPhysUsed cfg s.shared f d) fib := by
  obtain ⟨table, pools, active, locals⟩ := accum_shared cfg s.shared f d
  refine ledger.transfer at_ table (fun b => ?_) ?_ active locals (fun _ => pools) agree spares
  · rw [freeCount_accum, owned]
  · have counted := account_accum cfg s.shared f d
    omega

theorem refill_shared (cfg : Config n) (sh : Shared n) (f : Fin n) (step : Nat) :
    (refillFromPool cfg sh f step).table = sh.table ∧
    account cfg (refillFromPool cfg sh f step) = account cfg sh ∧
    (∀ w, ((refillFromPool cfg sh f step).locals w).active = (sh.locals w).active) ∧
    ∀ w, w ≠ cfg.wid f → (refillFromPool cfg sh f step).locals w = sh.locals w := by
  unfold refillFromPool ownLocal
  dsimp only
  generalize take : min _ (List.length _) = m
  generalize at_ : (cfg.freePoolIndexForWorker (cfg.wid f) + step) &&& cfg.poolMask = k
  have inRange : k < cfg.poolCount := at_ ▸ pool_lt cfg _
  have out := account_setPool sh inRange ((sh.pools k).drop m)
  have into := account_setLocal (sh.setPool k ((sh.pools k).drop m)) (cfg.wid_lt f)
    { sh.locals (cfg.wid f) with free := (sh.pools k).take m ++ (sh.locals (cfg.wid f)).free }
  have whole : ((sh.pools k).take m).length + ((sh.pools k).drop m).length =
      (sh.pools k).length := by
    rw [← List.length_append, List.take_append_drop]
  have same : (sh.setPool k ((sh.pools k).drop m)).locals = sh.locals := rfl
  simp only [same, List.length_append] at into
  exact ⟨rfl, by omega, locals_setLocal (sh.setPool k ((sh.pools k).drop m)) _ _ rfl⟩

theorem Ledger.step_refill {need : Need} {why : Refill} {step : Nat} (ledger : Ledger cfg s)
    (at_ : (s.fibers f).pc = .refill need why step)
    (stepped : refill cfg s.shared f (s.fibers f) need why step = some r) :
    Booked cfg s f r.shared r.fiber := by
  obtain ⟨table, account, active, locals⟩ :=
    refill_shared cfg s.shared f step
  have free : (s.shared.table.pcs f).canCall = true := ledger.agree_at at_
  have goes : ∀ pc', Pc.Rests cfg [] pc' → Booked cfg s f (refillFromPool cfg s.shared f step)
      { s.fibers f with pc := pc' } := fun pc' rests =>
    ledger.transfer at_ table
      (fun b => by
        rw [freeCount_refill, rests.owned]
        rfl)
      (by
        rw [account, rests.due]
        rfl)
      active locals (fun same => by cases same) (rests.agree _ free) rests.spares
  unfold refill at stepped
  dsimp only at stepped
  split at stepped
  · cases stepped
    exact goes _ ⟨rfl, rfl, trivial, fun _ free => free⟩
  · obtain ⟨pc', next, goes'⟩ := Option.bind_eq_some_iff.mp stepped
    cases goes'
    exact goes _ (lands_afterRefill next).rests

theorem Ledger.step_pop {need : Need} (ledger : Ledger cfg s) (at_ : (s.fibers f).pc = .pop need)
    (stepped : pop cfg s.shared f (s.fibers f) need = some r) :
    Booked cfg s f r.shared r.fiber := by
  have free : (s.shared.table.pcs f).canCall = true := ledger.agree_at at_
  unfold pop ownLocal at stepped
  dsimp only at stepped
  split at stepped
  · cases stepped
  next bid rest list =>
    have real : bid ≠ 0 := ledger.listed_ne_zero (f := f) (by simp [list])
    have counts := freeCount_setLocal s.shared (cfg.wid_lt f)
      { s.shared.locals (cfg.wid f) with free := rest }
    have taken := account_setLocal s.shared (cfg.wid_lt f)
      { s.shared.locals (cfg.wid f) with free := rest }
    obtain ⟨active, locals⟩ := locals_setLocal s.shared (cfg.wid f)
      { s.shared.locals (cfg.wid f) with free := rest } rfl
    have takes : ∀ pc' : Pc, pc'.owned cfg = [bid] → pc'.due cfg = 1 → pc'.Spares cfg →
        Agree pc' (s.shared.table.pcs f) → Booked cfg s f (s.shared.setLocal (cfg.wid f)
          { s.shared.locals (cfg.wid f) with free := rest }) { s.fibers f with pc := pc' } := by
      intro pc' owned due spares agree
      refine ledger.transfer at_ rfl (fun b => ?_) ?_ active locals (fun _ => rfl) agree spares
      · have count := counts b
        dsimp only at count
        rw [list, List.count_cons] at count
        rw [owned, List.count_singleton]
        simp only [Pc.owned, List.count_nil]
        omega
      · dsimp only at taken
        rw [list, List.length_cons] at taken
        rw [due]
        simp only [Pc.due]
        omega
    cases need with
    | alloc =>
      dsimp only at stepped
      rw [if_neg real] at stepped
      cases stepped
      exact takes _ rfl rfl trivial free
    | fault p caller =>
      dsimp only at stepped
      rw [if_neg real] at stepped
      cases stepped
      exact takes _ rfl rfl trivial free

theorem release_shared (cfg : Config n) (sh : Shared n) (f : Fin n) (bid : Nat) (prefer : Bool) :
    (releaseFreeBid cfg sh f bid prefer).table = sh.table ∧
    account cfg (releaseFreeBid cfg sh f bid prefer) = account cfg sh + 1 ∧
    (∀ w, ((releaseFreeBid cfg sh f bid prefer).locals w).active = (sh.locals w).active) ∧
    ∀ w, w ≠ cfg.wid f → (releaseFreeBid cfg sh f bid prefer).locals w = sh.locals w := by
  unfold releaseFreeBid ownLocal
  dsimp only
  split
  · have pushed := account_setLocal sh (cfg.wid_lt f)
      { sh.locals (cfg.wid f) with free := bid :: (sh.locals (cfg.wid f)).free }
    dsimp only at pushed
    rw [List.length_cons] at pushed
    exact ⟨rfl, by omega, locals_setLocal sh _ _ rfl⟩
  · have pushed := account_setPool sh (pool_lt cfg bid) (bid :: sh.pools (bid &&& cfg.poolMask))
    rw [List.length_cons] at pushed
    refine ⟨rfl, ?_, fun _ => rfl, fun _ _ => rfl⟩
    unfold Config.freePoolIndexForBid
    omega

theorem Ledger.step_release {p bid : Nat} {caller : Caller} (ledger : Ledger cfg s)
    (at_ : (s.fibers f).pc = .loseRelease p bid caller) (prefer : Bool) :
    Booked cfg s f (releaseFreeBid cfg s.shared f bid prefer)
      { s.fibers f with pc := .loseLookup p caller } := by
  have free : (s.shared.table.pcs f).canCall = true := ledger.agree_at at_
  obtain ⟨table, account, active, locals⟩ :=
    release_shared cfg s.shared f bid prefer
  refine ledger.transfer at_ table (fun b => ?_) ?_ active locals (fun same => by cases same) (Or.inl free) trivial
  · rw [freeCount_release]
    rfl
  · rw [account]
    exact congrArg (· % 2 ^ 64) (add_zero _)

/-! ### `releaseFreed` -/

theorem length_filter_split {p q r : Nat → Bool} (split : ∀ x, r x = (p x || q x))
    (apart : ∀ x, p x = true → q x = false) (l : List Nat) :
    (l.filter p).length + (l.filter q).length = (l.filter r).length := by
  induction l with
  | nil => rfl
  | cons x l ih =>
    have here := split x
    have alone := apart x
    cases px : p x <;> cases qx : q x <;> simp_all <;> omega

theorem Ledger.step_evRelease {ev : Eviction} {ph : Phase} {pool : Nat} (ledger : Ledger cfg s)
    (at_ : (s.fibers f).pc = .evRelease ev ph pool)
    (stepped : evRelease cfg s.shared (s.fibers f) ev ph pool = some r) :
    Booked cfg s f r.shared r.fiber := by
  obtain ⟨spares, inRange⟩ : ev.Spares ∧ pool < cfg.poolCount := ledger.spares_at at_
  have free : (s.shared.table.pcs f).canCall = true := ledger.agree_at at_
  have lists := freeCount_setPool s.shared inRange
    ((ev.freed.filter fun bid => cfg.freePoolIndexForBid bid == pool).reverse ++
      s.shared.pools pool)
  have pushed := account_setPool s.shared inRange
    ((ev.freed.filter fun bid => cfg.freePoolIndexForBid bid == pool).reverse ++
      s.shared.pools pool)
  have counts : ∀ b, (ev.freed.filter fun bid => cfg.freePoolIndexForBid bid == pool).count b +
      (ev.freed.filter fun bid => pool + 1 ≤ cfg.freePoolIndexForBid bid).count b =
      (ev.freed.filter fun bid => pool ≤ cfg.freePoolIndexForBid bid).count b := by
    intro b
    simp only [count_filter, beq_iff_eq, decide_eq_true_eq]
    split_ifs <;> omega
  have lengths := length_filter_split
    (p := fun bid => decide (cfg.freePoolIndexForBid bid < pool))
    (q := fun bid => cfg.freePoolIndexForBid bid == pool)
    (r := fun bid => decide (cfg.freePoolIndexForBid bid < pool + 1))
    (fun x => by grind) (fun x => by grind) ev.freed
  have booked : ∀ pc' : Pc, pc'.owned cfg =
        ev.freed.filter (fun bid => pool + 1 ≤ cfg.freePoolIndexForBid bid) →
      pc'.due cfg =
        -((ev.freed.filter fun bid => cfg.freePoolIndexForBid bid < pool + 1).length : Int) →
      pc'.Spares cfg → Agree pc' (s.shared.table.pcs f) → Booked cfg s f (s.shared.setPool pool
        ((ev.freed.filter fun bid => cfg.freePoolIndexForBid bid == pool).reverse ++
          s.shared.pools pool)) { s.fibers f with pc := pc' } := by
    intro pc' owned due sparing agree
    refine ledger.transfer at_ rfl (fun b => ?_) ?_ (fun _ => rfl) (fun _ _ => rfl) (fun same => by cases same) agree
      sparing
    · have count := lists b
      have part := counts b
      rw [List.count_append, List.count_reverse] at count
      rw [owned]
      simp only [Pc.owned]
      omega
    · rw [List.length_append, List.length_reverse] at pushed
      rw [due]
      simp only [Pc.due]
      omega
  unfold evRelease at stepped
  cases stepped
  dsimp only
  split
  next more => exact booked _ rfl rfl ⟨spares, more⟩ free
  next last =>
    -- no frame has a pool behind the last one
    have all : ∀ bid, cfg.freePoolIndexForBid bid < pool + 1 := fun bid => by
      have := pool_lt cfg bid
      unfold Config.freePoolIndexForBid
      omega
    refine booked _ ?_ ?_ spares free
    · refine (List.filter_eq_nil_iff.mpr fun bid _ => ?_).symm
      have := all bid
      simp only [decide_eq_true_eq]
      omega
    · have whole : ev.freed.filter (fun bid => cfg.freePoolIndexForBid bid < pool + 1) = ev.freed :=
        List.filter_eq_self.mpr fun bid _ => decide_eq_true (all bid)
      rw [whole]
      rfl

theorem Ledger.step_evUsed {ev : Eviction} {ph : Phase} (ledger : Ledger cfg s)
    (at_ : (s.fibers f).pc = .evUsed ev ph)
    (stepped : evUsed cfg s.shared f (s.fibers f) ev ph = some r) :
    Booked cfg s f r.shared r.fiber := by
  have spares : ev.Spares := ledger.spares_at at_
  have free : (s.shared.table.pcs f).canCall = true := ledger.agree_at at_
  have counts := freeCount_setLocal s.shared (cfg.wid_lt f)
    { s.shared.locals (cfg.wid f) with delta := 0 }
  have flushed := account_setLocal s.shared (cfg.wid_lt f)
    { s.shared.locals (cfg.wid f) with delta := 0 }
  have used := account_used cfg
    (s.shared.setLocal (cfg.wid f) { s.shared.locals (cfg.wid f) with delta := 0 })
    (u64 (s.shared.used + ((s.shared.locals (cfg.wid f)).delta - ev.freed.length)))
  have same : (s.shared.setLocal (cfg.wid f)
    { s.shared.locals (cfg.wid f) with delta := 0 }).used = s.shared.used := rfl
  have cast := u64_cast (s.shared.used + ((s.shared.locals (cfg.wid f)).delta - ev.freed.length))
  obtain ⟨active, locals⟩ := locals_setLocal s.shared (cfg.wid f)
    { s.shared.locals (cfg.wid f) with delta := 0 } rfl
  dsimp only at counts flushed used same
  have booked : ∀ pc' : Pc, pc'.Rests cfg [] → Booked cfg s f
      { s.shared.setLocal (cfg.wid f) { s.shared.locals (cfg.wid f) with delta := 0 } with
        used := u64 (s.shared.used + ((s.shared.locals (cfg.wid f)).delta - ev.freed.length)) }
      { s.fibers f with pc := pc' } := by
    intro pc' rests
    refine ledger.transfer at_ rfl (fun b => ?_) ?_ active locals (fun _ => rfl)
      (rests.agree _ free) rests.spares
    · have moved := counts b
      rw [rests.owned]
      exact congrArg (· + 0) (Nat.add_right_cancel moved)
    · rw [rests.due]
      simp only [Pc.due]
      omega
  unfold evUsed ownLocal at stepped
  cases stepped
  cases ph with
  | clean => exact booked _ (rests_startWritten cfg (show ({ ev with freed := [] } : Eviction).Spares from spares))
  | written => exact booked _ ⟨rfl, rfl, spares, fun _ free => free⟩

/-! ### Page-table calls -/

section Calls

variable {call : Call} {answer : Bool} {out : PageTable.Out}

theorem tableStep_shared (stepped : tableStep cfg s.shared f call answer = some (sh, out)) :
    sh.pools = s.shared.pools ∧ sh.locals = s.shared.locals ∧ sh.used = s.shared.used := by
  rcases tableStep_cases stepped with ⟨-, -, start, -, rfl⟩ | ⟨-, r, -, -, rfl⟩ <;>
    exact ⟨rfl, rfl, rfl⟩

theorem tableStep_quiet (stepped : tableStep cfg s.shared f call answer = some (sh, out))
    (entries : SameEntries s.shared.table.slots sh.table.slots)
    (carries : (sh.table.pcs f).Carries cfg.table) : Quiet cfg s f sh where
  entries := entries
  others := tableStep_others stepped
  carries := carries
  pools := (tableStep_shared stepped).1
  locals := (tableStep_shared stepped).2.1
  used := (tableStep_shared stepped).2.2

theorem Ledger.step_lookup {p : Nat} {found : Nat → Pc} {missing : Pc} (ledger : Ledger cfg s)
    (at_ : (s.fibers f).pc = pc)
    (stepped : lookup cfg s.shared f (s.fibers f) p found missing = some r)
    (rests : pc.Rests cfg [])
    (running : (s.shared.table.pcs f).canCall = true ∨ ∃ d, s.shared.table.pcs f = .find p d)
    (again : ∀ d, Agree pc (.find p d)) (hit : ∀ b, (found b).Rests cfg [])
    (miss : missing.Rests cfg []) : Booked cfg s f r.shared r.fiber := by
  obtain ⟨sh, out, pc', tried, slots, rfl, goes⟩ := lookup_moves running stepped
  have entries : SameEntries s.shared.table.slots sh.table.slots := slots ▸ SameEntries.refl _
  have lands : (sh.table.pcs f).canCall = true → pc'.Rests cfg [] →
      Booked cfg s f sh { s.fibers f with pc := pc' } := fun free rests' =>
    ledger.land at_ (tableStep_quiet tried entries (Pc.Carries.of_canCall free))
      (rests.owned.symm ▸ rests') rests.due free
  rcases goes with ⟨rfl, d, still⟩ | ⟨free, rfl | ⟨b, rfl, -⟩⟩
  · have carries : (sh.table.pcs f).Carries cfg.table := by
      rw [still]
      trivial
    refine ledger.move at_ (tableStep_quiet tried entries carries) ?_ ?_ ?_ ?_
    · rw [at_]
    · rw [at_]
    · rw [at_, still]
      exact again d
    · rw [at_]
      exact rests.spares
  · exact lands free miss
  · exact lands free (hit b)

theorem Ledger.entry {i raw : Nat} (ledger : Ledger cfg s) (at_ : (s.fibers f).pc = pc)
    (stepped : tableStep cfg s.shared f call answer = some (sh, out))
    (inRange : i < cfg.table.slotCount)
    (slots : sh.table.slots = setSlot s.shared.table.slots i raw)
    (spared : share 0 (s.shared.table.slots i) = 0) (fresh : share 0 raw = 0)
    (frames : ∀ b, share b raw + (fib.pc.owned cfg).count b =
      share b (s.shared.table.slots i) + (pc.owned cfg).count b)
    (due : fib.pc.due cfg = pc.due cfg) (carries : (sh.table.pcs f).Carries cfg.table)
    (agree : Agree fib.pc (sh.table.pcs f)) (spares : fib.pc.Spares cfg) :
    Booked cfg s f sh fib := by
  obtain ⟨pools, locals, used⟩ := tableStep_shared stepped
  refine
    { frames := fun b => ?_
      used := ?_
      zero := ?_
      root := ?_
      others := tableStep_others stepped
      carries := carries
      agree := agree
      spares := spares
      active := fun w => by rw [locals]
      locals := fun w _ => by rw [locals]
      pools := fun _ => pools }
  · have slot := slotsOf_setSlot inRange slots b
    have moved := frames b
    have free : freeCount cfg sh b = freeCount cfg s.shared b :=
      weigh_congr (List.count b) pools locals
    rw [at_]
    omega
  · have same : account cfg sh = account cfg s.shared := by
      unfold account deltas listed
      rw [weigh_congr _ pools locals, locals, used]
    rw [same, due, at_]
  · have slot := slotsOf_setSlot inRange slots 0
    have here := ledger.zero
    omega
  · rintro p ⟨j, bounded, entry⟩
    rw [slots] at entry
    by_cases here : j = i
    · subst here
      unfold Entry Holds at entry
      rw [setSlot_same] at entry
      rw [share, if_pos ⟨entry.1.1, entry.2⟩] at fresh
      cases fresh
    · unfold Entry Holds at entry
      rw [setSlot_ne _ _ here] at entry
      exact ledger.root p ⟨j, bounded, entry⟩

end Calls

theorem Ledger.step_insert {setup : Setup} {b : Nat} (ledger : Ledger cfg s)
    (at_ : (s.fibers f).pc = .insert setup b)
    (stepped : insert cfg s.shared f (s.fibers f) setup b = some r) :
    Booked cfg s f r.shared r.fiber := by
  have running : (s.shared.table.pcs f).canCall = true ∨
      (s.shared.table.pcs f).inserts setup.pid b := ledger.agree_at at_
  have real : b ≠ 0 := ledger.owned_ne_zero (f := f) (by simp [at_, Pc.owned])
  unfold insert at stepped
  cases tried : tableStep cfg s.shared f (.insert setup.pid b) false with
  | none => simp [tried] at stepped
  | some next =>
    obtain ⟨sh, out⟩ := next
    have waits : ∀ entries : SameEntries s.shared.table.slots sh.table.slots,
        (sh.table.pcs f).inserts setup.pid b → (sh.table.pcs f).Carries cfg.table →
        Booked cfg s f sh { s.fibers f with pc := (s.fibers f).pc } := by
      intro entries inserts carries
      refine ledger.move at_ (tableStep_quiet tried entries carries) ?_ ?_ ?_ ?_
      · rw [at_]
      · rw [at_]
      · rw [at_]
        exact Or.inr inserts
      · rw [at_]
        trivial
    rcases tableStep_cases tried with ⟨-, rfl, start, begins, rfl⟩ | ⟨busy, step, steps, rfl, rfl⟩
    · simp only [tried] at stepped
      cases stepped
      have carries : start.Carries cfg.table := Call.start_carries begins
      simp only [Call.start, Option.map_eq_some_iff] at begins
      obtain ⟨-, -, rfl⟩ := begins
      refine waits (SameEntries.refl _) ?_ ?_
      · simp [PageTable.State.setPc, PageTable.Pc.inserts]
      · simpa [PageTable.State.setPc] using carries
    · have inserts := running.resolve_left (by simp [busy])
      rcases insert_moves (ledger.carries f) inserts steps with
        ⟨slots, out, still, carries⟩ | ⟨slots, out, free⟩ |
        ⟨i, inRange, dead, fits, slots, out, free⟩
      · rw [out] at tried
        simp only [tried] at stepped
        cases stepped
        refine waits (slots ▸ SameEntries.refl _) ?_ ?_
        · simpa using still
        · simpa using carries
      · simp only [tried, out] at stepped
        cases setup with
        | alloc p => cases stepped
        | fault p caller =>
          cases stepped
          have idle : (Function.update s.shared.table.pcs f step.pc f).canCall = true := by
            simpa using free
          exact ledger.move at_
            (tableStep_quiet tried (slots ▸ SameEntries.refl _) (Pc.Carries.of_canCall idle))
            rfl rfl idle trivial
      · have idle : (Function.update s.shared.table.pcs f step.pc f).canCall = true := by
          simpa using free
        have live : ∀ c, share c (Slot.word setup.pid b) = [b].count c := fun c => by
          simp [share, Slot.isLive_word _ b fits, Slot.bid_word _ b fits, List.count_singleton]
        have old : ∀ c, share c (s.shared.table.slots i) = 0 := fun c => by simp [share, dead]
        have placed : ∀ pc' : Pc, pc'.Rests cfg [] → Booked cfg s f
            { s.shared with table := ⟨step.slots, Function.update s.shared.table.pcs f step.pc⟩ }
            { s.fibers f with pc := pc' } := fun pc' rests =>
          ledger.entry at_ tried inRange slots (old 0)
            (by rw [live]; simp [real])
            (fun c => by
              rw [live, old, rests.owned]
              simp [Pc.owned])
            rests.due (Pc.Carries.of_canCall idle) (rests.agree _ idle) rests.spares
        simp only [tried, out] at stepped
        cases setup with
        | alloc p =>
          cases stepped
          exact placed _ ⟨rfl, rfl, trivial, fun _ free => free⟩
        | fault p caller =>
          cases stepped
          exact placed _ ⟨rfl, rfl, trivial, fun _ free => free⟩

theorem Ledger.step_evErase {ev : Eviction} {ph : Phase} {b p : Nat} {rest : List Nat}
    (ledger : Ledger cfg s) (at_ : (s.fibers f).pc = .evErase ev ph b p rest)
    (stepped : evErase cfg s.shared f (s.fibers f) ev ph b p rest = some r) :
    Booked cfg s f r.shared r.fiber := by
  obtain ⟨spares, real, sparing⟩ : ev.Spares ∧ b ≠ 0 ∧ 0 ∉ rest := ledger.spares_at at_
  obtain ⟨sh, out, tried, carries, goes | commits⟩ :=
    evErase_moves (ledger.carries f) (ledger.agree_at at_) stepped
  · obtain ⟨pc', slots, rfl, goes⟩ := goes
    have quiet := tableStep_quiet tried (slots ▸ SameEntries.refl _) carries
    rcases goes with ⟨rfl, still⟩ | ⟨i, raw, found, rfl⟩ | ⟨rfl, idle⟩
    · rw [at_]
      exact ledger.move at_ quiet rfl rfl (Or.inr (Or.inl still)) ⟨spares, real, sparing⟩
    · -- the caller's precheck comes next
      split
      next same => exact ledger.move at_ quiet rfl rfl ⟨i, raw, found, same⟩ ⟨spares, real, sparing⟩
      next =>
        exact ledger.move at_ quiet rfl rfl ⟨i, raw, found, fun same => by cases same⟩
          ⟨spares, real, sparing⟩
    · exact ledger.land at_ quiet (rests_next cfg ph spares sparing) rfl idle
  · obtain ⟨i, inRange, ⟨⟨live, -⟩, same⟩, -, slots, collapses, rfl⟩ := commits
    have was : ∀ c, share c (s.shared.table.slots i) = [b].count c := fun c => by
      simp [share, live, same, List.count_singleton]
    have gone : ∀ c, share c Slot.tombstoneSlot = 0 := fun c => by simp [share]
    refine ledger.entry at_ tried inRange slots ?_ (gone 0) (fun c => ?_) rfl carries collapses
      ⟨spares, sparing⟩
    · rw [was]
      simp [real]
    · rw [was, gone]
      simp only [Pc.owned, List.count_cons, List.count_nil]
      omega

theorem Ledger.step_preAnswer {ev : Eviction} {ph : Phase} {b p : Nat} {rest : List Nat}
    {answer : Bool} (ledger : Ledger cfg s)
    (at_ : (s.fibers f).pc = .preAnswer ev ph b p rest answer)
    (stepped : preAnswer cfg s.shared f (s.fibers f) ev ph b p rest answer = some r) :
    Booked cfg s f r.shared r.fiber := by
  obtain ⟨spares, real, sparing⟩ : ev.Spares ∧ b ≠ 0 ∧ 0 ∉ rest := ledger.spares_at at_
  obtain ⟨i, raw, checking, same⟩ : ∃ i raw, s.shared.table.pcs f = .precheck p i raw ∧
    (answer = true → Slot.bid raw = b) := ledger.agree_at at_
  have live := ledger.carries f
  rw [checking] at live
  obtain ⟨sh, out, tried, slots, goes⟩ := preAnswer_moves checking stepped
  rcases goes with ⟨rfl, cas, rfl⟩ | ⟨rfl, idle, rfl⟩
  · have carries : (sh.table.pcs f).Carries cfg.table := by
      rw [cas]
      exact live
    exact ledger.move at_ (tableStep_quiet tried (slots ▸ SameEntries.refl _) carries) rfl rfl
      (Or.inr (Or.inr ⟨i, raw, cas, same rfl⟩)) ⟨spares, real, sparing⟩
  · exact ledger.land at_ (tableStep_quiet tried (slots ▸ SameEntries.refl _) (.of_canCall idle))
      (rests_next cfg ph spares sparing) rfl idle

theorem Ledger.step_evCollapse {ev : Eviction} {ph : Phase} {b p : Nat} {rest : List Nat}
    (ledger : Ledger cfg s) (at_ : (s.fibers f).pc = .evCollapse ev ph b p rest)
    (stepped : evCollapse cfg s.shared f (s.fibers f) ev ph b p rest = some r) :
    Booked cfg s f r.shared r.fiber := by
  have spares : ev.Spares ∧ 0 ∉ rest := ledger.spares_at at_
  obtain ⟨sh, out, pc', tried, entries, rfl, goes⟩ :=
    evCollapse_moves (ledger.agree_at at_) stepped
  rcases goes with ⟨rfl, still⟩ | ⟨rfl, idle⟩
  · rw [at_]
    exact ledger.move at_ (tableStep_quiet tried entries still.carries) rfl rfl still spares
  · exact ledger.move at_ (tableStep_quiet tried entries (.of_canCall idle)) rfl rfl idle spares

/-! ### The sweep and the phases of `evict` -/

section Evict

variable {ev : Eviction} {sw : Sweep}

theorem Ledger.step_evScan (ledger : Ledger cfg s) (at_ : (s.fibers f).pc = .evScan ev sw)
    (stepped : evScan cfg s.shared (s.fibers f) ev sw = some r) :
    Booked cfg s f r.shared r.fiber := by
  have still : Quiet cfg s f s.shared := ledger.quiet rfl rfl rfl rfl
  have free := ledger.agree_at at_
  have spares : ev.Spares := ledger.spares_at at_
  unfold evScan at stepped
  dsimp only at stepped
  split at stepped
  · cases stepped
    exact ledger.land at_ still (rests_sweepNext cfg sw spares) rfl free
  next occupied =>
    split at stepped <;> cases stepped
    · exact ledger.land at_ still (rests_sweepNext cfg sw spares) rfl free
    · -- a slot that maps to frame 0 is the one of page 0
      refine ledger.land at_ still ⟨rfl, rfl, ⟨spares, fun zero => ?_⟩, fun _ free => free⟩ rfl free
      have live : Slot.isLive (s.shared.table.slots (sw.idx cfg)) = true := by
        simpa [Slot.isLive] using occupied
      refine ledger.root _ ⟨sw.idx cfg, ?_, ⟨live, rfl⟩, zero⟩
      rw [Sweep.idx, cfg.table.and_slotMask]
      exact Nat.mod_lt _ cfg.table.slotCount_pos

theorem Ledger.step_evEvicting {p b mode : Nat} (ledger : Ledger cfg s)
    (at_ : (s.fibers f).pc = .evEvicting ev sw p b mode)
    (stepped : go s.shared (s.fibers f) (if (s.shared.frames b).state.evicting then sw.next cfg ev
      else if mode = marked then .evMarkLoad ev sw p b
      else if p = 0 then sw.next cfg ev
      else .evSet ev sw p b) = some r) : Booked cfg s f r.shared r.fiber := by
  have still : Quiet cfg s f s.shared := ledger.quiet rfl rfl rfl rfl
  have free := ledger.agree_at at_
  have spares : ev.Spares ∧ (b = 0 → p = 0) := ledger.spares_at at_
  cases stepped
  dsimp only
  split
  · exact ledger.land at_ still (rests_sweepNext cfg sw spares.1) rfl free
  · split
    · exact ledger.land at_ still ⟨rfl, rfl, spares.1, fun _ free => free⟩ rfl free
    · split
      next => exact ledger.land at_ still (rests_sweepNext cfg sw spares.1) rfl free
      next page =>
        exact ledger.land at_ still
          ⟨rfl, rfl, ⟨spares.1, fun zero => page (spares.2 zero)⟩, fun _ free => free⟩ rfl free

theorem Ledger.step_evDirty {p b : Nat} (ledger : Ledger cfg s)
    (at_ : (s.fibers f).pc = .evDirty ev sw p b)
    (stepped : evDirty cfg s.shared (s.fibers f) ev sw p b = some r) :
    Booked cfg s f r.shared r.fiber := by
  have still : Quiet cfg s f s.shared := ledger.quiet rfl rfl rfl rfl
  have free := ledger.agree_at at_
  have spares : ev.Spares ∧ b ≠ 0 := ledger.spares_at at_
  have more : ({ ev with toEvict := ev.toEvict ++ [b] } : Eviction).Spares := by
    refine ⟨?_, spares.1.2⟩
    simp [spares.1.1, Ne.symm spares.2]
  unfold evDirty at stepped
  split at stepped <;> cases stepped
  · exact ledger.move at_ still rfl rfl free spares
  · exact ledger.land at_ still (rests_chosen cfg sw more) rfl free

theorem Ledger.step_evClean {p b : Nat} (ledger : Ledger cfg s)
    (at_ : (s.fibers f).pc = .evClean ev sw p b)
    (stepped : evClean cfg s.shared (s.fibers f) ev sw b = some r) :
    Booked cfg s f r.shared r.fiber := by
  have free := ledger.agree_at at_
  have spares : ev.Spares ∧ b ≠ 0 := ledger.spares_at at_
  have more : ({ ev with toWrite := ev.toWrite ++ [b] } : Eviction).Spares := by
    refine ⟨spares.1.1, ?_⟩
    simp [spares.1.2, Ne.symm spares.2]
  unfold evClean at stepped
  cases stepped
  exact ledger.land at_ (ledger.quiet rfl rfl rfl rfl) (rests_chosen cfg sw more) rfl free

theorem Ledger.step_evUnreserve (ledger : Ledger cfg s)
    (at_ : (s.fibers f).pc = .evUnreserve ev)
    (stepped : evUnreserve s.shared (s.fibers f) ev = some r) :
    Booked cfg s f r.shared r.fiber := by
  have free := ledger.agree_at at_
  have spares : ev.Spares := ledger.spares_at at_
  have less : ({ ev with reserved := min ev.reserved (ev.toEvict.length + ev.toWrite.length) } :
    Eviction).Spares := spares
  have rests : Pc.Rests cfg ev.freed (if ev.toWrite = [] then
      ({ ev with reserved := min ev.reserved (ev.toEvict.length + ev.toWrite.length) } :
        Eviction).next .clean ev.toEvict
      else .evIssue { ev with reserved := min ev.reserved (ev.toEvict.length + ev.toWrite.length) }
        ev.toWrite []) := by
    split
    · exact rests_next cfg .clean less spares.1
    · exact ⟨rfl, rfl, spares, fun _ free => free⟩
  unfold evUnreserve at stepped
  cases stepped
  dsimp only
  by_cases few : ev.toEvict.length + ev.toWrite.length < ev.reserved
  · rw [if_pos few]
    exact ledger.land at_ (ledger.quiet rfl rfl rfl rfl) rests rfl free
  · rw [if_neg few]
    exact ledger.land at_ (ledger.quiet rfl rfl rfl rfl) rests rfl free

theorem Ledger.step_evAwait {pending : List Write} {choice : Nat} (ledger : Ledger cfg s)
    (at_ : (s.fibers f).pc = .evAwait ev pending)
    (stepped : evAwait s.shared (s.fibers f) ev pending choice = some r) :
    Booked cfg s f r.shared r.fiber := by
  have free := ledger.agree_at at_
  have spares : ev.Spares := ledger.spares_at at_
  unfold evAwait at stepped
  split at stepped
  · split at stepped <;> cases stepped
    exact ledger.land at_ (ledger.quiet rfl rfl rfl rfl) (rests_next cfg .clean spares spares.1)
      rfl free
  · cases stepped
    unfold Shared.stored
    dsimp only
    split <;>
      exact ledger.move at_ (ledger.quiet rfl rfl rfl rfl) rfl rfl free spares

theorem Ledger.step_evPost {ph : Phase} {b p : Nat} {rest : List Nat} (ledger : Ledger cfg s)
    (at_ : (s.fibers f).pc = .evPost ev ph b p rest)
    (stepped : evPost s.shared (s.fibers f) ev ph b rest = some r) :
    Booked cfg s f r.shared r.fiber := by
  have free : (s.shared.table.pcs f).canCall = true := ledger.agree_at at_
  obtain ⟨spares, sparing⟩ : ev.Spares ∧ 0 ∉ rest := ledger.spares_at at_
  have rests := rests_next cfg ph
    (show ({ ev with freed := ev.freed ++ [b] } : Eviction).Spares from spares) sparing
  unfold evPost at stepped
  cases stepped
  refine ledger.transfer at_ rfl (fun c => ?_) ?_ (fun _ => rfl) (fun _ _ => rfl) (fun _ => rfl)
    (rests.agree _ free) rests.spares
  · rw [rests.owned]
    simp only [Pc.owned, List.count_append, List.count_cons, List.count_nil]
    change freeCount cfg s.shared c + _ = _
    omega
  · rw [rests.due]
    rfl

end Evict

end UringDb.BufferMgr
