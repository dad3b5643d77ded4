import UringDb.PageTable.Steps

/-!
# Uniqueness and reachability of page-table entries under concurrency

In undisturbed runs a page id never has two entries and every entry is found by a
lookup that runs alone. Without the side condition both fail already with two
threads: an insert that probed past an occupied slot may place its entry behind a
slot which an erase meanwhile tombstones and its collapse turns back into EMPTY.
-/
namespace UringDb.PageTable

open Slot

variable {tb : Table} {threads : Nat}

/-- The labels of a run that show a successful insert of `p`. -/
def isInsertOf (p : Nat) (label : Act threads × Out) : Bool :=
  match label.2 with
  | .returned (.insert q _) (.bool true) => q == p
  | _ => false

/-- The label shows the return of an insert of `p`, successful or not. -/
def returnsInsertOf (p : Nat) (label : Act threads × Out) : Bool :=
  match label.2 with
  | .returned (.insert q _) (.bool _) => q == p
  | _ => false

/-- The label shows an erase of an entry of `p` taking effect. -/
def isEraseOf (p : Nat) (label : Act threads × Out) : Bool :=
  match label.2 with
  | .erased q _ => q == p
  | _ => false

def Present (tb : Table) (slots : Nat → Nat) (p : Nat) : Prop :=
  ∃ d < tb.slotCount, Holds slots (tb.probe p d) p

/-! ### Counting the successful inserts of one page -/

theorem insert_false_present {slots : Nat → Nat} {pc : Pc} {answer : Bool} {r : Result} {p b : Nat}
    (inv : PcInv tb slots pc) (stepped : tb.step slots answer pc = some r)
    (out : r.out = .returned (.insert p b) (.bool false)) : Present tb slots p := by
  cases pc with
  | probe q c d ft =>
    cases stepped
    revert out
    unfold Table.insertProbe
    dsimp only
    split
    · exact fun out => (by cases out)
    next notTomb =>
      split
      · exact fun out => (by cases out)
      next occupied =>
        split
        next same =>
          intro out
          cases out
          exact ⟨d, inv.2.2.1, by simp [isLive, notTomb, occupied], by simpa using same⟩
        · exact fun out => (by cases out)
  | idle | returned => cases stepped
  | find | erase | eraseIf =>
    cases stepped
    revert out
    first | unfold Table.find | unfold Table.eraseProbe
    dsimp only
    repeat' split
    all_goals exact fun out => (by cases out)
  | claim q c d ft =>
    cases ft <;> cases stepped <;> revert out <;> unfold Table.insertCas <;> split <;>
      exact fun out => (by cases out)
  | claimTombstone =>
    cases stepped
    revert out
    unfold Table.insertCas
    split <;> exact fun out => (by cases out)
  | eraseCas | eraseIfCas =>
    cases stepped
    revert out
    unfold Table.eraseCas
    split <;> exact fun out => (by cases out)
  | precheck => cases answer <;> cases stepped <;> cases out
  | scan | clear =>
    -- a collapse returns true
    cases stepped
    revert out
    first | unfold Table.scan | unfold Table.clear
    dsimp only
    repeat' split
    all_goals exact fun out => (by cases out)

/-- What one step shows and does to page `p`: its insert succeeds and only when it was
absent; or it has an entry afterwards exactly if it had one before, unless an erase of it
took effect. -/
theorem step_present {s s' : State threads} {label : Act threads × Out} (inv : Inv tb s)
    (stepped : (system tb threads).step s label s') (p : Nat) (kept : isEraseOf p label = false) :
    (isInsertOf p label = true ∧ ¬ Present tb s.slots p ∧ Present tb s'.slots p) ∨
    (isInsertOf p label = false ∧ (Present tb s'.slots p ↔ Present tb s.slots p) ∧
      (returnsInsertOf p label = true → Present tb s.slots p)) := by
  obtain ⟨a, out⟩ := label
  cases a with
  | call t c =>
    simp only [system, System.ofStep, exec] at stepped
    split at stepped
    · simp only [Option.map_eq_some_iff, Prod.mk.injEq] at stepped
      obtain ⟨pc, started, rfl, rfl⟩ := stepped
      exact Or.inr ⟨rfl, Iff.rfl, fun h => (by cases h)⟩
    · cases stepped
  | step t answer =>
    simp only [system, System.ofStep, exec, Option.map_eq_some_iff, Prod.mk.injEq] at stepped
    obtain ⟨r, stepped, rfl, rfl⟩ := stepped
    have failed : ∀ q b, r.out = .returned (.insert q b) (.bool false) → Present tb s.slots q :=
      fun q b out => insert_false_present (inv.pcs t) stepped out
    have returned : isInsertOf p ((Act.step t answer, r.out) : Act threads × Out) = false →
        returnsInsertOf p ((Act.step t answer, r.out) : Act threads × Out) = true →
        Present tb s.slots p := by
      intro notTrue returns
      simp only [returnsInsertOf] at returns
      split at returns
      next q b v out =>
        obtain rfl : q = p := by simpa using returns
        cases v with
        | false => exact failed q b out
        | true => simp [isInsertOf, out] at notTrue
      · cases returns
    have absent_insert : (∀ q b, r.out ≠ .returned (.insert q b) (.bool true)) →
        isInsertOf p ((Act.step t answer, r.out) : Act threads × Out) = false := by
      intro fails
      simp only [isInsertOf]
    cases step_change inv.reach (inv.pcs t) stepped with
    | quiet same _ fails =>
      have none := absent_insert fails
      exact Or.inr ⟨none, by simp only [same], returned none⟩
    | insert q b i can set shows_ =>
      by_cases same : q = p
      · subst same
        left
        refine ⟨by simp [isInsertOf, shows_], ?_, ?_⟩
        · rintro ⟨d, hd, holds⟩
          exact can.absent d hd holds
        · obtain ⟨d, hd, rfl, -⟩ := can.place
          exact ⟨d, hd, by rw [set]; exact can.holds_new.mpr rfl⟩
      · right
        have none : isInsertOf p ((Act.step t answer, r.out) : Act threads × Out) = false := by
          simp [isInsertOf, shows_, same]
        refine ⟨none, ?_, returned none⟩
        simp only [Present, set]
        refine exists_congr fun d => and_congr_right fun _ => ?_
        by_cases at_ : tb.probe p d = i
        · rw [at_, can.holds_new]
          refine iff_of_false (fun h => same h.symm) (fun holds => ?_)
          exact holds.ne_of_not_live can.dead rfl
        · exact holds_setSlot_ne _ at_
    | erase i _ _ live set shows_ =>
      right
      have none := absent_insert (fun q b h => by rw [shows_] at h; cases h)
      refine ⟨none, ?_, returned none⟩
      have other : Slot.pid (s.slots i) ≠ p := by
        simpa [isEraseOf, shows_] using kept
      simp only [Present, set]
      refine exists_congr fun d => and_congr_right fun _ => ?_
      constructor
      · exact fun holds => holds.of_tombstoned.2
      · intro holds
        refine (holds_setSlot_ne _ ?_).mpr holds
        intro at_
        exact other (at_ ▸ holds.2)
    | clear i tomb _ set _ fails =>
      right
      have none := absent_insert fails
      refine ⟨none, ?_, returned none⟩
      simp only [Present, set]
      exact exists_congr fun d => and_congr_right fun _ => Holds.cleared_iff tomb

/-- Along a run without an erase of `p`, the first successful insert of `p` is the last. -/
theorem path_inserts {s s' : State threads} {labels : List (Act threads × Out)} (inv : Inv tb s)
    (path : (system tb threads).Path (Quiet tb) s labels s') (p : Nat)
    (kept : ∀ label ∈ labels, isEraseOf p label = false) :
    (Present tb s.slots p → labels.countP (isInsertOf p) = 0) ∧
    (¬ Present tb s.slots p → labels.countP (isInsertOf p) ≤ 1 ∧
      ((∃ label ∈ labels, returnsInsertOf p label = true) → labels.countP (isInsertOf p) = 1)) := by
  induction path with
  | nil => simp
  | @cons s t u label labels step quiet rest ih =>
    have tail := ih (inv_step inv quiet step) (fun l hl => kept l (List.mem_cons_of_mem _ hl))
    rcases step_present inv step p (kept label List.mem_cons_self) with
      ⟨inserts, absent, present⟩ | ⟨none, same, returns⟩
    · refine ⟨fun h => absurd h absent, fun _ => ?_⟩
      have rest_zero := tail.1 present
      simp [inserts, rest_zero]
    · simp only [List.countP_cons, none, Bool.false_eq_true, if_false, Nat.add_zero]
      refine ⟨fun present => tail.1 (same.mpr present), fun absent => ?_⟩
      have after := tail.2 (fun h => absent (same.mp h))
      refine ⟨after.1, fun ⟨l, member, returned⟩ => after.2 ?_⟩
      rcases List.mem_cons.mp member with rfl | member
      · exact absurd (returns returned) absent
      · exact ⟨l, member, returned⟩

/-- No page id has two entries. -/
def OneEntry (tb : Table) (s : State threads) : Prop :=
  ∀ p i j, i < tb.slotCount → j < tb.slotCount → Holds s.slots i p → Holds s.slots j p → i = j

/-- Among the inserts of `p` in a stretch of the run that starts without an entry of `p` and
contains no erase of `p`, at most one returns true, and exactly one does if any returns. -/
def OneWinner (tb : Table) (ok : State threads → Act threads × Out → Prop) (s : State threads) :
    Prop :=
  ∀ p labels s', (system tb threads).Path ok s labels s' → ¬ Present tb s.slots p →
    (∀ label ∈ labels, isEraseOf p label = false) →
    labels.countP (isInsertOf p) ≤ 1 ∧
      ((∃ label ∈ labels, returnsInsertOf p label = true) → labels.countP (isInsertOf p) = 1)

theorem oneEntry_of_unique {s : State threads} (unique : Unique tb s.slots) : OneEntry tb s := by
  intro p i j hi hj first second
  obtain ⟨d, hd, rfl⟩ := tb.probe_surj p i hi
  obtain ⟨e, he, rfl⟩ := tb.probe_surj p j hj
  rw [unique p d e hd he first second]

/-- **Uniqueness.** In every state an undisturbed run reaches, a page id has at most one
entry, and of the inserts of one page that race with no erase of it exactly one wins. -/
theorem insert_unique (tb : Table) (threads : Nat) (labels : List (Act threads × Out))
    (s : State threads) (reached : (system tb threads).Reaches (Quiet tb) labels s) :
    OneEntry tb s ∧ OneWinner tb (Quiet tb) s := by
  have inv := inv_reaches reached
  exact ⟨oneEntry_of_unique inv.unique,
    fun p mid s' path absent kept => (path_inserts inv path p kept).2 absent⟩

theorem path_of_drive {s t : State threads} {acts : List (Act threads)}
    {labels : List (Act threads × Out)}
    (driven : drive (exec tb) (fun s a => decide (Undisturbed tb s a)) s acts = some (t, labels)) :
    (system tb threads).Path (Quiet tb) s labels t :=
  drive_path (fun s a _ met => of_decide_eq_true (p := Undisturbed tb s a) met) driven

/-- Threads 0 and 1 insert page 1 at the same time and then again, after page 2 was erased. -/
def racingInserts : List (Act 2) :=
  [.call 0 (.insert 2 5), .step 0 false, .step 0 false, .call 0 (.erase 2), .step 0 false,
   .step 0 false, .step 0 false, .step 0 false, .call 0 (.insert 1 7), .call 1 (.insert 1 8),
   .step 0 false, .step 1 false, .step 1 false, .step 0 false, .step 0 false]

theorem insert_unique_racing : ∃ labels s,
    (system (.ofBits 2) 2).Reaches (Quiet (.ofBits 2)) labels s ∧
    labels.countP (isInsertOf 1) = 1 ∧ labels.countP (returnsInsertOf 1) = 2 ∧
    OneEntry (.ofBits 2) s ∧ OneWinner (.ofBits 2) (Quiet (.ofBits 2)) s := by
  obtain ⟨s, labels, driven, wins, returns⟩ : ∃ s labels,
      drive (exec (.ofBits 2)) (fun s a => decide (Undisturbed (.ofBits 2) s a)) initial
        racingInserts = some (s, labels) ∧
      labels.countP (isInsertOf 1) = 1 ∧ labels.countP (returnsInsertOf 1) = 2 :=
    ⟨_, _, rfl, by decide, by decide⟩
  have reached : (system (.ofBits 2) 2).Reaches (Quiet (.ofBits 2)) labels s :=
    ⟨_, rfl, path_of_drive driven⟩
  exact ⟨labels, s, reached, wins, returns, insert_unique (.ofBits 2) 2 labels s reached⟩

/-- Thread 1 inserts page 1 behind page 3, which has the same home slot, while thread 0
erases page 3: the insert lands between the collapse's look at the next slot and its
clearing of the home slot. Then page 1 is inserted once more. -/
def lostEntry : List (Act 2) :=
  [.call 0 (.insert 3 7), .step 0 false, .step 0 false, .call 1 (.insert 1 8), .step 1 false,
   .step 1 false, .call 0 (.erase 3), .step 0 false, .step 0 false, .step 0 false]

theorem insert_duplicates : ∃ labels s, (system (.ofBits 2) 2).Path System.anyStep initial labels s ∧
    (∀ label ∈ labels, isEraseOf 1 label = false) ∧ labels.countP (isInsertOf 1) = 2 ∧
    ¬ OneEntry (.ofBits 2) s := by
  obtain ⟨s, labels, driven, kept, wins, first, second⟩ : ∃ s labels,
      drive (exec (.ofBits 2)) (fun _ _ => true) initial (lostEntry ++
        [.step 1 false, .step 0 false, .call 0 (.insert 1 9), .step 0 false, .step 0 false]) =
          some (s, labels) ∧
      (∀ label ∈ labels, isEraseOf 1 label = false) ∧ labels.countP (isInsertOf 1) = 2 ∧
      Holds s.slots 1 1 ∧ Holds s.slots 2 1 :=
    ⟨_, _, rfl, by decide, by decide, by decide, by decide⟩
  refine ⟨labels, s, drive_path (fun _ _ _ _ => trivial) driven, kept, wins, fun unique => ?_⟩
  exact absurd (unique 1 1 2 (by decide) (by decide) first second) (by decide)

/-! ### Lookups that run alone -/

/-- A lookup whose entry lies ahead walks to it. -/
theorem find_walks (p b d : Nat) (bounded : d < tb.slotCount) (t : Fin threads) :
    ∀ (left e : Nat) (s : State threads), e + left = d → s.pcs t = .find p e →
      s.slots (tb.probe p d) = word p b → b ≤ bidMask →
      (∀ c < d, s.slots (tb.probe p c) ≠ emptySlot ∧ ¬ Holds s.slots (tb.probe p c) p) →
      ∃ labels s', (system tb threads).Path System.anyStep s labels s' ∧
        labels.map Prod.fst = List.replicate (left + 1) (.step t false) ∧
        s'.pcs t = .returned (.findCopy p) (.found b) := by
  intro left
  induction left with
  | zero =>
    intro e s at_ pc entry fits _
    obtain rfl : e = d := by omega
    have live := isLive_word p b fits
    simp only [isLive, Bool.and_eq_true, Bool.not_eq_true'] at live
    refine ⟨[(.step t false, .returned (.findCopy p) (.found b))],
      s.setPc t (.returned (.findCopy p) (.found b)), .cons ?_ trivial (.nil _), rfl, ?_⟩
    · simp only [system, System.ofStep, exec, pc, Table.step, Table.find, entry, live.1, live.2,
        Bool.false_eq_true, if_false, Bool.not_false, Bool.true_and, pid_word p b fits, beq_self_eq_true,
        if_true, bid_word p b fits, Option.map_some]
      rfl
    · simp [State.setPc]
  | succ left ih =>
    intro e s at_ pc entry fits before
    have here := before e (by omega)
    have notEmpty : isEmpty (s.slots (tb.probe p e)) = false := by
      simpa [isEmpty] using here.1
    have skip : (!isTombstone (s.slots (tb.probe p e)) && Slot.pid (s.slots (tb.probe p e)) == p)
        = false := by
      by_contra hit
      simp only [Bool.not_eq_false, Bool.and_eq_true, Bool.not_eq_true', beq_iff_eq] at hit
      exact here.2 ⟨by simp [isLive, notEmpty, hit.1], hit.2⟩
    obtain ⟨labels, s', path, acts, done⟩ :=
      ih (e + 1) ⟨s.slots, Function.update s.pcs t (.find p (e + 1))⟩ (by omega)
        (by simp) entry fits before
    refine ⟨(.step t false, .silent) :: labels, s', .cons ?_ trivial path, ?_, done⟩
    · have more : e + 1 < tb.slotCount := by omega
      simp only [system, System.ofStep, exec, pc, Table.step, Table.find, notEmpty, skip, more,
        Bool.false_eq_true, if_false, if_true, Option.map_some]
      rfl
    · rw [List.map_cons, acts]
      rfl

/-- The entry `p -> b` is in the table, no EMPTY slot lies on its probe path, and a lookup
of `p` that runs without interference returns it. -/
def Findable (tb : Table) (s : State threads) (p b : Nat) : Prop :=
  ∃ i < tb.slotCount, s.slots i = word p b ∧
    (∀ d < tb.slotCount, tb.probe p d = i → ∀ e < d, s.slots (tb.probe p e) ≠ emptySlot) ∧
    ∀ t, (s.pcs t).canCall = true → ∃ labels s' k,
      (system tb threads).Path System.anyStep s labels s' ∧
      labels.map Prod.fst = .call t (.findCopy p) :: List.replicate k (.step t false) ∧
      s'.pcs t = .returned (.findCopy p) (.found b)

theorem findable_of_inv {s : State threads} {p b i : Nat} (inv : Inv tb s) (inRange : i < tb.slotCount)
    (fits : b ≤ bidMask) (entry : s.slots i = word p b) : Findable tb s p b := by
  have holds : Holds s.slots i p := by
    simp [Holds, entry, isLive_word p b fits, pid_word p b fits]
  obtain ⟨d, hd, rfl⟩ := tb.probe_surj p i inRange
  refine ⟨_, inRange, entry, fun c hc same => ?_, fun t free => ?_⟩
  · obtain rfl := tb.probe_inj hc hd same
    exact inv.reach p c hc holds
  · have before : ∀ c < d, s.slots (tb.probe p c) ≠ emptySlot ∧ ¬ Holds s.slots (tb.probe p c) p := by
      refine fun c hc => ⟨inv.reach p d hd holds c hc, fun early => ?_⟩
      have same := inv.unique p c d (by omega) hd early holds
      omega
    obtain ⟨labels, s', path, acts, done⟩ := find_walks p b d hd t d 0 (s.setPc t (.find p 0))
      (by omega) (by simp [State.setPc]) entry fits before
    refine ⟨(.call t (.findCopy p), .silent) :: labels, s', d + 1, .cons ?_ trivial path, ?_, done⟩
    · simp [system, System.ofStep, exec, free, Call.start]
    · rw [List.map_cons, acts]

/-- An entry stays in its slot until an erase of it takes effect. -/
theorem entry_stays {s s' : State threads} {label : Act threads × Out} (inv : Inv tb s)
    (stepped : (system tb threads).step s label s') {p b i : Nat} (fits : b ≤ bidMask)
    (kept : label.2 ≠ .erased p b) (entry : s.slots i = word p b) : s'.slots i = word p b := by
  have live : isLive (s.slots i) = true := by rw [entry]; exact isLive_word p b fits
  obtain ⟨a, out⟩ := label
  cases a with
  | call t c =>
    simp only [system, System.ofStep, exec] at stepped
    split at stepped
    · simp only [Option.map_eq_some_iff, Prod.mk.injEq] at stepped
      obtain ⟨pc, started, rfl, -⟩ := stepped
      exact entry
    · cases stepped
  | step t answer =>
    simp only [system, System.ofStep, exec, Option.map_eq_some_iff, Prod.mk.injEq] at stepped
    obtain ⟨r, stepped, rfl, rfl⟩ := stepped
    cases step_change inv.reach (inv.pcs t) stepped with
    | quiet same _ _ => simpa only [same] using entry
    | insert q c j can set _ =>
      have ne : i ≠ j := by
        rintro rfl
        rw [can.dead] at live
        cases live
      simpa only [set, setSlot_ne _ _ ne] using entry
    | erase j _ _ _ set shows_ =>
      have ne : i ≠ j := by
        rintro rfl
        exact kept (by rw [shows_, entry, pid_word p b fits, bid_word p b fits])
      simpa only [set, setSlot_ne _ _ ne] using entry
    | clear j tomb _ set _ _ =>
      have ne : i ≠ j := by
        rintro rfl
        rw [tomb] at live
        cases live
      simpa only [set, setSlot_ne _ _ ne] using entry

theorem insert_places {s s' : State threads} {label : Act threads × Out} (inv : Inv tb s)
    (stepped : (system tb threads).step s label s') {p b : Nat}
    (out : label.2 = .returned (.insert p b) (.bool true)) :
    b ≤ bidMask ∧ ∃ i < tb.slotCount, s'.slots i = word p b := by
  obtain ⟨a, out'⟩ := label
  cases a with
  | call t c =>
    simp only [system, System.ofStep, exec] at stepped
    split at stepped
    · simp only [Option.map_eq_some_iff, Prod.mk.injEq] at stepped
      obtain ⟨pc, started, -, rfl⟩ := stepped
      cases out
    · cases stepped
  | step t answer =>
    simp only [system, System.ofStep, exec, Option.map_eq_some_iff, Prod.mk.injEq] at stepped
    obtain ⟨r, stepped, rfl, rfl⟩ := stepped
    cases step_change inv.reach (inv.pcs t) stepped with
    | quiet _ _ fails => exact absurd out (fails p b)
    | insert q c i can set shows_ =>
      simp only [shows_, Out.returned.injEq, Call.insert.injEq, and_true] at out
      obtain ⟨rfl, rfl⟩ := out
      obtain ⟨d, -, rfl, -⟩ := can.place
      exact ⟨can.fits, tb.probe q d, tb.probe_lt _ _, by simp only [set, setSlot_same]⟩
    | erase i _ _ _ _ shows_ => simp [shows_] at out
    | clear i _ _ _ _ fails => exact absurd out (fails p b)

theorem path_entry_stays {s s' : State threads} {labels : List (Act threads × Out)} (inv : Inv tb s)
    (path : (system tb threads).Path (Quiet tb) s labels s') {p b i : Nat} (fits : b ≤ bidMask)
    (kept : ∀ label ∈ labels, label.2 ≠ .erased p b) (entry : s.slots i = word p b) :
    s'.slots i = word p b := by
  induction path with
  | nil => exact entry
  | cons step quiet _ ih =>
    exact ih (inv_step inv quiet step) (fun l hl => kept l (List.mem_cons_of_mem _ hl))
      (entry_stays inv step fits (kept _ List.mem_cons_self) entry)

/-- Once an insert of `p -> b` has returned true and as long as no erase of that entry took
effect, the entry is findable. -/
def NeverLost (tb : Table) (threads : Nat) (ok : State threads → Act threads × Out → Prop) : Prop :=
  ∀ (before after : List (Act threads × Out)) (s t u : State threads) (label : Act threads × Out)
    (p b : Nat),
    (system tb threads).Reaches ok before s → (system tb threads).step s label t → ok s label →
    label.2 = .returned (.insert p b) (.bool true) → (system tb threads).Path ok t after u →
    (∀ l ∈ after, l.2 ≠ .erased p b) → Findable tb u p b

/-- **No entry is lost.** -/
theorem insert_findable (tb : Table) (threads : Nat) : NeverLost tb threads (Quiet tb) := by
  intro before after s t u label p b reached step quiet out path kept
  have inv := inv_reaches reached
  have inv' := inv_step inv quiet step
  obtain ⟨fits, i, inRange, entry⟩ := insert_places inv step out
  have inv'' : Inv tb u := path.preserves (fun _ _ _ => inv_step) inv'
  exact findable_of_inv inv'' inRange fits (path_entry_stays inv' path fits kept entry)

/-- An insert that meets no erase of its page in the run: its entry is there. -/
theorem insert_findable_racing : ∃ before after s t u label,
    (system (.ofBits 2) 2).Reaches (Quiet (.ofBits 2)) before s ∧
    (system (.ofBits 2) 2).step s label t ∧
    label.2 = .returned (.insert 1 8) (.bool true) ∧
    (system (.ofBits 2) 2).Path (Quiet (.ofBits 2)) t after u ∧ Findable (.ofBits 2) u 1 8 := by
  obtain ⟨s, before, driven, quiet, t, stepped, u, after, driven', kept⟩ : ∃ s before,
      drive (exec (.ofBits 2)) (fun s a => decide (Undisturbed (.ofBits 2) s a)) initial
        (racingInserts.take 12) = some (s, before) ∧
      Undisturbed (.ofBits 2) s (.step 1 false) ∧ ∃ t,
      exec (.ofBits 2) s (.step 1 false) = some (t, .returned (.insert 1 8) (.bool true)) ∧
      ∃ u after, drive (exec (.ofBits 2)) (fun s a => decide (Undisturbed (.ofBits 2) s a)) t
        (racingInserts.drop 13) = some (u, after) ∧
      ∀ l ∈ after, l.2 ≠ .erased 1 8 :=
    ⟨_, _, rfl, by decide, _, rfl, _, _, rfl, by decide⟩
  have reached : (system (.ofBits 2) 2).Reaches (Quiet (.ofBits 2)) before s :=
    ⟨_, rfl, path_of_drive driven⟩
  have path : (system (.ofBits 2) 2).Path (Quiet (.ofBits 2)) t after u :=
    path_of_drive driven'
  let label : Act 2 × Out := (.step 1 false, .returned (.insert 1 8) (.bool true))
  exact ⟨before, after, s, t, u, label, reached, stepped, rfl, path,
    insert_findable (.ofBits 2) 2 before after s t u label 1 8 reached stepped quiet rfl path kept⟩

/-- The entry is cut off from its home slot by the collapse of page 3's tombstone. -/
theorem insert_lost : ¬ NeverLost (.ofBits 2) 2 System.anyStep := by
  intro never
  obtain ⟨s, before, driven, t, stepped, u, after, driven', kept, hole, elsewhere⟩ : ∃ s before,
      drive (exec (.ofBits 2)) (fun _ _ => true) initial lostEntry = some (s, before) ∧ ∃ t,
      exec (.ofBits 2) s (.step 1 false) = some (t, .returned (.insert 1 8) (.bool true)) ∧
      ∃ u after, drive (exec (.ofBits 2)) (fun _ _ => true) t [.step 0 false] = some (u, after) ∧
      (∀ l ∈ after, l.2 ≠ .erased 1 8) ∧
      u.slots ((Table.ofBits 2).probe 1 0) = emptySlot ∧
      ∀ i < 4, u.slots i = word 1 8 → i = (Table.ofBits 2).probe 1 1 :=
    ⟨_, _, rfl, _, rfl, _, _, rfl, by decide, by decide, by decide⟩
  obtain ⟨i, inRange, entry, free, -⟩ := never before after s t u
    (.step 1 false, .returned (.insert 1 8) (.bool true)) 1 8
    ⟨_, rfl, drive_path (fun _ _ _ _ => trivial) driven⟩ stepped trivial rfl
    (drive_path (fun _ _ _ _ => trivial) driven') kept
  exact free 1 (by decide) (elsewhere i inRange entry).symm 0 (by decide) hole

end UringDb.PageTable
