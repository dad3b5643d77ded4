import UringDb.PageTable.Sequential

/-!
# The page table as a partial map

One thread's calls on a fresh table form a session. The abstract side is a function from
page ids to frames together with what each call answers on it; the entries of the table
represent such a function, and a call that returns keeps it so. The exception is the call
that does not return: `erase` of a page without an entry on a table without an EMPTY slot.
-/
namespace UringDb.PageTable

open Slot

/-- Which frame a page is in. -/
abbrev PageMap := Nat → Option Nat

/-- What a call does to the map, and its answer. `answer` is what `precheck` says. -/
def PageMap.apply (m : PageMap) (answer : Bool) : Call → PageMap × Ret
  | .findCopy pid =>
    match m pid with
    | some bid => (m, .found bid)
    | none => (m, .bool false)
  | .insert pid bid =>
    if (m pid).isSome then (m, .bool false)
    else (Function.update m pid (some bid), .bool true)
  | .erase pid => (Function.update m pid none, .bool (m pid).isSome)
  | .eraseIf pid =>
    if (m pid).isSome && answer then (Function.update m pid none, .bool true)
    else (m, .bool false)

/-- The entries of the table are those of the map. -/
structure Represents (tb : Table) (slots : Nat → Nat) (m : PageMap) : Prop where
  sound : Sound tb slots
  entries : ∀ p b, m p = some b ↔ ∃ i < tb.slotCount, Entry slots i p b

namespace Represents

variable {tb : Table} {slots slots' : Nat → Nat} {m : PageMap} {p b : Nat}

theorem stored_iff (rep : Represents tb slots m) : Stored tb slots p ↔ (m p).isSome = true := by
  constructor
  · rintro ⟨i, bounded, holds⟩
    rw [(rep.entries p (Slot.bid (slots i))).mpr ⟨i, bounded, holds, rfl⟩]
    rfl
  · intro present
    obtain ⟨bid, same⟩ := Option.isSome_iff_exists.mp present
    obtain ⟨i, bounded, entry⟩ := (rep.entries p bid).mp same
    exact ⟨i, bounded, entry.1⟩

theorem removed (rep : Represents tb slots m) (removed : Removed tb slots p slots') :
    Represents tb slots' (Function.update m p none) where
  sound := removed.sound
  entries := by
    intro q c
    by_cases same : q = p
    · subst same
      rw [Function.update_self]
      constructor
      · intro absent
        cases absent
      · rintro ⟨i, bounded, entry⟩
        exact absurd rfl ((removed.entries bounded).mp entry).2
    · rw [Function.update_of_ne same, rep.entries q c]
      constructor
      · rintro ⟨i, bounded, entry⟩
        exact ⟨i, bounded, (removed.entries bounded).mpr ⟨entry, same⟩⟩
      · rintro ⟨i, bounded, entry⟩
        exact ⟨i, bounded, ((removed.entries bounded).mp entry).1⟩

theorem inserted (rep : Represents tb slots m) {i : Nat} (can : CanInsert tb slots p b i) :
    Represents tb (setSlot slots i (word p b)) (Function.update m p (some b)) where
  sound := ⟨can.reach rep.sound.reach, can.unique rep.sound.unique⟩
  entries := by
    have here : i < tb.slotCount := by
      obtain ⟨d, -, rfl, -⟩ := can.place
      exact tb.probe_lt p d
    have elsewhere : ∀ {j q c}, j ≠ i →
        (Entry (setSlot slots i (word p b)) j q c ↔ Entry slots j q c) := by
      intro j q c apart
      simp only [Entry, Holds, setSlot_ne _ _ apart]
    have placed : ∀ {q c}, Entry (setSlot slots i (word p b)) i q c ↔ q = p ∧ c = b := by
      intro q c
      simp only [Entry, can.holds_new, setSlot_same, bid_word p b can.fits, eq_comm (a := c)]
    intro q c
    by_cases same : q = p
    · subst same
      rw [Function.update_self]
      constructor
      · intro stored
        exact ⟨i, here, placed.mpr ⟨rfl, (Option.some.inj stored).symm⟩⟩
      · rintro ⟨j, bounded, entry⟩
        by_cases apart : j = i
        · subst apart
          rw [(placed.mp entry).2]
        · -- the page had no entry before
          obtain ⟨e, he, rfl⟩ := tb.probe_surj q j bounded
          exact absurd ((elsewhere apart).mp entry).1 (can.absent e he)
    · rw [Function.update_of_ne same, rep.entries q c]
      constructor
      · rintro ⟨j, bounded, entry⟩
        have apart : j ≠ i := entry.1.ne_of_not_live can.dead
        exact ⟨j, bounded, (elsewhere apart).mpr entry⟩
      · rintro ⟨j, bounded, entry⟩
        have apart : j ≠ i := by
          rintro rfl
          exact same (placed.mp entry).1
        exact ⟨j, bounded, (elsewhere apart).mp entry⟩

end Represents

/-- On its own, the call ends, and does to the table what it does to the map. -/
def Refines (tb : Table) (answer : Bool) (slots : Nat → Nat) (m : PageMap) (call : Call)
    (pc : Pc) : Prop :=
  ∃ slots', Returns tb answer slots pc slots' (m.apply answer call).2 ∧
    Represents tb slots' (m.apply answer call).1

section

variable {tb : Table} {slots : Nat → Nat} {m : PageMap}

theorem findCopy_refines (rep : Represents tb slots m) (answer : Bool) (p : Nat) :
    Refines tb answer slots m (.findCopy p) (.find p 0) := by
  simp only [Refines, PageMap.apply]
  cases present : m p with
  | none =>
    refine ⟨slots, find_absent answer ?_, rep⟩
    rw [rep.stored_iff, present]
    simp
  | some bid =>
    have stored : Stored tb slots p := rep.stored_iff.mpr (by rw [present]; rfl)
    cases found tb slots p with
    | entry d bounded holds before =>
      have same := (rep.entries p _).mpr ⟨_, tb.probe_lt p d, holds, rfl⟩
      obtain rfl : bid = Slot.bid (slots (tb.probe p d)) :=
        Option.some.inj (present.symm.trans same)
      exact ⟨slots, find_entry answer bounded holds before, rep⟩
    | empty d bounded empty before =>
      exact absurd stored (not_stored_of_empty rep.sound empty before)
    | round before => exact absurd stored (not_stored_of_round before)

theorem insert_refines (rep : Represents tb slots m) (answer : Bool) {p b : Nat}
    (fits : b ≤ bidMask) (room : liveEntries tb slots < tb.slotCount) :
    Refines tb answer slots m (.insert p b) (.probe p b 0 none) := by
  simp only [Refines, PageMap.apply]
  rcases insert_inserts (p := p) answer rep.sound fits room with
    ⟨stored, returns⟩ | ⟨i, can, returns⟩
  · rw [if_pos (rep.stored_iff.mp stored)]
    exact ⟨slots, returns, rep⟩
  · have absent : ¬ Stored tb slots p := by
      rintro ⟨j, bounded, holds⟩
      obtain ⟨e, he, rfl⟩ := tb.probe_surj p j bounded
      exact can.absent e he holds
    rw [if_neg (fun present => absent (rep.stored_iff.mpr present))]
    exact ⟨_, returns, rep.inserted can⟩

theorem eraseIf_refines (rep : Represents tb slots m) (answer : Bool) (p : Nat) :
    Refines tb answer slots m (.eraseIf p) (.eraseIf p 0) := by
  simp only [Refines, PageMap.apply]
  by_cases stored : Stored tb slots p
  · obtain ⟨declined, slots', returns, removed⟩ := eraseIf_stored rep.sound stored
    rw [rep.stored_iff.mp stored, Bool.true_and]
    cases answer with
    | false => exact ⟨slots, declined, rep⟩
    | true => exact ⟨slots', returns, rep.removed removed⟩
  · have absent : (m p).isSome = false := by simpa [rep.stored_iff] using stored
    rw [absent]
    exact ⟨slots, eraseIf_absent answer stored, rep⟩

theorem PageMap.update_none {p : Nat} (absent : m p = none) : Function.update m p none = m := by
  rw [← absent, Function.update_eq_self]

theorem erase_refines (rep : Represents tb slots m) (answer : Bool) {p : Nat}
    (stops : Stored tb slots p ∨ ∃ i < tb.slotCount, slots i = emptySlot) :
    Refines tb answer slots m (.erase p) (.erase p 0) := by
  simp only [Refines, PageMap.apply]
  by_cases stored : Stored tb slots p
  · obtain ⟨slots', returns, removed⟩ := erase_stored answer rep.sound stored
    rw [rep.stored_iff.mp stored]
    exact ⟨slots', returns, rep.removed removed⟩
  · have absent : m p = none := by
      simpa [rep.stored_iff] using stored
    rw [PageMap.update_none absent, absent]
    obtain ⟨i, inRange, empty⟩ := stops.resolve_left stored
    obtain ⟨e, he, rfl⟩ := tb.probe_surj p i inRange
    cases found tb slots p with
    | entry d bounded holds before => exact absurd ⟨_, tb.probe_lt p d, holds⟩ stored
    | empty d bounded empty before =>
      exact ⟨slots, erase_empty answer bounded empty before, rep⟩
    | round before => exact absurd empty (before e he).1

/-- An erase that is neither stopped by an entry nor by an EMPTY slot does not end. -/
theorem erase_terminates_iff (rep : Represents tb slots m) (answer : Bool) (p : Nat) :
    Terminates tb answer slots (.erase p 0) ↔
      Stored tb slots p ∨ ∃ i < tb.slotCount, slots i = emptySlot := by
  constructor
  · rintro ⟨slots', ret, returns⟩
    by_contra stuck
    push Not at stuck
    refine erase_diverges (fun e he => ⟨stuck.2 _ (tb.probe_lt p e), ?_⟩) returns
    intro holds
    exact stuck.1 ⟨_, tb.probe_lt p e, holds⟩
  · intro stops
    obtain ⟨slots', returns, -⟩ := erase_refines rep answer stops
    exact ⟨slots', _, returns⟩

end

/-! ### Sessions -/

/-- A call that has returned. -/
structure Event where
  call : Call
  answer : Bool
  ret : Ret
  deriving DecidableEq, Repr

/-- An insert is made only while some slot holds no live entry. -/
def HasRoom (tb : Table) (slots : Nat → Nat) : Call → Prop
  | .insert _ _ => liveEntries tb slots < tb.slotCount
  | _ => True

/-- The calls one thread has made on a fresh table, one after the other, each of which
returned. -/
inductive Session (tb : Table) : List Event → (Nat → Nat) → Prop
  | fresh : Session tb [] fun _ => emptySlot
  | call {events : List Event} {slots slots' : Nat → Nat} {call : Call} {answer : Bool}
      {ret : Ret} {pc : Pc} (session : Session tb events slots) (room : HasRoom tb slots call)
      (started : call.start = some pc) (returns : Returns tb answer slots pc slots' ret) :
      Session tb (events ++ [⟨call, answer, ret⟩]) slots'

def PageMap.after (events : List Event) : PageMap :=
  events.foldl (fun m e => (m.apply e.answer e.call).1) fun _ => none

/-- Every call answered what the map answers at that point. -/
def Faithful (events : List Event) : Prop :=
  ∀ before e rest, events = before ++ e :: rest →
    e.ret = ((PageMap.after before).apply e.answer e.call).2

theorem PageMap.after_snoc (events : List Event) (e : Event) :
    PageMap.after (events ++ [e]) = ((PageMap.after events).apply e.answer e.call).1 := by
  simp [PageMap.after]

theorem faithful_snoc {events : List Event} {e : Event} (faithful : Faithful events)
    (last : e.ret = ((PageMap.after events).apply e.answer e.call).2) :
    Faithful (events ++ [e]) := by
  intro before e' rest split
  rcases List.eq_nil_or_concat rest with rfl | ⟨rest', last', rfl⟩
  · obtain ⟨rfl, same⟩ := List.append_inj' split rfl
    obtain rfl : e = e' := by simpa using same
    exact last
  · rw [List.concat_eq_append, ← List.cons_append, ← List.append_assoc] at split
    obtain ⟨same, -⟩ := List.append_inj' split rfl
    exact faithful before e' rest' same

theorem represents_fresh (tb : Table) : Represents tb (fun _ => emptySlot) fun _ => none where
  sound := ⟨fun p d _ holds => (by cases holds.1), fun p d e _ _ holds => (by cases holds.1)⟩
  entries := by
    intro p b
    constructor
    · intro absent
      cases absent
    · rintro ⟨i, -, entry⟩
      cases entry.1.1

theorem insert_start {p b : Nat} {pc : Pc} (started : (Call.insert p b).start = some pc) :
    b ≤ bidMask ∧ pc = .probe p b 0 none := by
  simp only [Call.start, pack] at started
  split at started
  next fits => exact ⟨fits.2, (Option.some.inj started).symm⟩
  next => cases started

theorem refines_of_returns {tb : Table} {slots slots' : Nat → Nat} {m : PageMap} {call : Call}
    {answer : Bool} {ret : Ret} {pc : Pc} (rep : Represents tb slots m)
    (room : HasRoom tb slots call) (started : call.start = some pc)
    (returns : Returns tb answer slots pc slots' ret) :
    Refines tb answer slots m call pc := by
  cases call with
  | findCopy p =>
    obtain rfl : Pc.find p 0 = pc := Option.some.inj started
    exact findCopy_refines rep answer p
  | insert p b =>
    obtain ⟨fits, rfl⟩ := insert_start started
    exact insert_refines rep answer fits room
  | erase p =>
    obtain rfl : Pc.erase p 0 = pc := Option.some.inj started
    exact erase_refines rep answer ((erase_terminates_iff rep answer p).mp ⟨_, _, returns⟩)
  | eraseIf p =>
    obtain rfl : Pc.eraseIf p 0 = pc := Option.some.inj started
    exact eraseIf_refines rep answer p

theorem Session.represents {tb : Table} {events : List Event} {slots : Nat → Nat}
    (session : Session tb events slots) :
    Represents tb slots (PageMap.after events) ∧ Faithful events := by
  induction session with
  | fresh =>
    refine ⟨represents_fresh tb, ?_⟩
    intro before e rest split
    cases before <;> cases split
  | call _ room started returns ih =>
    obtain ⟨slots', expected, rep⟩ := refines_of_returns ih.1 room started returns
    obtain ⟨rfl, rfl⟩ := expected.unique returns
    rw [PageMap.after_snoc]
    exact ⟨rep, faithful_snoc ih.2 rfl⟩

/-- `pack` loses nothing of a page id and a frame in range, fits a slot, and yields neither
reserved word. -/
def PackLossless : Prop :=
  ∀ p b, p < pidLimit → b ≤ bidMask → ∃ raw, pack p b = some raw ∧ raw < 2 ^ 64 ∧
    Slot.pid raw = p ∧ Slot.bid raw = b ∧ raw ≠ emptySlot ∧ raw ≠ tombstoneSlot

theorem pack_lossless : PackLossless := by
  intro p b limit fits
  have live := (isLive_iff _).mp (isLive_word p b fits)
  refine ⟨word p b, ?_, word_lt p b limit fits, pid_word p b fits, bid_word p b fits, live⟩
  simp only [pack, if_pos (And.intro limit fits)]

/-- Calls other than `erase`, whose loop has no bound. -/
def Call.bounded : Call → Bool
  | .erase _ => false
  | _ => true

theorem bounded_terminates {tb : Table} {slots : Nat → Nat} {m : PageMap} {pc : Pc} (call : Call)
    (rep : Represents tb slots m) (answer : Bool) (room : HasRoom tb slots call)
    (bounded : call.bounded = true) (started : call.start = some pc) :
    Terminates tb answer slots pc := by
  cases call with
  | findCopy p =>
    obtain rfl : Pc.find p 0 = pc := Option.some.inj started
    obtain ⟨slots', returns, -⟩ := findCopy_refines rep answer p
    exact ⟨slots', _, returns⟩
  | insert p b =>
    obtain ⟨fits, rfl⟩ := insert_start started
    obtain ⟨slots', returns, -⟩ := insert_refines rep answer fits room
    exact ⟨slots', _, returns⟩
  | erase p => cases bounded
  | eraseIf p =>
    obtain rfl : Pc.eraseIf p 0 = pc := Option.some.inj started
    obtain ⟨slots', returns, -⟩ := eraseIf_refines rep answer p
    exact ⟨slots', _, returns⟩

/-- In every session the table answers as the map does, it holds the map's entries, and the
next call ends unless it is an `erase`. -/
theorem session_is_map : PackLossless ∧ ∀ (tb : Table) (events : List Event) (slots : Nat → Nat),
    Session tb events slots → Faithful events ∧
      (∀ p b, PageMap.after events p = some b ↔ ∃ i < tb.slotCount, Entry slots i p b) ∧
      ∀ call pc answer, HasRoom tb slots call → call.bounded = true → call.start = some pc →
        Terminates tb answer slots pc := by
  refine ⟨pack_lossless, fun tb events slots session => ?_⟩
  obtain ⟨rep, faithful⟩ := session.represents
  refine ⟨faithful, rep.entries, fun call pc answer room bounded started => ?_⟩
  exact bounded_terminates call rep answer room bounded started

/-- One thread's call ends on every table it can have built, except that an erase ends exactly
if the page has an entry or some slot is EMPTY. -/
theorem call_terminates_iff (tb : Table) (events : List Event) (slots : Nat → Nat)
    (session : Session tb events slots) (answer : Bool) (p : Nat) :
    Terminates tb answer slots (.find p 0) ∧ Terminates tb answer slots (.eraseIf p 0) ∧
    (∀ call start, start < tb.slotCount →
      Terminates tb answer slots (tb.collapse call start)) ∧
    (Terminates tb answer slots (.erase p 0) ↔
      Stored tb slots p ∨ ∃ i < tb.slotCount, slots i = emptySlot) := by
  obtain ⟨rep, -⟩ := session.represents
  refine ⟨?_, ?_, ?_, erase_terminates_iff rep answer p⟩
  · exact bounded_terminates (.findCopy p) rep answer trivial rfl rfl
  · exact bounded_terminates (.eraseIf p) rep answer trivial rfl rfl
  · intro call start bounded
    obtain ⟨slots', returns, -⟩ := collapse_returns tb answer call slots bounded
    exact ⟨slots', _, returns⟩

/-! ### Sessions that are played -/

instance decidableHasRoom (tb : Table) (slots : Nat → Nat) (call : Call) :
    Decidable (HasRoom tb slots call) :=
  match call with
  | .findCopy _ => isTrue trivial
  | .insert _ _ => inferInstanceAs (Decidable (_ < _))
  | .erase _ => isTrue trivial
  | .eraseIf _ => isTrue trivial

/-- Makes the calls one after the other, with at most `fuel` steps for each. -/
def Table.serve (tb : Table) (fuel : Nat) (slots : Nat → Nat) (events : List Event) :
    List (Call × Bool) → Option ((Nat → Nat) × List Event)
  | [] => some (slots, events)
  | (call, answer) :: rest =>
    if HasRoom tb slots call then do
      let pc ← call.start
      let (slots', ret) ← tb.complete answer fuel slots pc
      tb.serve fuel slots' (events ++ [⟨call, answer, ret⟩]) rest
    else none

theorem serve_session {tb : Table} {fuel : Nat} {slots slots' : Nat → Nat}
    {events events' : List Event} {calls : List (Call × Bool)} (session : Session tb events slots)
    (served : tb.serve fuel slots events calls = some (slots', events')) :
    Session tb events' slots' := by
  induction calls generalizing slots events with
  | nil =>
    cases served
    exact session
  | cons call rest ih =>
    obtain ⟨call, answer⟩ := call
    simp only [Table.serve] at served
    split at served
    next room =>
      simp only [Option.bind_eq_bind, Option.bind_eq_some_iff] at served
      obtain ⟨pc, started, ⟨after, ret⟩, returns, served⟩ := served
      exact ih (.call session room started ⟨fuel, returns⟩) served
    next => cases served

/-- Two pages come and go on four slots; each erase leaves a tombstone before the next
page's entry, so no slot becomes EMPTY again. -/
def churn : List (Call × Bool) :=
  [(.insert 6 0, true), (.insert 1 1, true), (.erase 6, true), (.insert 2 0, true),
   (.erase 1, true), (.insert 0 1, true), (.erase 2, true)]

theorem session_is_map_churn : ∃ events slots, Session (.ofBits 2) events slots ∧
    events.length = 7 ∧ Faithful events ∧
    (∀ p b, PageMap.after events p = some b ↔ ∃ i < (Table.ofBits 2).slotCount, Entry slots i p b) ∧
    liveEntries (.ofBits 2) slots = 1 ∧ ∃ pc, (Call.insert 9 3).start = some pc ∧
      Terminates (.ofBits 2) true slots pc := by
  obtain ⟨slots, events, served, made, one⟩ : ∃ slots events,
      (Table.ofBits 2).serve 10 (fun _ => emptySlot) [] churn = some (slots, events) ∧
      events.length = 7 ∧ liveEntries (.ofBits 2) slots = 1 :=
    ⟨_, _, rfl, rfl, rfl⟩
  have session := serve_session .fresh served
  obtain ⟨faithful, entries, ends⟩ := session_is_map.2 (.ofBits 2) events slots session
  refine ⟨events, slots, session, made, faithful, entries, one, _, rfl, ?_⟩
  exact ends (.insert 9 3) _ true (by rw [HasRoom, one]; decide) rfl rfl

theorem call_terminates_iff_churn : ∃ events slots, Session (.ofBits 2) events slots ∧
    Terminates (.ofBits 2) true slots (.erase 0 0) ∧
    Terminates (.ofBits 2) true slots (.eraseIf 9 0) := by
  obtain ⟨slots, events, served, stored⟩ : ∃ slots events,
      (Table.ofBits 2).serve 10 (fun _ => emptySlot) [] churn = some (slots, events) ∧
      Holds slots 3 0 :=
    ⟨_, _, rfl, by decide⟩
  have session := serve_session .fresh served
  refine ⟨events, slots, session, ?_, ?_⟩
  · exact (call_terminates_iff _ _ _ session true 0).2.2.2.mpr (Or.inl ⟨3, by decide, stored⟩)
  · exact (call_terminates_iff _ _ _ session true 9).2.1

/-- After that churn, with one entry in four slots, erasing a page that has none never ends. -/
theorem erase_never_returns : ∃ events slots, Session (.ofBits 2) events slots ∧
    liveEntries (.ofBits 2) slots = 1 ∧ ¬ Terminates (.ofBits 2) true slots (.erase 9 0) := by
  obtain ⟨slots, events, served, one, occupied⟩ : ∃ slots events,
      (Table.ofBits 2).serve 10 (fun _ => emptySlot) [] churn = some (slots, events) ∧
      liveEntries (.ofBits 2) slots = 1 ∧
      ∀ i < (Table.ofBits 2).slotCount, slots i ≠ emptySlot ∧ ¬ Holds slots i 9 :=
    ⟨_, _, rfl, rfl, by decide⟩
  have session := serve_session .fresh served
  refine ⟨events, slots, session, one, ?_⟩
  rw [erase_terminates_iff session.represents.1]
  rintro (⟨i, bounded, holds⟩ | ⟨i, bounded, empty⟩)
  · exact (occupied i bounded).2 holds
  · exact (occupied i bounded).1 empty

end UringDb.PageTable
