import UringDb.RobinHood.Calls

/-!
# The robin-hood map as a finite map

A session is a sequence of calls on a fresh table; an exception ends it. As long as no probe
distance overflows, the answers are those of a finite map, and the table is in order after every
call.
-/
namespace UringDb.RobinHood

open RHBSU64Map

variable {V : Type}

inductive Call (V : Type)
  | insert (k : UInt64) (v : V)
  | find (k : UInt64)
  | erase (k : UInt64)

def Call.key : Call V → UInt64
  | .insert k _ => k
  | .find k => k
  | .erase k => k

/-- What a call returns; `failed` is an exception. -/
inductive Answer (V : Type)
  | bool (b : Bool)
  | value (v : Option V)
  | failed
deriving DecidableEq

/-! ### Sessions of the table -/

namespace RHBSU64Map

def Outcome.answer : Outcome → Answer V
  | .inserted => .bool true
  | .updated => .bool false
  | .overflow => .failed
  | .refused => .failed

def call (hash : UInt64 → UInt64) (m : RHBSU64Map V) :
    Call V → Option (Answer V × RHBSU64Map V)
  | .insert k v => (m.insert hash k v).map fun r => (r.1.answer, r.2)
  | .find k => some (.value (m.find hash k), m)
  | .erase k => (m.erase hash k).map fun r => (.bool r.1, r.2)

/-- The calls of a session in turn. `none` is a call that does not return. -/
def run (hash : UInt64 → UInt64) :
    RHBSU64Map V → List (Call V) → Option (List (Answer V) × RHBSU64Map V)
  | m, [] => some ([], m)
  | m, c :: calls =>
    match m.call hash c with
    | none => none
    | some (.failed, m) => some ([.failed], m)
    | some (a, m) => (run hash m calls).map fun r => (a :: r.1, r.2)

end RHBSU64Map

/-! ### Sessions of a finite map -/

abbrev FiniteMap (V : Type) := Finmap fun _ : UInt64 => V

def FiniteMap.call (f : FiniteMap V) : Call V → Answer V × FiniteMap V
  | .insert k v => (.bool (decide (k ∉ f)), f.insert k v)
  | .find k => (.value (f.lookup k), f)
  | .erase k => (.bool (decide (k ∈ f)), f.erase k)

def FiniteMap.run : FiniteMap V → List (Call V) → List (Answer V) × FiniteMap V
  | f, [] => ([], f)
  | f, c :: calls => ((f.call c).1 :: ((f.call c).2.run calls).1, ((f.call c).2.run calls).2)

/-! ### Refinement -/

/-- The table is in order and stores the entries of the map. -/
structure Represents (hash : UInt64 → UInt64) (m : RHBSU64Map V) (f : FiniteMap V) : Prop where
  sound : Sound hash m
  based : Based m
  stored : ∀ k v, Stored m ⟨k, v⟩ ↔ f.lookup k = some v
  size : m.sz = f.keys.card
  clear : emptyKey ∉ f

section

variable {hash : UInt64 → UInt64} {m t : RHBSU64Map V} {f : FiniteMap V} {k : UInt64} {v : V}

theorem represents_new [Inhabited V] (hash : UInt64 → UInt64) (bits : Nat) :
    Represents hash (new bits : RHBSU64Map V) ∅ where
  sound := by
    refine ⟨⟨?_, ?_, ?_⟩, ?_⟩
    · intro i _ taken
      exact absurd rfl taken
    · intro i _
      exact Nat.zero_le _
    · intro i _
      exact Nat.zero_le _
    · intro i _ j _ taken
      exact absurd rfl taken
  based := ⟨0, n_pos _, Nat.zero_le 1⟩
  stored := by
    intro k v
    rw [Finmap.lookup_empty]
    constructor
    · rintro ⟨i, -, taken, -⟩
      exact absurd rfl taken
    · intro impossible
      cases impossible
  size := rfl
  clear := Finmap.notMem_empty

theorem Represents.find_eq (rep : Represents hash m f) (k : UInt64) :
    m.find hash k = f.lookup k := by
  by_cases sentinel : k = emptyKey
  · rw [find, slotOf, if_pos sentinel, sentinel, Finmap.lookup_eq_none.mpr rep.clear]
    rfl
  · apply Option.ext
    intro v
    rw [rep.sound.find_eq_some_iff sentinel, rep.stored]

theorem Represents.proper (rep : Represents hash m f) {x : Entry V} (stored : Stored m x) :
    x.key ≠ emptyKey := by
  intro sentinel
  have found := (rep.stored x.key x.val).mp stored
  rw [sentinel] at found
  exact rep.clear (Finmap.mem_of_lookup_eq_some found)

theorem Represents.slot (rep : Represents hash m f) (member : k ∈ f) :
    ∃ j < m.n, m.ctrl j ≠ 0 ∧ (m.entries j).key = k := by
  obtain ⟨v, found⟩ := Finmap.mem_iff.mp member
  obtain ⟨j, inside, taken, same⟩ := (rep.stored k v).mpr found
  exact ⟨j, inside, taken, by rw [same]⟩

theorem Represents.absent (rep : Represents hash m f) (absent : k ∉ f) (x : Entry V)
    (stored : Stored m x) : x.key ≠ k := by
  rintro rfl
  exact absent (Finmap.mem_of_lookup_eq_some ((rep.stored x.key x.val).mp stored))

theorem card_insert (absent : k ∉ f) : (f.insert k v).keys.card = f.keys.card + 1 := by
  have keys : (f.insert k v).keys = Insert.insert k f.keys := by
    ext q
    rw [Finmap.mem_keys, Finmap.mem_insert, Finset.mem_insert, Finmap.mem_keys]
  rw [keys, Finset.card_insert_of_notMem (by rwa [Finmap.mem_keys])]

theorem card_insert_of_mem (member : k ∈ f) : (f.insert k v).keys.card = f.keys.card := by
  congr 1
  ext q
  rw [Finmap.mem_keys, Finmap.mem_insert, Finmap.mem_keys, or_iff_right_of_imp]
  rintro rfl
  exact member

theorem lookup_insert_iff {q : UInt64} {w : V} :
    (f.insert k v).lookup q = some w ↔ (f.lookup q = some w ∧ q ≠ k) ∨ (q = k ∧ w = v) := by
  by_cases same : q = k
  · subst same
    rw [Finmap.lookup_insert, Option.some.injEq]
    constructor
    · rintro rfl
      exact Or.inr ⟨rfl, rfl⟩
    · rintro (⟨-, apart⟩ | ⟨-, rfl⟩)
      · exact absurd rfl apart
      · rfl
  · rw [Finmap.lookup_insert_of_ne _ same]
    constructor
    · exact fun found => Or.inl ⟨found, same⟩
    · rintro (⟨found, -⟩ | ⟨rfl, -⟩)
      · exact found
      · exact absurd rfl same

theorem entry_eq_iff {q : UInt64} {w : V} :
    (⟨q, w⟩ : Entry V) = ⟨k, v⟩ ↔ q = k ∧ w = v := Entry.mk.injEq .. ▸ Iff.rfl

theorem Represents.insert (rep : Represents hash m f) (proper : k ≠ emptyKey) (v : V) :
    ∃ out t, m.insert hash k v = some (out, t) ∧ t.bits = m.bits ∧
      (out = .overflow ∨ out.answer = Answer.bool (V := V) (decide (k ∉ f)) ∧
        Represents hash t (f.insert k v)) := by
  have clear : emptyKey ∉ f.insert k v := by
    rw [Finmap.mem_insert, not_or]
    exact ⟨proper.symm, rep.clear⟩
  by_cases member : k ∈ f
  · obtain ⟨j, inside, taken, same⟩ := rep.slot member
    obtain ⟨t, done, sound, ctrl, bits, sz, stored⟩ :=
      rep.sound.insert_stored (v := v) proper inside taken same
    refine ⟨_, t, done, bits, Or.inr ⟨by simp [Outcome.answer, member], sound, ?_, ?_, ?_, clear⟩⟩
    · obtain ⟨b, insideB, low⟩ := rep.based
      refine ⟨b, ?_, ?_⟩
      · rwa [n, bits]
      · rwa [ctrl]
    · intro q w
      rw [stored, rep.stored, lookup_insert_iff, entry_eq_iff]
    · rw [sz, rep.size, card_insert_of_mem member]
  · obtain ⟨out, t, done⟩ := rep.sound.insert_ends proper (rep.absent member) v
    obtain ⟨sound, bits, ⟨rfl, based, sz, stored⟩ | ⟨rfl, -⟩⟩ :=
      rep.sound.insert_new proper (rep.absent member) done
    · refine ⟨_, t, done, bits,
        Or.inr ⟨by simp [Outcome.answer, member], sound, based, ?_, ?_, clear⟩⟩
      · intro q w
        rw [stored, rep.stored, lookup_insert_iff, entry_eq_iff]
        constructor
        · rintro (found | here)
          · refine Or.inl ⟨found, ?_⟩
            rintro rfl
            exact member (Finmap.mem_of_lookup_eq_some found)
          · exact Or.inr here
        · rintro (⟨found, -⟩ | here)
          · exact Or.inl found
          · exact Or.inr here
      · rw [sz, rep.size, card_insert member]
    · exact ⟨_, t, done, bits, Or.inl rfl⟩

theorem Represents.erase (rep : Represents hash m f) (proper : k ≠ emptyKey) :
    ∃ t, m.erase hash k = some (decide (k ∈ f), t) ∧ t.bits = m.bits ∧
      Represents hash t (f.erase k) := by
  by_cases member : k ∈ f
  · obtain ⟨j, inside, taken, same⟩ := rep.slot member
    obtain ⟨t, done, sound, based, bits, sz, stored⟩ :=
      rep.sound.erase_stored rep.based proper inside taken same
    refine ⟨t, by rw [done, decide_eq_true member], bits, sound, based, ?_, ?_, ?_⟩
    · intro q w
      rw [stored, rep.stored]
      by_cases here : q = k
      · subst here
        rw [Finmap.lookup_erase]
        simp
      · rw [Finmap.lookup_erase_ne here]
        exact and_iff_left here
    · rw [sz, rep.size, Finmap.keys_erase, Finset.card_erase_of_mem (Finmap.mem_keys.mpr member)]
    · exact fun sentinel => rep.clear (Finmap.mem_erase.mp sentinel).2
  · have missing : m.slotOf hash k = none := by
      rw [Option.eq_none_iff_forall_ne_some]
      intro j found
      obtain ⟨inside, taken, same⟩ := (rep.sound.slotOf_eq_some_iff proper).mp found
      exact rep.absent member _ ⟨j, inside, taken, rfl⟩ same
    refine ⟨m, by rw [RHBSU64Map.erase, missing, decide_eq_false member], rfl, ?_⟩
    have same : f.erase k = f := by
      apply Finmap.ext_lookup
      intro q
      by_cases here : q = k
      · rw [here, Finmap.lookup_erase, Finmap.lookup_eq_none.mpr member]
      · rw [Finmap.lookup_erase_ne here]
    rwa [same]

/-- **One call.** It returns, and unless it fails it does what it does to the map. -/
theorem Represents.call (rep : Represents hash m f) {c : Call V} (proper : c.key ≠ emptyKey) :
    ∃ a t, m.call hash c = some (a, t) ∧ t.bits = m.bits ∧
      (a = .failed ∨ a = (f.call c).1 ∧ Represents hash t (f.call c).2) := by
  cases c with
  | insert k v =>
    have proper : k ≠ emptyKey := proper
    obtain ⟨out, t, done, bits, after⟩ := rep.insert proper v
    refine ⟨out.answer, t, by rw [RHBSU64Map.call, done]; rfl, bits, ?_⟩
    rcases after with rfl | after
    · exact Or.inl rfl
    · exact Or.inr after
  | find k =>
    exact ⟨_, m, rfl, rfl, Or.inr ⟨congrArg Answer.value (rep.find_eq k), rep⟩⟩
  | erase k =>
    have proper : k ≠ emptyKey := proper
    obtain ⟨t, done, bits, after⟩ := rep.erase proper
    exact ⟨_, t, by rw [RHBSU64Map.call, done]; rfl, bits, Or.inr ⟨rfl, after⟩⟩

/-- **A session.** -/
theorem Represents.run (rep : Represents hash m f) {calls : List (Call V)}
    (proper : ∀ c ∈ calls, c.key ≠ emptyKey) :
    ∃ answers t, m.run hash calls = some (answers, t) ∧
      (.failed ∉ answers → answers = (f.run calls).1 ∧ t.bits = m.bits ∧
        Represents hash t (f.run calls).2) := by
  induction calls generalizing m f with
  | nil => exact ⟨[], m, rfl, fun _ => ⟨rfl, rfl, rep⟩⟩
  | cons c calls ih =>
    obtain ⟨a, u, done, bits, after⟩ := rep.call (proper c List.mem_cons_self)
    rcases after with rfl | ⟨rfl, rep'⟩
    · refine ⟨[.failed], u, by rw [RHBSU64Map.run, done], fun good => ?_⟩
      exact absurd List.mem_cons_self good
    · obtain ⟨answers, t, ran, refines⟩ :=
        ih rep' fun x member => proper x (List.mem_cons_of_mem c member)
      have proceeds : (f.call c).1 ≠ .failed := by
        cases c with
        | insert k v | find k | erase k =>
          intro same
          cases same
      refine ⟨(f.call c).1 :: answers, t, ?_, fun good => ?_⟩
      · rw [RHBSU64Map.run, done]
        cases first : (f.call c).1 with
        | failed => exact absurd first proceeds
        | bool b => simp [ran]
        | value o => simp [ran]
      · obtain ⟨same, bits', rep''⟩ := refines fun member => good (List.mem_cons_of_mem _ member)
        exact ⟨by rw [FiniteMap.run, same], bits'.trans bits, rep''⟩

/-- **The robin-hood map is a finite map.** Every session on a fresh table comes to its end, also
with a full table. If no probe distance overflows, then its answers are those of a finite map,
`size()` is the number of keys, every control byte is one more than the distance of its slot from
the home of its key, and none exceeds the one before it by more than one. -/
theorem session_is_finite_map [Inhabited V] (bits : Nat) (hash : UInt64 → UInt64)
    (calls : List (Call V)) (proper : ∀ c ∈ calls, c.key ≠ emptyKey) :
    (∃ answers t, (new bits).run hash calls = some (answers, t)) ∧
    ∀ answers t, (new bits).run hash calls = some (answers, t) → .failed ∉ answers →
      answers = (FiniteMap.run ∅ calls).1 ∧ t.sz = (FiniteMap.run ∅ calls).2.keys.card ∧
      (∀ k, t.find hash k = (FiniteMap.run ∅ calls).2.lookup k) ∧ t.bits = bits ∧
      (∀ i < t.n, t.ctrl i ≠ 0 →
        t.ctrl i = 1 + Ring.dist t.n (t.home hash (t.entries i).key) i) ∧
      ∀ i < t.n, t.ctrl (t.next i) ≤ t.ctrl i + 1 := by
  obtain ⟨answers, t, ran, refines⟩ := (represents_new hash bits).run proper
  refine ⟨⟨answers, t, ran⟩, ?_⟩
  intro answers' t' ran' good
  cases ran.symm.trans ran'
  obtain ⟨same, capacity, rep⟩ := refines good
  refine ⟨same, rep.size, rep.find_eq, capacity, ?_, ?_⟩
  · intro i inside taken
    exact rep.sound.ctrl_eq rep.based inside taken
  · intro i inside
    rw [next_eq]
    exact rep.sound.gentle i inside

end

/-- Two keys with one home fill a table of two slots, the first one is erased and the second one
moves up. -/
def pairCalls : List (Call Nat) :=
  [.insert 0 10, .insert 2 20, .insert 0 11, .erase 0, .find 2, .find 0]

theorem session_is_finite_map_pair : ∃ t,
    (new 1).run id pairCalls =
      some ([.bool true, .bool true, .bool false, .bool true, .value (some 20), .value none], t) ∧
    t.sz = 1 ∧ t.find id 2 = some 20 ∧ ∀ i < t.n, t.ctrl (t.next i) ≤ t.ctrl i + 1 := by
  obtain ⟨t, ran⟩ : ∃ t, (new 1).run id pairCalls = some ([.bool true, .bool true, .bool false,
      .bool true, .value (some 20), .value none], t) := ⟨_, rfl⟩
  have proper : ∀ c ∈ pairCalls, c.key ≠ emptyKey := by decide
  obtain ⟨-, sz, finds, -, -, gentle⟩ :=
    (session_is_finite_map 1 id pairCalls proper).2 _ t ran (by decide)
  exact ⟨t, ran, sz, finds 2, gentle⟩

end UringDb.RobinHood
