import UringDb.RobinHood.Session

/-!
# Insertions that fail

`insert` gives up when the entry in hand would come to distance 255. What it has exchanged until
then stays exchanged: the entry in hand is in the table no more. If the probe meets no entry that
is closer to its home, then nothing has been exchanged.
-/
namespace UringDb.RobinHood

open RHBSU64Map

variable {V : Type} {hash : UInt64 → UInt64} {m t : RHBSU64Map V} {k : UInt64} {v : V}

/-- Every stored key is still found with its value, the new one is not, and the size is the
same. -/
structure Harmless (hash : UInt64 → UInt64) (m t : RHBSU64Map V) (k : UInt64) : Prop where
  kept : ∀ q v, m.find hash q = some v → t.find hash q = some v
  absent : t.find hash k = none
  size : t.sz = m.sz

/-- The probe for `k` meets no entry that is closer to its home. -/
def Undisturbed (hash : UInt64 → UInt64) (m : RHBSU64Map V) (k : UInt64) : Prop :=
  ∀ d < 254, d + 1 ≤ m.ctrl ((m.home hash k + d) % m.n)

theorem Undisturbed.unchanged (undisturbed : Undisturbed hash m k) (proper : k ≠ emptyKey)
    (fails : m.insert hash k v = some (.overflow, t)) : t = m := by
  rw [RHBSU64Map.insert, if_neg proper] at fails
  obtain ⟨m', i, hand, ⟨d, way, rfl, rfl, rfl⟩, finishes⟩ := insertLoop_last
    (P := fun m' i hand => ∃ d < 254, m' = m ∧ i = (m.home hash k + d) % m.n ∧
      hand = ⟨⟨k, v⟩, d + 1⟩)
    (fun m' i hand before _ _ near => by
      obtain ⟨d, way, rfl, rfl, rfl⟩ := before
      rw [@exchange_of_le V m' _ ⟨⟨k, v⟩, d + 1⟩ (undisturbed d way)] at near ⊢
      have near : d + 1 + 1 ≠ 255 := near
      exact ⟨d + 1, by omega, rfl, by rw [next_eq, Ring.add_shift], rfl⟩)
    ⟨0, by decide, rfl, (Nat.mod_eq_of_lt (m.home_lt k)).symm, rfl⟩ fails
  cases finishes with
  | overflow taken other far =>
    rw [@exchange_of_le V m' _ ⟨⟨k, v⟩, d + 1⟩ (undisturbed d way)]

/-- Where `insert` is before it has come to an empty slot: what is ahead is as it was, and the
entry in hand is the new one, which has met no entry closer to its home yet, or was stored. -/
structure Underway (hash : UInt64 → UInt64) (m : RHBSU64Map V) (e : Entry V) (s : Nat)
    (m' : RHBSU64Map V) (i : Nat) (hand : Hand V) : Prop where
  carries : Carries hash m' i hand
  bits : m'.bits = m.bits
  place : i = (m.home hash e.key + s) % m.n
  ahead : ∀ r, s ≤ r → r < m.n →
    m'.ctrl ((m.home hash e.key + r) % m.n) = m.ctrl ((m.home hash e.key + r) % m.n) ∧
    m'.entries ((m.home hash e.key + r) % m.n) = m.entries ((m.home hash e.key + r) % m.n)
  hand : (hand = ⟨e, s + 1⟩ ∧ ∀ d < s, d + 1 ≤ m.ctrl ((m.home hash e.key + d) % m.n)) ∨
    Stored m hand.entry

section

variable {e : Entry V} {s i : Nat} {m' : RHBSU64Map V} {hand : Hand V}

/-- After the exchange: the new entry is in hand and has met none closer to its home, or a stored
one is. -/
theorem Underway.exchanged (under : Underway hash m e s m' i hand) (inside : s < m.n)
    (taken : m'.ctrl i ≠ 0) :
    ((m'.exchange i hand).2 = ⟨e, s + 1⟩ ∧
      ∀ d < s + 1, d + 1 ≤ m.ctrl ((m.home hash e.key + d) % m.n)) ∨
    Stored m (m'.exchange i hand).2.entry := by
  obtain ⟨ctrl, entries⟩ := under.ahead s le_rfl inside
  rw [← under.place] at ctrl entries
  rcases Nat.lt_or_ge (m'.ctrl i) hand.dist with closer | further
  · rw [exchange_of_lt closer, entries]
    refine Or.inr ⟨i, ?_, ?_, rfl⟩
    · rw [under.place]
      exact Nat.mod_lt _ m.n_pos
    · rwa [← ctrl]
  · rw [exchange_of_le further]
    rcases under.hand with ⟨rfl, passed⟩ | stored
    · refine Or.inl ⟨rfl, fun d way => ?_⟩
      rcases Nat.lt_succ_iff_lt_or_eq.mp way with before | rfl
      · exact passed d before
      · rw [← under.place, ← ctrl]
        exact further
    · exact Or.inr stored

theorem Underway.turn (under : Underway hash m e s m' i hand) (inside : s < m.n)
    (taken : m'.ctrl i ≠ 0) (near : (m'.exchange i hand).2.further.dist ≠ 255) :
    Underway hash m e (s + 1) (m'.exchange i hand).1 ((m'.exchange i hand).1.next i)
      (m'.exchange i hand).2.further where
  carries := under.carries.turn taken near
  bits := by rw [exchange_bits, under.bits]
  place := by
    rw [next_eq, n, exchange_bits, under.bits, ← n, under.place, Ring.add_shift]
  ahead := by
    intro r later below
    have before := under.ahead r (by omega) below
    have apart : (m.home hash e.key + r) % m.n ≠ i := by
      intro same
      rw [under.place] at same
      have equal := Ring.add_inj below inside same
      omega
    rcases Nat.lt_or_ge (m'.ctrl i) hand.dist with closer | further
    · rw [exchange_of_lt closer, put_ctrl_of_ne _ _ _ _ apart, put_entries_of_ne _ _ _ _ apart]
      exact before
    · rw [exchange_of_le further]
      exact before
  hand := by
    rcases under.exchanged inside taken with ⟨same, passed⟩ | stored
    · exact Or.inl ⟨by rw [same]; rfl, passed⟩
    · exact Or.inr stored

end

/-- With an empty slot in the table, an insertion that fails was undisturbed or has lost an entry
that was stored. -/
theorem overflow_loses (sound : Sound hash m) (proper : k ≠ emptyKey)
    (absent : ∀ x, Stored m x → x.key ≠ k) (room : ∃ i < m.n, m.ctrl i = 0)
    (fails : m.insert hash k v = some (.overflow, t)) :
    Undisturbed hash m k ∨
      ∃ lost, Stored m lost ∧ ∀ x, Stored t x → x.key ≠ lost.key := by
  obtain ⟨b, insideB, free⟩ := room
  have way := Ring.add_dist (m.home hash k) b insideB
  have short := Ring.dist_lt m.n_pos (m.home hash k) b
  rw [RHBSU64Map.insert, if_neg proper] at fails
  -- the empty slot is ahead until the insertion comes to it, and there it ends well
  obtain ⟨m', i, hand, ⟨s, before, under⟩, finishes⟩ := insertLoop_last
    (P := fun m' i hand => ∃ s ≤ Ring.dist m.n (m.home hash k) b,
      Underway hash m ⟨k, v⟩ s m' i hand)
    (fun m' i hand before taken _ near => by
      obtain ⟨s, before, under⟩ := before
      have apart : s ≠ Ring.dist m.n (m.home hash k) b := by
        rintro rfl
        have here := (under.ahead _ le_rfl short).1
        have place := under.place
        simp only [way] at here place
        rw [place, here] at taken
        exact taken free
      exact ⟨s + 1, by omega, under.turn (by omega) taken near⟩)
    ⟨0, Nat.zero_le _, carries_start sound absent, rfl,
      (Nat.mod_eq_of_lt (m.home_lt k)).symm, fun _ _ _ => ⟨rfl, rfl⟩,
      Or.inl ⟨rfl, fun d impossible => absurd impossible (Nat.not_lt_zero d)⟩⟩ fails
  cases finishes with
  | overflow taken other far =>
    rcases under.exchanged (by omega) taken with ⟨same, passed⟩ | stored
    · rw [same] at far
      have far : s + 1 + 1 = 255 := far
      have last : s + 1 = 254 := by omega
      rw [last] at passed
      exact Or.inl passed
    · exact Or.inr ⟨_, stored, under.carries.exchange_fresh taken⟩

/-- **A failing insertion is harmless** if its probe meets no entry that is closer to its home;
in a table with an empty slot only then. -/
theorem failed_insert_harmless_iff [Inhabited V] {bits : Nat} {hash : UInt64 → UInt64}
    {calls : List (Call V)} {answers : List (Answer V)} {m t : RHBSU64Map V} {k : UInt64} {v : V}
    (proper : ∀ c ∈ calls, c.key ≠ emptyKey) (ran : (new bits).run hash calls = some (answers, m))
    (good : .failed ∉ answers) (properK : k ≠ emptyKey) (new_ : m.find hash k = none)
    (fails : m.insert hash k v = some (.overflow, t)) :
    (Undisturbed hash m k → Harmless hash m t k) ∧
      ((∃ i < m.n, m.ctrl i = 0) → (Harmless hash m t k ↔ Undisturbed hash m k)) := by
  obtain ⟨answers', m', ran', refines⟩ := (represents_new hash bits).run proper
  cases ran'.symm.trans ran
  obtain ⟨-, -, rep⟩ := refines good
  have absent : ∀ x, Stored m x → x.key ≠ k := by
    apply rep.absent
    rw [← Finmap.lookup_eq_none, ← rep.find_eq]
    exact new_
  have enough : Undisturbed hash m k → Harmless hash m t k := by
    intro undisturbed
    obtain rfl := undisturbed.unchanged properK fails
    exact ⟨fun _ _ found => found, new_, rfl⟩
  refine ⟨enough, fun room => ⟨fun harmless => ?_, enough⟩⟩
  obtain ⟨sound, -, -⟩ := rep.sound.insert_new properK absent fails
  rcases overflow_loses rep.sound properK absent room fails with undisturbed | ⟨lost, stored, gone⟩
  · exact undisturbed
  · -- the entry that is lost was found before
    exfalso
    have properL : lost.key ≠ emptyKey := rep.proper stored
    have found := harmless.kept _ _ ((rep.sound.find_eq_some_iff properL).mpr stored)
    exact gone _ ((sound.find_eq_some_iff properL).mp found) rfl

/-! ### Keys that all have one home -/

/-- The keys `0, 1, …` stand behind each other in a table of 256 slots. -/
def ladder (j : Nat) : RHBSU64Map Nat where
  bits := 8
  entries i := if i < j then ⟨UInt64.ofNat i, i⟩ else ⟨emptyKey, 0⟩
  ctrl i := if i < j then i + 1 else 0
  sz := j

def oneHome : UInt64 → UInt64 := fun _ => 0

theorem ofNat_ne {i j : Nat} (below : i < j) (small : j < 256) :
    UInt64.ofNat i ≠ UInt64.ofNat j := by
  intro same
  have equal := congrArg UInt64.toNat same
  rw [UInt64.toNat_ofNat', UInt64.toNat_ofNat', Nat.mod_eq_of_lt, Nat.mod_eq_of_lt] at equal
  all_goals omega

theorem ofNat_proper {j : Nat} (small : j < 256) : UInt64.ofNat j ≠ emptyKey := by
  intro same
  have equal := congrArg UInt64.toNat same
  rw [UInt64.toNat_ofNat', Nat.mod_eq_of_lt (by omega)] at equal
  have far : emptyKey.toNat = 18446744073709551615 := rfl
  omega

theorem ladder_climb {j d fuel : Nat} (below : d ≤ j) (near : d < 254) (inside : j < 256) :
    insertLoop (fuel + d) (ladder j) 0 ⟨⟨UInt64.ofNat j, j⟩, 1⟩ =
      insertLoop fuel (ladder j) d ⟨⟨UInt64.ofNat j, j⟩, d + 1⟩ := by
  induction d generalizing fuel with
  | zero => rfl
  | succ d ih =>
    have ctrl : (ladder j).ctrl d = d + 1 := if_pos below
    have entry : (ladder j).entries d = ⟨UInt64.ofNat d, d⟩ := if_pos below
    have next : (ladder j).next d = d + 1 := by
      rw [next_eq]
      exact Nat.mod_eq_of_lt (by show d + 1 < 256; omega)
    have other := ofNat_ne below inside
    have short : d + 1 + 1 ≠ 255 := by omega
    rw [← Nat.add_assoc, Nat.add_right_comm, ih (by omega) (by omega)]
    simp [insertLoop, exchange, Hand.further, ctrl, entry, next, other, short]

theorem ladder_insert_eq {j d : Nat} (below : d ≤ j) (near : d < 254) (inside : j < 256) :
    ∃ fuel, (ladder j).insert oneHome (UInt64.ofNat j) j =
      insertLoop (fuel + 1) (ladder j) d ⟨⟨UInt64.ofNat j, j⟩, d + 1⟩ := by
  have proper := ofNat_proper inside
  have total : (ladder j).insertFuel = (65534 - d) + 1 + d := by
    show 65535 = _
    omega
  have home : (ladder j).home oneHome (UInt64.ofNat j) = 0 := by
    simp [RHBSU64Map.home, index, oneHome]
  refine ⟨65534 - d, ?_⟩
  rw [RHBSU64Map.insert, if_neg proper, total, home]
  exact ladder_climb below near inside

theorem ladder_insert {j : Nat} (inside : j < 254) :
    (ladder j).insert oneHome (UInt64.ofNat j) j = some (.inserted, ladder (j + 1)) := by
  obtain ⟨fuel, reaches⟩ := ladder_insert_eq (le_refl j) inside (by omega)
  have free : (ladder j).ctrl j = 0 := if_neg (Nat.lt_irrefl j)
  rw [reaches, insertLoop, if_pos free]
  congr 2
  have entries : Function.update (ladder j).entries j ⟨UInt64.ofNat j, j⟩ =
      (ladder (j + 1)).entries := by
    funext i
    rcases Nat.lt_trichotomy i j with before | rfl | after
    · rw [Function.update_of_ne (by omega)]
      exact (if_pos before).trans (if_pos (by omega)).symm
    · rw [Function.update_self]
      exact (if_pos (Nat.lt_succ_self i)).symm
    · rw [Function.update_of_ne (by omega)]
      exact (if_neg (by omega)).trans (if_neg (by omega)).symm
  have ctrl : Function.update (ladder j).ctrl j (j + 1) = (ladder (j + 1)).ctrl := by
    funext i
    rcases Nat.lt_trichotomy i j with before | rfl | after
    · rw [Function.update_of_ne (by omega)]
      exact (if_pos before).trans (if_pos (by omega)).symm
    · rw [Function.update_self]
      exact (if_pos (Nat.lt_succ_self i)).symm
    · rw [Function.update_of_ne (by omega)]
      exact (if_neg (by omega)).trans (if_neg (by omega)).symm
  rw [put, entries, ctrl]
  rfl

/-- The insertions that build the ladder. -/
def rungs (a b : Nat) : List (Call Nat) :=
  (List.range' a b).map fun i => .insert (UInt64.ofNat i) i

theorem ladder_run {a b : Nat} (inside : a + b ≤ 254) :
    (ladder a).run oneHome (rungs a b) =
      some (List.replicate b (.bool true), ladder (a + b)) := by
  induction b generalizing a with
  | zero => rfl
  | succ b ih =>
    have rest := ih (by omega : a + 1 + b ≤ 254)
    have first := ladder_insert (by omega : a < 254)
    rw [Nat.add_right_comm, Nat.add_assoc] at rest
    simp only [rungs, List.range'_succ, List.map_cons, run, call, first, Option.map_some,
      Outcome.answer]
    rw [← rungs, rest]
    rfl

theorem ladder_overflow :
    (ladder 254).insert oneHome (UInt64.ofNat 254) 254 = some (.overflow, ladder 254) := by
  obtain ⟨fuel, reaches⟩ :=
    ladder_insert_eq (by decide : 253 ≤ 254) (by decide) (by decide)
  rw [reaches]
  rfl

/-- With 254 keys of one home in a table of 256 slots, the next one with that home is refused and
nothing has changed. -/
theorem failed_insert_harmless_ladder : ∃ m t : RHBSU64Map Nat,
    (new 8).run oneHome (rungs 0 254) = some (List.replicate 254 (.bool true), m) ∧
    m.insert oneHome (UInt64.ofNat 254) 254 = some (.overflow, t) ∧
    (∃ i < m.n, m.ctrl i = 0) ∧ Harmless oneHome m t (UInt64.ofNat 254) := by
  have empty : (new 8 : RHBSU64Map Nat) = ladder 0 := by simp [new, ladder]
  have ran : (new 8).run oneHome (rungs 0 254) =
      some (List.replicate 254 (.bool true), ladder 254) := by
    rw [empty, ladder_run (Nat.le_refl _)]
  have proper : ∀ c ∈ rungs 0 254, c.key ≠ emptyKey := by
    intro c member
    obtain ⟨j, within, rfl⟩ := List.mem_map.mp member
    rw [List.mem_range'_1] at within
    exact ofNat_proper (by omega)
  have room : ∃ i < (ladder 254).n, (ladder 254).ctrl i = 0 := ⟨255, by decide, rfl⟩
  have undisturbed : Undisturbed oneHome (ladder 254) (UInt64.ofNat 254) := by
    intro d way
    have place : ((ladder 254).home oneHome (UInt64.ofNat 254) + d) % (ladder 254).n = d := by
      show (0 + d) % 256 = d
      omega
    rw [place]
    exact (if_pos way).ge
  have good : Answer.failed ∉ List.replicate 254 (Answer.bool (V := Nat) true) := by
    intro member
    cases List.eq_of_mem_replicate member
  have absent : (ladder 254).find oneHome (UInt64.ofNat 254) = none := by
    obtain ⟨_, _, ran', refines⟩ := (represents_new oneHome 8).run proper
    cases ran'.symm.trans ran
    rw [Option.eq_none_iff_forall_ne_some]
    intro v found
    obtain ⟨j, -, taken, same⟩ :=
      ((refines good).2.2.sound.find_eq_some_iff (ofNat_proper (by decide))).mp found
    have below : j < 254 := by
      by_contra above
      exact taken (if_neg above)
    have entry : (ladder 254).entries j = ⟨UInt64.ofNat j, j⟩ := if_pos below
    rw [entry] at same
    exact ofNat_ne below (by decide) (congrArg Entry.key same)
  have harmless := (failed_insert_harmless_iff proper ran good (ofNat_proper (by decide)) absent
    ladder_overflow).2 room
  exact ⟨_, _, ran, ladder_overflow, room, harmless.mpr undisturbed⟩

/-! ### A table of one slot -/

section

variable {x y : Entry V} {c fuel : Nat}

theorem oneSlot_turns (one : m.bits = 0) (apart : x.key ≠ y.key) (pos : 0 < c) (near : c < 254) :
    insertLoop (fuel + 2) (m.put 0 x c) 0 ⟨y, c⟩ =
      insertLoop fuel (m.put 0 y (c + 1)) 0 ⟨x, c + 1⟩ := by
  have next : ∀ e d, (m.put 0 e d).next 0 = 0 := by
    intro e d
    rw [next_eq]
    show (0 + 1) % 2 ^ m.bits = 0
    rw [one]
    exact Nat.mod_one 1
  have short : c + 1 ≠ 255 := by omega
  have twice : (m.put 0 x c).put 0 y (c + 1) = m.put 0 y (c + 1) := by
    simp [put, Function.update_idem]
  simp [insertLoop, exchange, Hand.further, next, twice, apart, short, Nat.ne_of_gt pos]

theorem oneSlot_rounds (one : m.bits = 0) (apart : x.key ≠ y.key) (pos : 0 < c) (rounds : Nat)
    (near : c + 2 * rounds < 255) :
    insertLoop (fuel + 4 * rounds) (m.put 0 x c) 0 ⟨y, c⟩ =
      insertLoop fuel (m.put 0 x (c + 2 * rounds)) 0 ⟨y, c + 2 * rounds⟩ := by
  induction rounds generalizing fuel with
  | zero => rfl
  | succ rounds ih =>
    have more : fuel + 4 * (rounds + 1) = fuel + 4 + 4 * rounds := by omega
    rw [more, ih (by omega), oneSlot_turns one apart (by omega) (by omega),
      oneSlot_turns one apart.symm (by omega) (by omega)]
    rfl

/-- The last exchange leaves the new entry in the slot. -/
theorem oneSlot_overflow (one : m.bits = 0) (apart : x.key ≠ y.key) :
    insertLoop 510 (m.put 0 x 1) 0 ⟨y, 1⟩ = some (.overflow, m.put 0 y 254) := by
  have rounds := @oneSlot_rounds V m x y 1 6 one apart Nat.one_pos 126 (by decide)
  have last : (m.put 0 y 254).exchange 0 ⟨x, 254⟩ = (m.put 0 y 254, ⟨x, 254⟩) :=
    exchange_of_le (put_ctrl_self m 0 254 y).ge
  rw [rounds, oneSlot_turns one apart (by decide) (by decide), insertLoop]
  simp [last, Hand.further, apart.symm]

end

/-- In a table of one slot, the insertion of a second key fails and the first one is lost. -/
theorem failed_insert_loses : ∃ m t : RHBSU64Map Nat,
    (new 0).run RHBSU64Map.hash [.insert 1 10] = some ([.bool true], m) ∧
    m.find RHBSU64Map.hash 1 = some 10 ∧ m.find RHBSU64Map.hash 2 = none ∧
    m.insert RHBSU64Map.hash 2 20 = some (.overflow, t) ∧
    t.find RHBSU64Map.hash 1 = none ∧ t.find RHBSU64Map.hash 2 = some 20 := by
  let empty : RHBSU64Map Nat := { new 0 with sz := 1 }
  have home : ∀ k, empty.home RHBSU64Map.hash k = 0 := by
    intro k
    have inside := @home_lt Nat RHBSU64Map.hash empty k
    exact Nat.lt_one_iff.mp inside
  refine ⟨empty.put 0 ⟨1, 10⟩ 1, empty.put 0 ⟨2, 20⟩ 254, rfl, ?_, ?_, ?_, ?_, ?_⟩
  · decide
  · decide
  · rw [RHBSU64Map.insert, if_neg (by decide), put_home, home]
    exact oneSlot_overflow rfl (by decide)
  · decide +kernel
  · decide

end UringDb.RobinHood
