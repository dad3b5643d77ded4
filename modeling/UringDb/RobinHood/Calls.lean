import UringDb.RobinHood.Invariant

/-!
# The calls on a robin-hood table

`find` and `erase` find exactly the stored keys; a key that is stored is updated in place; an
insertion that ends well adds its entry, one that fails leaves out the entry it has in hand; the
backshift takes one entry away, and ends because some slot is empty or at home.
-/
namespace UringDb.RobinHood.RHBSU64Map

variable {V : Type} {hash : UInt64 → UInt64} {m t : RHBSU64Map V} {i j : Nat} {k : UInt64} {v : V}

/-! ### Finding -/

theorem locate_sound {fuel dist : Nat} (inside : i < m.n)
    (found : m.locate k fuel i dist = some j) :
    j < m.n ∧ m.ctrl j ≠ 0 ∧ (m.entries j).key = k := by
  induction fuel generalizing i dist with
  | zero => cases found
  | succ fuel ih =>
    simp only [locate] at found
    split at found
    next => cases found
    next taken =>
      split at found
      next => cases found
      next =>
        split at found
        next same =>
          cases found
          exact ⟨inside, taken, same⟩
        next =>
          split at found
          next => cases found
          next => exact ih (m.next_lt i) found

/-- On its way to a stored key the probe passes every slot. -/
theorem Sound.locate_of_stored (sound : Sound hash m) (inside : j < m.n) (taken : m.ctrl j ≠ 0)
    {d fuel : Nat} (way : d < m.ctrl j) (enough : m.ctrl j ≤ d + fuel) :
    m.locate (m.entries j).key fuel ((m.home hash (m.entries j).key + d) % m.n) (d + 1) =
      some j := by
  induction fuel generalizing d with
  | zero => omega
  | succ fuel ih =>
    have passes := sound.passes inside taken way
    have small := sound.bounded j inside
    rw [locate, if_neg (by omega), if_neg (by omega)]
    split
    next same =>
      rw [sound.unique _ (Nat.mod_lt _ m.n_pos) j inside (by omega) taken same]
    next other =>
      have ahead := sound.ahead inside taken way other
      rw [if_neg (by omega), next_eq, Ring.add_shift]
      exact ih (by omega) (by omega)

/-- **Lookup.** A slot is found for exactly the keys that are stored. -/
theorem Sound.slotOf_eq_some_iff (sound : Sound hash m) (proper : k ≠ emptyKey) :
    m.slotOf hash k = some j ↔ j < m.n ∧ m.ctrl j ≠ 0 ∧ (m.entries j).key = k := by
  rw [slotOf, if_neg proper]
  constructor
  · exact locate_sound (m.home_lt k)
  · rintro ⟨inside, taken, rfl⟩
    have enough : m.ctrl j ≤ 0 + 254 := by
      rw [Nat.zero_add]
      exact sound.bounded j inside
    have found := sound.locate_of_stored inside taken (Nat.pos_of_ne_zero taken) enough
    rwa [Nat.add_zero, Nat.mod_eq_of_lt (m.home_lt _)] at found

theorem Sound.find_eq_some_iff (sound : Sound hash m) (proper : k ≠ emptyKey) :
    m.find hash k = some v ↔ Stored m ⟨k, v⟩ := by
  rw [find, Option.map_eq_some_iff]
  constructor
  · rintro ⟨j, found, rfl⟩
    obtain ⟨inside, taken, rfl⟩ := (sound.slotOf_eq_some_iff proper).mp found
    exact ⟨j, inside, taken, rfl⟩
  · rintro ⟨j, inside, taken, same⟩
    refine ⟨j, (sound.slotOf_eq_some_iff proper).mpr ⟨inside, taken, ?_⟩, ?_⟩
    · rw [same]
    · rw [same]

/-! ### Inserting -/

/-- `insert` at the head of its loop, with an entry whose key is not in the table. -/
structure Carries (hash : UInt64 → UInt64) (m : RHBSU64Map V) (i : Nat) (hand : Hand V) :
    Prop where
  sound : Sound hash m
  reach : (m.home hash hand.entry.key + (hand.dist - 1)) % m.n = i
  pos : 0 < hand.dist
  small : hand.dist ≤ 254
  slope : ∀ p < m.n, (p + 1) % m.n = i → hand.dist ≤ m.ctrl p + 1
  fresh : ∀ x, Stored m x → x.key ≠ hand.entry.key

section

variable {hand : Hand V}

theorem Carries.inside (carries : Carries hash m i hand) : i < m.n := by
  rw [← carries.reach]
  exact Nat.mod_lt _ m.n_pos

theorem carries_start (sound : Sound hash m) (absent : ∀ x, Stored m x → x.key ≠ k) :
    Carries hash m (m.home hash k) ⟨⟨k, v⟩, 1⟩ where
  sound := sound
  reach := Nat.mod_eq_of_lt (m.home_lt k)
  pos := Nat.one_pos
  small := Nat.le_of_ble_eq_true rfl
  slope := fun _ _ _ => Nat.le_add_left 1 _
  fresh := absent

/-- The entry in hand may be put into a slot that is empty or whose entry is closer to its
home. -/
theorem Carries.put_sound (carries : Carries hash m i hand) (closer : m.ctrl i < hand.dist) :
    Sound hash (m.put i hand.entry hand.dist) := by
  have after : m.ctrl (m.next i) ≤ m.ctrl i + 1 := by
    rw [next_eq]
    exact carries.sound.gentle i carries.inside
  refine ⟨carries.sound.put carries.small (fun _ => carries.reach) carries.slope (by omega), ?_⟩
  apply unique_put
  · intro j insideJ l insideL _ _
    exact carries.sound.unique j insideJ l insideL
  · rintro - x ⟨j, insideJ, -, takenJ, same⟩
    exact carries.fresh x ⟨j, insideJ, takenJ, same⟩

theorem Carries.exchange_load (carries : Carries hash m i hand) (taken : m.ctrl i ≠ 0)
    (x : Entry V) :
    (Stored (m.exchange i hand).1 x ∨ x = (m.exchange i hand).2.entry) ↔
      (Stored m x ∨ x = hand.entry) := by
  rcases Nat.lt_or_ge (m.ctrl i) hand.dist with closer | further
  · rw [exchange_of_lt closer, stored_put carries.inside (by omega),
      stored_of_taken carries.inside taken]
    tauto
  · rw [exchange_of_le further]

theorem Carries.exchange_fresh (carries : Carries hash m i hand) (taken : m.ctrl i ≠ 0)
    (x : Entry V) (stored : Stored (m.exchange i hand).1 x) :
    x.key ≠ (m.exchange i hand).2.entry.key := by
  have inside := carries.inside
  rcases Nat.lt_or_ge (m.ctrl i) hand.dist with closer | further
  · rw [exchange_of_lt closer] at stored ⊢
    rcases (stored_put inside (by omega)).mp stored with off | rfl
    · exact carries.sound.key_ne_of_off inside taken off
    · exact (carries.fresh _ ⟨i, inside, taken, rfl⟩).symm
  · rw [exchange_of_le further] at stored ⊢
    exact carries.fresh x stored

/-- One turn of the loop: the entry in hand is at most as far from its home as the one that is in
the slot then. -/
theorem Carries.turn (carries : Carries hash m i hand) (taken : m.ctrl i ≠ 0)
    (near : (m.exchange i hand).2.further.dist ≠ 255) :
    Carries hash (m.exchange i hand).1 ((m.exchange i hand).1.next i)
      (m.exchange i hand).2.further := by
  have inside := carries.inside
  have fresh := carries.exchange_fresh taken
  have small := carries.small
  rcases Nat.lt_or_ge (m.ctrl i) hand.dist with closer | further
  · rw [exchange_of_lt closer] at near fresh ⊢
    refine ⟨carries.put_sound closer, ?_, Nat.succ_pos _, ?_, ?_, fresh⟩
    · have reach := carries.sound.placed i inside taken
      show (m.home hash (m.entries i).key + m.ctrl i) % m.n = m.next i
      rw [next_eq]
      nth_rewrite 3 [← reach]
      rw [Ring.add_shift, Nat.sub_add_cancel (Nat.pos_of_ne_zero taken)]
    · show m.ctrl i + 1 ≤ 254
      omega
    · intro p insideP behind
      rw [put_next, next_eq] at behind
      rw [Ring.succ_inj insideP inside behind, put_ctrl_self]
      exact Nat.succ_le_succ (Nat.le_of_lt closer)
  · rw [exchange_of_le further] at near ⊢
    have near : hand.dist + 1 ≠ 255 := near
    refine ⟨carries.sound, ?_, Nat.succ_pos _, ?_, ?_, carries.fresh⟩
    · show (m.home hash hand.entry.key + hand.dist) % m.n = m.next i
      rw [next_eq, ← carries.reach, Ring.add_shift, Nat.sub_add_cancel carries.pos]
    · show hand.dist + 1 ≤ 254
      omega
    · intro p insideP behind
      rw [next_eq] at behind
      rw [Ring.succ_inj insideP inside behind]
      exact Nat.succ_le_succ further

end

/-- Control bytes and `dist` are below 255, and their sum grows. -/
theorem insertLoop_ends {fuel : Nat} {hand : Hand V} (carries : Carries hash m i hand)
    (enough : 255 * (m.n + 1) ≤ fuel + ((∑ j ∈ Finset.range m.n, m.ctrl j) + hand.dist)) :
    ∃ out t, insertLoop fuel m i hand = some (out, t) := by
  induction fuel generalizing m i hand with
  | zero =>
    have bytes : (∑ j ∈ Finset.range m.n, m.ctrl j) ≤ m.n * 254 := by
      simpa using Finset.sum_le_card_nsmul (Finset.range m.n) m.ctrl 254
        fun j inside => carries.sound.bounded j (Finset.mem_range.mp inside)
    have small := carries.small
    omega
  | succ fuel ih =>
    simp only [insertLoop]
    split
    next => exact ⟨_, _, rfl⟩
    next taken =>
      split
      next => exact ⟨_, _, rfl⟩
      next =>
        split
        next => exact ⟨_, _, rfl⟩
        next near =>
          apply ih (carries.turn taken near)
          rcases Nat.lt_or_ge (m.ctrl i) hand.dist with closer | further
          · rw [exchange_of_lt closer]
            have sum := sum_update (Finset.range m.n) m.ctrl i hand.dist id
              (Finset.mem_range.mpr carries.inside)
            simp only [id] at sum
            show 255 * (m.n + 1) ≤ fuel +
              ((∑ j ∈ Finset.range m.n, Function.update m.ctrl i hand.dist j) + (m.ctrl i + 1))
            omega
          · rw [exchange_of_le further]
            show 255 * (m.n + 1) ≤ fuel + ((∑ j ∈ Finset.range m.n, m.ctrl j) + (hand.dist + 1))
            omega

theorem Sound.insert_ends (sound : Sound hash m) (proper : k ≠ emptyKey)
    (absent : ∀ x, Stored m x → x.key ≠ k) (v : V) :
    ∃ out t, m.insert hash k v = some (out, t) := by
  rw [insert, if_neg proper]
  apply insertLoop_ends (carries_start sound absent)
  rw [insertFuel]
  omega

/-- **Insertion of a new key** adds its entry, or fails and leaves out one of the entries. -/
theorem Sound.insert_new {out : Outcome} (sound : Sound hash m) (proper : k ≠ emptyKey)
    (absent : ∀ x, Stored m x → x.key ≠ k) (done : m.insert hash k v = some (out, t)) :
    Sound hash t ∧ t.bits = m.bits ∧
      (out = .inserted ∧ Based t ∧ t.sz = m.sz + 1 ∧ (∀ x, Stored t x ↔ Stored m x ∨ x = ⟨k, v⟩) ∨
        out = .overflow ∧ t.sz = m.sz ∧ ∃ lost, (∀ x, Stored t x → x.key ≠ lost.key) ∧
          ∀ x, (Stored t x ∨ x = lost) ↔ (Stored m x ∨ x = ⟨k, v⟩)) := by
  rw [insert, if_neg proper] at done
  obtain ⟨m', i, hand, ⟨carries, bits, sz, load⟩, finishes⟩ := insertLoop_last
    (P := fun m' i hand => Carries hash m' i hand ∧ m'.bits = m.bits ∧ m'.sz = m.sz ∧
      ∀ x, (Stored m' x ∨ x = hand.entry) ↔ (Stored m x ∨ x = ⟨k, v⟩))
    (fun m' i hand before taken _ near => by
      obtain ⟨carries, bits, sz, load⟩ := before
      refine ⟨carries.turn taken near, ?_, ?_, fun x => ?_⟩
      · rw [exchange_bits, bits]
      · rw [exchange_sz, sz]
      · exact (carries.exchange_load taken x).trans (load x))
    ⟨carries_start sound absent, rfl, rfl, fun _ => Iff.rfl⟩ done
  cases finishes with
  | inserted free =>
    have closer : m'.ctrl i < hand.dist := by
      rw [free]
      exact carries.pos
    have stored : ∀ x, Stored (m'.put i hand.entry hand.dist) x ↔ Stored m x ∨ x = ⟨k, v⟩ := by
      intro x
      rw [stored_put carries.inside (Nat.ne_of_gt carries.pos), ← load, stored_of_free free]
    -- the slot behind the empty one was empty or at home, and it still is
    have based : Based (m'.put i hand.entry hand.dist) := by
      have low := carries.sound.gentle i carries.inside
      rw [free] at low
      refine ⟨m'.next i, m'.next_lt i, ?_⟩
      by_cases around : m'.next i = i
      · have steep := carries.slope i carries.inside (by rw [← next_eq, around])
        rw [around, put_ctrl_self]
        omega
      · rw [put_ctrl_of_ne _ _ _ _ around, next_eq]
        exact low
    have sound' := carries.put_sound closer
    exact ⟨⟨⟨sound'.placed, sound'.gentle, sound'.bounded⟩, sound'.unique⟩, bits,
      Or.inl ⟨rfl, based, congrArg (· + 1) sz, stored⟩⟩
  | updated taken same =>
    exact absurd same (carries.fresh _ ⟨i, carries.inside, taken, rfl⟩)
  | overflow taken other far =>
    refine ⟨?_, by rw [exchange_bits, bits], Or.inr ⟨rfl, by rw [exchange_sz, sz],
      (m'.exchange i hand).2.entry, ?_, fun x => ?_⟩⟩
    · rcases Nat.lt_or_ge (m'.ctrl i) hand.dist with closer | further
      · rw [exchange_of_lt closer]
        exact carries.put_sound closer
      · rw [exchange_of_le further]
        exact carries.sound
    · exact carries.exchange_fresh taken
    · exact (carries.exchange_load taken x).trans (load x)

/-- A key that is stored is found before any swap. -/
theorem Sound.insertLoop_of_stored (sound : Sound hash m) (inside : j < m.n)
    (taken : m.ctrl j ≠ 0) {d fuel : Nat} (way : d < m.ctrl j) (enough : m.ctrl j ≤ d + fuel) :
    insertLoop fuel m ((m.home hash (m.entries j).key + d) % m.n) ⟨⟨(m.entries j).key, v⟩, d + 1⟩ =
      some (.updated, m.put j ⟨(m.entries j).key, v⟩ (m.ctrl j)) := by
  induction fuel generalizing d with
  | zero => omega
  | succ fuel ih =>
    have passes := sound.passes inside taken way
    have small := sound.bounded j inside
    simp only [insertLoop]
    rw [if_neg (by omega)]
    split
    next same =>
      rw [sound.unique _ (Nat.mod_lt _ m.n_pos) j inside (by omega) taken same, put,
        Function.update_eq_self]
    next other =>
      have ahead := sound.ahead inside taken way other
      rw [@exchange_of_le V m _ ⟨⟨(m.entries j).key, v⟩, d + 1⟩ passes]
      have near : (Hand.further ⟨⟨(m.entries j).key, v⟩, d + 1⟩).dist ≠ 255 := by
        show d + 1 + 1 ≠ 255
        omega
      rw [if_neg near, next_eq, Ring.add_shift]
      exact ih (by omega) (by omega)

/-- **Insertion of a stored key** replaces its value. -/
theorem Sound.insert_stored (sound : Sound hash m) (proper : k ≠ emptyKey) (inside : j < m.n)
    (taken : m.ctrl j ≠ 0) (same : (m.entries j).key = k) :
    ∃ t, m.insert hash k v = some (.updated, t) ∧ Sound hash t ∧ t.ctrl = m.ctrl ∧
      t.bits = m.bits ∧ t.sz = m.sz ∧
      ∀ x, Stored t x ↔ (Stored m x ∧ x.key ≠ k) ∨ x = ⟨k, v⟩ := by
  subst same
  refine ⟨m.put j ⟨(m.entries j).key, v⟩ (m.ctrl j), ?_, ⟨?_, ?_⟩, ?_, rfl, rfl, ?_⟩
  · have small := sound.bounded j inside
    have fuel : 255 ≤ m.insertFuel := Nat.le_mul_of_pos_right 255 (Nat.succ_pos m.n)
    have enough : m.ctrl j ≤ 0 + m.insertFuel := by omega
    have updated := sound.insertLoop_of_stored (v := v) inside taken
      (Nat.pos_of_ne_zero taken) enough
    rw [Nat.add_zero, Nat.mod_eq_of_lt (m.home_lt _)] at updated
    rw [insert, if_neg proper]
    exact updated
  · refine sound.put (sound.bounded j inside) (sound.placed j inside) ?_ ?_
    · rintro p insideP rfl
      exact sound.gentle p insideP
    · rw [next_eq]
      exact sound.gentle j inside
  · apply unique_put
    · intro i insideI l insideL _ _
      exact sound.unique i insideI l insideL
    · intro _ x off
      exact sound.key_ne_of_off inside taken off
  · exact Function.update_eq_self j m.ctrl
  · intro x
    rw [stored_put inside taken, stored_of_taken inside taken]
    constructor
    · rintro (off | rfl)
      · exact Or.inl ⟨Or.inl off, sound.key_ne_of_off inside taken off⟩
      · exact Or.inr rfl
    · rintro (⟨off | rfl, other⟩ | rfl)
      · exact Or.inl off
      · exact absurd rfl other
      · exact Or.inr rfl

/-! ### Erasing -/

/-- The backshift at the head of its loop: slot `j` is the hole, and still shows an entry. -/
structure Shifts (hash : UInt64 → UInt64) (m : RHBSU64Map V) (j : Nat) : Prop where
  shape : Shape hash m
  inside : j < m.n
  taken : m.ctrl j ≠ 0
  unique : ∀ i < m.n, ∀ l < m.n, i ≠ j → l ≠ j → m.ctrl i ≠ 0 → m.ctrl l ≠ 0 →
    (m.entries i).key = (m.entries l).key → i = l

theorem Shifts.close (shifts : Shifts hash m j) (e : Entry V) (low : m.ctrl (m.next j) ≤ 1) :
    Sound hash (m.put j e 0) := by
  refine ⟨shifts.shape.put (Nat.zero_le _) (fun taken => absurd rfl taken)
    (fun _ _ _ => Nat.zero_le _) low, ?_⟩
  apply unique_put
  · exact shifts.unique
  · exact fun taken => absurd rfl taken

theorem Shifts.move (shifts : Shifts hash m j) (apart : m.next j ≠ j)
    (high : 1 < m.ctrl (m.next j)) :
    Shifts hash (m.put j (m.entries (m.next j)) (m.ctrl (m.next j) - 1)) (m.next j) where
  shape := by
    have insideK := m.next_lt j
    have steep : m.ctrl (m.next j) ≤ m.ctrl j + 1 := by
      rw [next_eq]
      exact shifts.shape.gentle j shifts.inside
    have small := shifts.shape.bounded _ insideK
    refine shifts.shape.put (by omega) (fun _ => ?_) ?_ (by omega)
    · have placed := shifts.shape.placed _ insideK (by omega)
      apply Ring.succ_inj (Nat.mod_lt _ m.n_pos) shifts.inside
      rw [Nat.mod_add_mod, ← next_eq m j]
      nth_rewrite 3 [← placed]
      congr 1
      omega
    · rintro p insideP rfl
      have before := shifts.shape.gentle p insideP
      omega
  inside := m.next_lt j
  taken := by
    rw [put_ctrl_of_ne _ _ _ _ apart]
    omega
  unique := by
    -- the entry that is moved is the only other one with its key
    have alone : ∀ l < m.n, l ≠ m.next j → l ≠ j → m.ctrl l ≠ 0 →
        (m.entries l).key ≠ (m.entries (m.next j)).key := by
      intro l insideL apartL off taken same
      exact apartL (shifts.unique l insideL _ (m.next_lt j) off apart taken (by omega) same)
    intro i insideI l insideL apartI apartL takenI takenL same
    by_cases hereI : i = j <;> by_cases hereL : l = j
    · rw [hereI, hereL]
    · subst hereI
      rw [put_ctrl_of_ne _ _ _ _ hereL] at takenL
      rw [put_entries_self, put_entries_of_ne _ _ _ _ hereL] at same
      exact absurd same.symm (alone l insideL apartL hereL takenL)
    · subst hereL
      rw [put_ctrl_of_ne _ _ _ _ hereI] at takenI
      rw [put_entries_self, put_entries_of_ne _ _ _ _ hereI] at same
      exact absurd same (alone i insideI apartI hereI takenI)
    · rw [put_ctrl_of_ne _ _ _ _ hereI] at takenI
      rw [put_ctrl_of_ne _ _ _ _ hereL] at takenL
      rw [put_entries_of_ne _ _ _ _ hereI, put_entries_of_ne _ _ _ _ hereL] at same
      exact shifts.unique i insideI l insideL hereI hereL takenI takenL same

theorem Shifts.move_stored (apart : m.next j ≠ j) (inside : j < m.n)
    (high : 1 < m.ctrl (m.next j)) (x : Entry V) :
    StoredOff (m.put j (m.entries (m.next j)) (m.ctrl (m.next j) - 1)) (m.next j) x ↔
      StoredOff m j x := by
  constructor
  · rintro ⟨i, insideI, apartI, takenI, rfl⟩
    by_cases here : i = j
    · subst here
      exact ⟨m.next i, m.next_lt i, apart, by omega, by rw [put_entries_self]⟩
    · rw [put_ctrl_of_ne _ _ _ _ here] at takenI
      exact ⟨i, insideI, here, takenI, by rw [put_entries_of_ne _ _ _ _ here]⟩
  · rintro ⟨i, insideI, here, takenI, rfl⟩
    by_cases moved : i = m.next j
    · refine ⟨j, inside, apart.symm, ?_, ?_⟩
      · rw [put_ctrl_self]
        omega
      · rw [put_entries_self, moved]
    · refine ⟨i, insideI, moved, ?_, ?_⟩
      · rwa [put_ctrl_of_ne _ _ _ _ here]
      · rw [put_entries_of_ne _ _ _ _ here]

/-- The backshift comes to the next slot that is empty or at home. If that is the slot it began
at, it finds the entry that it moved there itself: that one is at its home now. -/
theorem backshiftDelete_ends {fuel : Nat} (shifts : Shifts hash m j)
    (low : ∃ d, 0 < d ∧ d ≤ fuel ∧ d ≤ m.n ∧ m.ctrl ((j + d) % m.n) ≤ 1) :
    ∃ t, backshiftDelete fuel m j (m.next j) = some t ∧ Sound hash t ∧ Based t ∧
      t.bits = m.bits ∧ t.sz = m.sz ∧ ∀ x, Stored t x ↔ StoredOff m j x := by
  induction fuel generalizing m j with
  | zero =>
    obtain ⟨d, pos, enough, -⟩ := low
    omega
  | succ fuel ih =>
    rw [backshiftDelete]
    split
    next home =>
      refine ⟨_, rfl, shifts.close _ home, ⟨j, shifts.inside, ?_⟩, rfl, rfl, fun x => ?_⟩
      · rw [put_ctrl_self]
        exact Nat.zero_le 1
      · rw [stored_of_free (put_ctrl_self ..), storedOff_put]
    next high =>
      obtain ⟨d, pos, enough, around, low⟩ := low
      rw [Nat.not_le] at high
      have further : d ≠ 1 := by
        rintro rfl
        rw [next_eq] at high
        omega
      have apart : m.next j ≠ j := by
        intro same
        rw [next_eq] at same
        have back : (j + 1) % m.n = (j + 0) % m.n := by
          rw [same, Nat.add_zero, Nat.mod_eq_of_lt shifts.inside]
        cases Ring.add_inj (by omega : 1 < m.n) m.n_pos back
      obtain ⟨t, ends, sound, based, bits, sz, stored⟩ := ih (shifts.move apart high)
        ⟨d - 1, by omega, by omega, by rw [put_n]; omega, by
          have there : (m.next j + (d - 1)) % m.n = (j + d) % m.n := by
            rw [next_eq, Ring.add_shift]
            congr 2
            omega
          rw [put_n, there]
          by_cases whole : (j + d) % m.n = j
          · have steep := shifts.shape.gentle j shifts.inside
            rw [← next_eq] at steep
            rw [whole] at low ⊢
            rw [put_ctrl_self]
            omega
          · rw [put_ctrl_of_ne _ _ _ _ whole]
            exact low⟩
      exact ⟨t, ends, sound, based, bits, sz, fun x =>
        (stored x).trans (Shifts.move_stored apart shifts.inside high x)⟩

/-- From any slot on, a slot that is empty or at home comes within a round; it may be the slot
itself after a whole round. -/
theorem Based.ahead (based : Based m) (inside : j < m.n) :
    ∃ d, 0 < d ∧ d ≤ m.n ∧ d ≤ m.n ∧ m.ctrl ((j + d) % m.n) ≤ 1 := by
  obtain ⟨b, insideB, low⟩ := based
  rcases Nat.eq_zero_or_pos (Ring.dist m.n j b) with zero | pos
  · have here := Ring.add_dist j b insideB
    rw [zero, Nat.add_zero, Nat.mod_eq_of_lt inside] at here
    subst here
    refine ⟨m.n, m.n_pos, le_rfl, le_rfl, ?_⟩
    rwa [Nat.add_mod_right, Nat.mod_eq_of_lt inside]
  · have short := Ring.dist_lt m.n_pos j b
    refine ⟨Ring.dist m.n j b, pos, short.le, short.le, ?_⟩
    rwa [Ring.add_dist j b insideB]

/-- **Deletion** of a stored key ends, also in a full table, and takes its entry away. -/
theorem Sound.erase_stored (sound : Sound hash m) (based : Based m) (proper : k ≠ emptyKey)
    (inside : j < m.n) (taken : m.ctrl j ≠ 0) (same : (m.entries j).key = k) :
    ∃ t, m.erase hash k = some (true, t) ∧ Sound hash t ∧ Based t ∧ t.bits = m.bits ∧
      t.sz = m.sz - 1 ∧ ∀ x, Stored t x ↔ Stored m x ∧ x.key ≠ k := by
  have found := (sound.slotOf_eq_some_iff proper).mpr ⟨inside, taken, same⟩
  have shifts : Shifts hash m j :=
    ⟨sound.toShape, inside, taken, fun i insideI l insideL _ _ => sound.unique i insideI l insideL⟩
  obtain ⟨t, ends, sound', based', bits, sz, stored⟩ :=
    backshiftDelete_ends shifts (based.ahead inside)
  refine ⟨{ t with sz := t.sz - 1 }, ?_, ⟨⟨sound'.placed, sound'.gentle, sound'.bounded⟩,
    sound'.unique⟩, based', bits, ?_, fun x => (stored x).trans ?_⟩
  · rw [erase, found]
    simp only [ends, Option.map_some]
  · show t.sz - 1 = _
    rw [sz]
  · rw [stored_of_taken inside taken]
    subst same
    constructor
    · intro off
      exact ⟨Or.inl off, sound.key_ne_of_off inside taken off⟩
    · rintro ⟨off | rfl, other⟩
      · exact off
      · exact absurd rfl other

end UringDb.RobinHood.RHBSU64Map
