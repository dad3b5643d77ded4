import UringDb.Lib.Rank
import UringDb.BTree.Node

/-!
# Searching a page

What a well-formed page is, and that `lowerBound` and `upperBound` find the rank of a key among
the full keys of the page: the prefix test, the hints and the comparison by heads are only
shortcuts.
-/
namespace UringDb.BTree

/-! ### Heads -/

theorem leading_lt (n : Nat) (key : Key) : leading n key < 256 ^ n := by
  induction n generalizing key with
  | zero => exact Nat.one_pos
  | succ n ih =>
    cases key with
    | nil => exact Nat.pow_pos (by decide)
    | cons b key =>
      have tail := ih key
      have digit : (b.val + 1) * 256 ^ n ≤ 256 * 256 ^ n := Nat.mul_le_mul_right _ b.isLt
      rw [leading, Nat.pow_succ']
      rw [Nat.add_mul, Nat.one_mul] at digit
      omega

theorem leading_mono (n : Nat) {a b : Key} (le : a ≤ b) : leading n a ≤ leading n b := by
  induction n generalizing a b with
  | zero => exact Nat.le_refl 0
  | succ n ih =>
    cases a with
    | nil => exact Nat.zero_le _
    | cons x a =>
      cases b with
      | nil => exact absurd le (not_le.mpr (List.nil_lt_cons x a))
      | cons y b =>
        rw [leading, leading]
        rcases (Lex.cons_le_cons_iff x y a b).mp le with less | ⟨rfl, rest⟩
        · -- a smaller first byte outweighs whatever follows
          have tail := leading_lt n a
          have digit : (x.val + 1) * 256 ^ n ≤ y.val * 256 ^ n := Nat.mul_le_mul_right _ less
          rw [Nat.add_mul, Nat.one_mul] at digit
          omega
        · exact Nat.add_le_add_left (ih rest) _

theorem lt_of_head_lt {a b : Key} (less : head a < head b) : a < b := by
  by_contra more
  exact absurd (leading_mono 4 (not_lt.mp more)) (Nat.not_le.mpr less)

theorem order_spec (s : Slot) (key : Key) (ok : s.head = head s.key) :
    (s.order key (head key) = .lt ∧ key < s.key) ∨ (s.order key (head key) = .gt ∧ s.key < key) ∨
      (s.order key (head key) = .eq ∧ key = s.key) := by
  unfold Slot.order
  rw [ok]
  dsimp only
  split
  next less => exact Or.inl ⟨rfl, lt_of_head_lt less⟩
  split
  next more => exact Or.inr (Or.inl ⟨rfl, lt_of_head_lt more⟩)
  split
  next less => exact Or.inl ⟨rfl, Lex.lt_of_take_lt less⟩
  split
  next more => exact Or.inr (Or.inl ⟨rfl, Lex.lt_of_take_lt more⟩)
  next notLess notMore =>
    -- the words agree as far as the shorter one goes
    have agree := le_antisymm (not_lt.mp notMore) (not_lt.mp notLess)
    split
    next shorter =>
      have leads := Lex.leads_of_take_eq agree (Nat.le_of_lt shorter)
      exact Or.inl ⟨rfl, Lex.lt_of_leads leads shorter⟩
    split
    next longer =>
      rw [Nat.min_comm] at agree
      exact Or.inr (Or.inl ⟨rfl,
        Lex.lt_of_leads (Lex.leads_of_take_eq agree.symm (Nat.le_of_lt longer)) longer⟩)
    next notShorter notLonger =>
      have same : key.length = s.key.length := by omega
      rw [← same, Nat.min_self, List.take_length, same, List.take_length] at agree
      exact Or.inr (Or.inr ⟨rfl, agree⟩)

/-! ### The binary search -/

/-- The key whose rank a search computes: moving right of a match is searching for the next
key. -/
def target (stopAtMatch : Bool) (key : Key) : Key := if stopAtMatch then key else key ++ [0]

theorem le_target (stopAtMatch : Bool) (key : Key) : key ≤ target stopAtMatch key := by
  cases stopAtMatch
  · exact le_of_lt (Lex.lt_snoc key)
  · exact le_refl key

theorem target_le {key k : Key} (stopAtMatch : Bool) (less : key < k) :
    target stopAtMatch key ≤ k := by
  cases stopAtMatch
  · exact (Lex.lt_iff_snoc_bot_le key k).mp less
  · exact le_of_lt less

/-- What is known about a search range: the match, if any, is inside. -/
structure Brackets (suffixes : List Key) (key bound : Key) (lower upper : Nat) : Prop where
  le : lower ≤ upper
  inside : upper ≤ suffixes.length
  below : ∀ i (h : i < suffixes.length), i < lower → suffixes[i] < bound
  above : ∀ i (h : i < suffixes.length), upper ≤ i → key < suffixes[i]

variable {slots : List Slot} {key : Key}

theorem Brackets.all (suffixes : List Key) (key bound : Key) :
    Brackets suffixes key bound 0 suffixes.length :=
  ⟨Nat.zero_le _, Nat.le_refl _, fun _ _ h => absurd h (Nat.not_lt_zero _),
    fun _ h h' => absurd h (Nat.not_lt.mpr h')⟩

theorem Brackets.raise {suffixes : List Key} {bound : Key} {lower upper mid : Nat}
    (b : Brackets suffixes key bound lower upper) (ascending : Ascending suffixes)
    (left : mid < upper) (h : mid < suffixes.length) (less : suffixes[mid] < bound) :
    Brackets suffixes key bound (mid + 1) upper := by
  refine ⟨left, b.inside, fun i hi before => ?_, b.above⟩
  rcases Nat.eq_or_lt_of_le (Nat.le_of_lt_succ before) with rfl | before
  · exact less
  · exact lt_trans (List.pairwise_iff_getElem.mp ascending i mid hi h before) less

theorem Brackets.cap {suffixes : List Key} {bound : Key} {lower upper mid : Nat}
    (b : Brackets suffixes key bound lower upper) (ascending : Ascending suffixes)
    (right : lower ≤ mid) (h : mid < suffixes.length) (more : key < suffixes[mid]) :
    Brackets suffixes key bound lower mid := by
  refine ⟨right, Nat.le_of_lt h, b.below, fun i hi after => ?_⟩
  rcases Nat.eq_or_lt_of_le after with rfl | after
  · exact more
  · exact lt_trans more (List.pairwise_iff_getElem.mp ascending mid i h hi after)

theorem Brackets.empty {suffixes : List Key} {stop : Bool} {i : Nat}
    (ascending : Ascending suffixes) (b : Brackets suffixes key (target stop key) i i) :
    rank suffixes (target stop key) = i ∧ (stop = true → key ∉ suffixes) := by
  have found := ascending.rank_unique b.inside b.below
    fun j h after => target_le stop (b.above j h after)
  refine ⟨found, ?_⟩
  rintro rfl member
  obtain ⟨h, same⟩ := ascending.getElem_rank member
  have more := b.above _ h (Nat.le_of_eq found.symm)
  rw [same] at more
  exact lt_irrefl key more

theorem bisect_spec (ascending : Ascending (slots.map Slot.key))
    (heads : ∀ s ∈ slots, s.head = head s.key) (stop : Bool) {fuel lower upper : Nat}
    (enough : upper - lower ≤ fuel)
    (b : Brackets (slots.map Slot.key) key (target stop key) lower upper) :
    bisect slots key (head key) stop fuel lower upper =
      (rank (slots.map Slot.key) (target stop key), stop && decide (key ∈ slots.map Slot.key)) := by
  induction fuel generalizing lower upper with
  | zero =>
    obtain rfl : lower = upper := Nat.le_antisymm b.le (by omega)
    obtain ⟨found, absent⟩ := b.empty ascending
    rw [bisect, found]
    cases stop
    · rfl
    · rw [decide_eq_false (absent rfl), Bool.and_false]
  | succ fuel ih =>
    rw [bisect]
    split
    next open_ =>
      generalize atMid : (upper - lower) / 2 + lower = mid
      have left : mid < upper := by omega
      have inside : mid < slots.length := by
        have := b.inside
        rw [List.length_map] at this
        omega
      have insideKeys : mid < (slots.map Slot.key).length := by rwa [List.length_map]
      have stored : (slots.map Slot.key)[mid] = (slots.getD mid default).key := by
        rw [List.getElem_map, List.getD_eq_getElem _ _ inside]
      have headOk : (slots.getD mid default).head = head (slots.getD mid default).key := by
        rw [List.getD_eq_getElem _ _ inside]
        exact heads _ (List.getElem_mem inside)
      dsimp only
      rcases order_spec _ key headOk with ⟨order, less⟩ | ⟨order, more⟩ | ⟨order, same⟩
      · rw [order]
        exact ih (by omega) (b.cap ascending (by omega) insideKeys (stored ▸ less))
      · rw [order]
        refine ih (by omega) (b.raise ascending left insideKeys ?_)
        rw [stored]
        exact lt_of_lt_of_le more (le_target stop key)
      · rw [order]
        dsimp only
        cases stop with
        | true =>
          have atRank := ascending.rank_getElem insideKeys
          have member : key ∈ slots.map Slot.key := by
            rw [same, ← stored]
            exact List.getElem_mem insideKeys
          rw [stored, ← same] at atRank
          rw [if_pos rfl, decide_eq_true member, Bool.true_and]
          exact Prod.ext atRank.symm rfl
        | false =>
          refine ih (by omega) (b.raise ascending left insideKeys ?_)
          rw [stored, ← same]
          exact Lex.lt_snoc key
    next closed =>
      obtain rfl : lower = upper := Nat.le_antisymm b.le (by omega)
      obtain ⟨found, absent⟩ := b.empty ascending
      rw [found]
      cases stop
      · rfl
      · rw [decide_eq_false (absent rfl), Bool.and_false]

/-! ### Well-formed pages -/

/-- `k` is not above an inclusive upper fence, where the empty fence is no bound. -/
def UpTo (upper k : Key) : Prop := upper = [] ∨ k ≤ upper

instance (upper k : Key) : Decidable (UpTo upper k) := inferInstanceAs (Decidable (_ ∨ _))

def Payload.isData : Payload → Bool
  | .data _ => true
  | .child _ => false

/-- Entries of a page with given fences: strictly ascending, above the lower fence, not above
the upper one, and no separator repeating it. -/
structure EntriesOk (isLeaf : Bool) (lower upper : Key) (l : List (Key × Payload)) : Prop where
  fences : upper = [] ∨ lower < upper
  ascending : Ascending (l.map Prod.fst)
  above : ∀ e ∈ l, lower < e.1
  upTo : ∀ e ∈ l, UpTo upper e.1
  strict : isLeaf = false → ∀ e ∈ l, e.1 ≠ upper
  kind : ∀ e ∈ l, e.2.isData = isLeaf

namespace Node

def keyOf (n : Node) (s : Slot) : Key := n.getPrefix ++ s.key

def keys (n : Node) : List Key := n.slots.map n.keyOf

def entries (n : Node) : List (Key × Payload) := n.slots.map fun s => (n.keyOf s, s.payload)

def payloadSpace (slots : List Slot) : Nat := (slots.map Slot.size).sum

/-- What every page of a tree keeps: entries in order inside the fences, and prefix, heads,
hints and space accounting right. -/
structure Ok (n : Node) : Prop where
  prefixLen : n.prefixLen = Lex.commonLen n.lowerFence n.upperFence
  heads : ∀ s ∈ n.slots, s.head = head s.key
  content : EntriesOk n.isLeaf n.lowerFence n.upperFence n.entries
  linked : n.isLeaf = false → n.link.isSome
  spaceUsed : n.spaceUsed =
    n.lowerFence.length + n.upperFence.length + payloadSpace n.slots
  heap : n.dataOffset + n.spaceUsed ≤ pageSize
  room : n.slotEnd ≤ n.dataOffset
  hints : n.count > hintCount * 2 → n.hint = (List.range hintCount).map n.hintAt

theorem map_fst_entries (n : Node) : n.entries.map Prod.fst = n.keys := by
  rw [entries, List.map_map]
  rfl

theorem length_entries (n : Node) : n.entries.length = n.count := List.length_map _

variable {n : Node}

theorem length_keys (n : Node) : n.keys.length = n.count := List.length_map _

/-- What a search relies on, whatever the fences and the space accounting of the page say. -/
structure Searchable (n : Node) : Prop where
  prefixLen_le : n.prefixLen ≤ n.lowerFence.length
  ascending : Ascending n.keys
  heads : ∀ s ∈ n.slots, s.head = head s.key
  hints : n.count > hintCount * 2 → n.hint = (List.range hintCount).map n.hintAt

/-- What a page keeps wherever its keys are and however its heap is laid out: prefix, order, heads,
hints and the count of the used space. -/
structure Packed (n : Node) : Prop where
  prefixLen : n.prefixLen = Lex.commonLen n.lowerFence n.upperFence
  ascending : Ascending n.keys
  heads : ∀ s ∈ n.slots, s.head = head s.key
  spaceUsed : n.spaceUsed =
    n.lowerFence.length + n.upperFence.length + payloadSpace n.slots
  hints : n.count > hintCount * 2 → n.hint = (List.range hintCount).map n.hintAt

theorem Packed.searchable (packed : n.Packed) : n.Searchable where
  prefixLen_le := packed.prefixLen ▸ Lex.commonLen_le_left _ _
  ascending := packed.ascending
  heads := packed.heads
  hints := packed.hints

theorem Ok.packed (ok : n.Ok) : n.Packed where
  prefixLen := ok.prefixLen
  ascending := n.map_fst_entries ▸ ok.content.ascending
  heads := ok.heads
  spaceUsed := ok.spaceUsed
  hints := ok.hints

theorem Packed.ok (packed : n.Packed)
    (content : EntriesOk n.isLeaf n.lowerFence n.upperFence n.entries)
    (linked : n.isLeaf = false → n.link.isSome) (heap : n.dataOffset + n.spaceUsed ≤ pageSize)
    (room : n.slotEnd ≤ n.dataOffset) : n.Ok where
  prefixLen := packed.prefixLen
  heads := packed.heads
  content := content
  linked := linked
  spaceUsed := packed.spaceUsed
  heap := heap
  room := room
  hints := packed.hints

theorem Ok.searchable (ok : n.Ok) : n.Searchable := ok.packed.searchable

theorem Searchable.length_getPrefix (ok : n.Searchable) : n.getPrefix.length = n.prefixLen := by
  rw [getPrefix, List.length_take, Nat.min_eq_left ok.prefixLen_le]

theorem Ok.length_getPrefix (ok : n.Ok) : n.getPrefix.length = n.prefixLen :=
  ok.searchable.length_getPrefix

theorem keys_eq (n : Node) : n.keys = (n.slots.map Slot.key).map (n.getPrefix ++ ·) := by
  rw [keys, List.map_map]
  rfl

theorem rank_keys_append (n : Node) (key : Key) :
    rank n.keys (n.getPrefix ++ key) = rank (n.slots.map Slot.key) key := by
  rw [keys_eq, rank, List.countP_map, rank]
  exact List.countP_congr fun k _ => by
    simp only [Function.comp_apply, decide_eq_true_iff, Lex.append_lt_append_iff]

theorem mem_keys_append (n : Node) (key : Key) :
    n.getPrefix ++ key ∈ n.keys ↔ key ∈ n.slots.map Slot.key := by
  rw [keys_eq, List.mem_map]
  simp only [List.append_cancel_left_eq, exists_eq_right]

theorem Searchable.ascending_suffixes (ok : n.Searchable) : Ascending (n.slots.map Slot.key) := by
  have ascending := ok.ascending
  rw [keys_eq, Ascending, List.pairwise_map] at ascending
  exact ascending.imp fun less => (Lex.append_lt_append_iff _ _ _).mp less

/-! ### Hints -/

/-- Heads of every `dist`-th key bound the range of a key: `pos` is the first that is not
smaller than the head of the key, `pos2` the first after it that is larger. -/
theorem brackets_of_heads {suffixes : List Key} (ascending : Ascending suffixes) {key bound : Key}
    (le : key ≤ bound) (hint : List Nat) (dist : Nat)
    (heads : ∀ i (h : i < hint.length), ∃ h' : dist * (i + 1) < suffixes.length,
      hint[i] = head suffixes[dist * (i + 1)])
    (span : dist * hint.length ≤ suffixes.length) {pos pos2 : Nat}
    (first : pos = hint.findIdx (head key ≤ ·))
    (second : pos2 = pos + (hint.drop pos).findIdx (· ≠ head key)) :
    Brackets suffixes key bound (pos * dist)
      (if pos2 < hint.length then (pos2 + 1) * dist else suffixes.length) := by
  have posLe : pos ≤ hint.length := first ▸ List.findIdx_le_length
  have lower : Brackets suffixes key bound (pos * dist) suffixes.length := by
    refine ⟨?_, Nat.le_refl _, fun i h before => ?_, fun i h after => by omega⟩
    · exact le_trans (Nat.mul_comm pos dist ▸ Nat.mul_le_mul_left dist posLe) span
    · cases pos with
      | zero => rw [Nat.zero_mul] at before; exact absurd before (Nat.not_lt_zero i)
      | succ pos =>
        -- the hint before `pos` is smaller, and slot `i` is before that hint's slot
        obtain ⟨h', atHint⟩ := heads pos posLe
        have smaller : hint[pos] < head key := by
          have := List.not_of_lt_findIdx (Nat.lt_of_lt_of_eq (Nat.lt_succ_self pos) first)
          exact Nat.not_le.mp (of_decide_eq_false this)
        rw [atHint] at smaller
        rw [Nat.mul_comm] at before
        calc suffixes[i] < suffixes[dist * (pos + 1)] :=
              List.pairwise_iff_getElem.mp ascending _ _ h h' before
          _ < key := lt_of_head_lt smaller
          _ ≤ bound := le
  split
  next short =>
    have posLt : pos < hint.length := by omega
    obtain ⟨h', atHint⟩ := heads pos2 short
    have larger : head key < hint[pos2] := by
      have atLeast : head key ≤ hint[pos] := by
        have := List.findIdx_getElem (w := first ▸ posLt)
        simpa only [← first, decide_eq_true_eq] using this
      have other : hint[pos2] ≠ head key := by
        have inside : (hint.drop pos).findIdx (· ≠ head key) < (hint.drop pos).length := by
          rw [List.length_drop]
          omega
        have := List.findIdx_getElem (w := inside)
        simp only [List.getElem_drop, decide_eq_true_eq, ← second] at this
        exact this
      obtain ⟨h, atPos⟩ := heads pos posLt
      refine lt_of_le_of_ne (le_trans atLeast ?_) (Ne.symm other)
      rw [atPos, atHint]
      apply leading_mono
      rcases Nat.eq_or_lt_of_le (Nat.mul_le_mul_left dist (show pos + 1 ≤ pos2 + 1 by omega)) with
        same | less
      · simp only [same, le_refl]
      · exact le_of_lt (List.pairwise_iff_getElem.mp ascending _ _ h h' less)
    rw [atHint] at larger
    rw [Nat.mul_comm (pos2 + 1)]
    refine lower.cap ascending ?_ h' (lt_of_head_lt larger)
    rw [Nat.mul_comm]
    exact Nat.mul_le_mul_left dist (by omega)
  next => exact lower

theorem Searchable.searchHint_brackets (ok : n.Searchable) {key bound : Key} (le : key ≤ bound) :
    Brackets (n.slots.map Slot.key) key bound (n.searchHint (head key)).1
      (n.searchHint (head key)).2 := by
  unfold searchHint
  split
  next many =>
    dsimp only
    have hints := ok.hints many
    have length : n.hint.length = hintCount := by rw [hints, List.length_map, List.length_range]
    have span : n.count / (hintCount + 1) * hintCount < n.count := by
      simp only [hintCount] at many ⊢
      omega
    have brackets := brackets_of_heads ok.ascending_suffixes le n.hint
      (n.count / (hintCount + 1)) ?_ ?_ rfl rfl
    · rwa [List.length_map, length] at brackets
    · intro i h
      have inside : n.count / (hintCount + 1) * (i + 1) < n.slots.length := by
        refine lt_of_le_of_lt (Nat.mul_le_mul_left _ ?_) span
        omega
      refine ⟨by rwa [List.length_map], ?_⟩
      simp only [hints, List.getElem_map, List.getElem_range, hintAt, slotAt,
        List.getD_eq_getElem _ _ inside]
      exact ok.heads _ (List.getElem_mem inside)
    · rw [length, List.length_map]
      exact Nat.le_of_lt span
  next few =>
    have all := Brackets.all (n.slots.map Slot.key) key bound
    rwa [List.length_map] at all

/-! ### The search functions -/

/-- A key that differs from the page's prefix is on one side of all keys of the page. -/
theorem Searchable.take_lt_keys (ok : n.Searchable) {k : Key} {m : Nat} (short : m ≤ n.prefixLen)
    (less : k.take m < n.getPrefix.take m) : ∀ k' ∈ n.keys, k < k' := by
  intro k' member
  obtain ⟨s, -, rfl⟩ := List.mem_map.mp member
  apply Lex.lt_of_take_lt (n := m)
  rwa [keyOf, List.take_append_of_le_length (ok.length_getPrefix ▸ short)]

theorem Searchable.keys_lt_take (ok : n.Searchable) {k : Key} {m : Nat} (short : m ≤ n.prefixLen)
    (more : n.getPrefix.take m < k.take m) : ∀ k' ∈ n.keys, k' < k := by
  intro k' member
  obtain ⟨s, -, rfl⟩ := List.mem_map.mp member
  apply Lex.lt_of_take_lt (n := m)
  rwa [keyOf, List.take_append_of_le_length (ok.length_getPrefix ▸ short)]

theorem before_all {k : Key} (stop : Bool) (below : ∀ k' ∈ n.keys, k < k') :
    (0, false) = (rank n.keys (target stop k), stop && decide (k ∈ n.keys)) := by
  rw [rank_of_all_ge fun k' member => target_le stop (below k' member)]
  rw [decide_eq_false fun member => lt_irrefl k (below k member), Bool.and_false]

/-- **The search is the rank.** `lowerBound` finds the rank of the key, `upperBound` that of the
next key. -/
theorem Searchable.bound_spec (ok : n.Searchable) (stop : Bool) (k : Key) :
    n.bound stop k = (rank n.keys (target stop k), stop && decide (k ∈ n.keys)) := by
  unfold bound
  dsimp only
  have short : min k.length n.prefixLen ≤ n.prefixLen := Nat.min_le_right _ _
  split
  next less => exact before_all stop (ok.take_lt_keys short less)
  split
  next more =>
    have above := ok.keys_lt_take short more
    rw [rank_of_all_lt fun k' member => lt_of_lt_of_le (above k' member) (le_target stop k),
      length_keys, decide_eq_false fun member => lt_irrefl k (above k member), Bool.and_false]
  next notLess notMore =>
    have agree := le_antisymm (not_lt.mp notMore) (not_lt.mp notLess)
    split
    next shorter =>
      -- the key is a proper part of the prefix
      apply before_all
      intro k' member
      obtain ⟨s, -, rfl⟩ := List.mem_map.mp member
      rw [← ok.length_getPrefix] at agree shorter
      refine lt_of_lt_of_le ?_ (Lex.le_append n.getPrefix s.key)
      exact Lex.lt_of_leads (Lex.leads_of_take_eq agree (Nat.le_of_lt shorter)) shorter
    next longer =>
      have split : n.getPrefix ++ k.drop n.prefixLen = k := by
        rw [Nat.min_eq_right (Nat.le_of_not_lt longer), ← ok.length_getPrefix,
          List.take_length] at agree
        rw [← agree, ok.length_getPrefix, List.take_append_drop]
      have targetSplit : target stop k = n.getPrefix ++ target stop (k.drop n.prefixLen) := by
        cases stop
        · rw [target, target, if_neg Bool.false_ne_true, if_neg Bool.false_ne_true,
            ← List.append_assoc, split]
        · rw [target, target, if_pos rfl, if_pos rfl, split]
      have brackets := ok.searchHint_brackets (le_target stop (k.drop n.prefixLen))
      have inside := brackets.inside
      rw [List.length_map] at inside
      rw [bisect_spec ok.ascending_suffixes ok.heads stop ?_ brackets, targetSplit,
        rank_keys_append]
      · have member := n.mem_keys_append (k.drop n.prefixLen)
        rw [split] at member
        simp only [member]
      · exact le_trans (Nat.sub_le _ _) inside

theorem Ok.lowerBound_eq (ok : n.Ok) (k : Key) :
    n.lowerBound k = (rank n.keys k, decide (k ∈ n.keys)) := ok.searchable.bound_spec true k

/-- Prefix, hints and heads change nothing: a search finds what counting the keys finds. -/
theorem search_counts_keys (ok : n.Searchable) (skey : Key) :
    (n.lowerBound skey).1 = n.keys.countP (· < skey) ∧
      ((n.lowerBound skey).2 = true ↔ skey ∈ n.keys) ∧
      n.upperBound skey = n.keys.countP (· ≤ skey) := by
  rw [lowerBound, upperBound, ok.bound_spec, ok.bound_spec]
  refine ⟨rank_eq_countP fun k _ => decide_eq_true_iff.symm, by simp, rank_eq_countP fun k _ => ?_⟩
  -- the keys below the next key are those up to the key
  have next : skey < k ↔ target false skey ≤ k := Lex.lt_iff_snoc_bot_le skey k
  rw [decide_eq_true_iff, ← not_le, ← next, not_lt]

def twoKeys : Node :=
  { new true with
    lowerFence := [7]
    upperFence := [7, 9]
    slots := [⟨[1], .data [], head [1]⟩, ⟨[1, 0], .data [], head [1, 0]⟩]
    prefixLen := 1 }

theorem search_counts_keys_two : twoKeys.Searchable ∧
    (twoKeys.lowerBound [7, 1, 0]).1 = twoKeys.keys.countP (· < [7, 1, 0]) ∧
    twoKeys.upperBound [] = twoKeys.keys.countP (· ≤ []) := by
  have ok : twoKeys.Searchable :=
    ⟨by decide, by decide +kernel, by decide, fun many => absurd many (by decide)⟩
  exact ⟨ok, (search_counts_keys ok _).1, (search_counts_keys ok _).2.2⟩

end Node

end UringDb.BTree
