import UringDb.BTree.Merge

/-!
# Lookups and scans

`BTree::lookup` and `BTree::scanAsc` over whole trees. A tree is read off its pages from the
root down: `Holds` gives the leaves below a page, with the range of keys between two separators
that the page is responsible for. Searching is then about these leaves only.

Pages are all resident here: a guard never asks for a restart.
-/
namespace UringDb.BTree

abbrev Entry := Key × Payload

/-- The pages, and what `getRoot` answers for the tree. -/
structure Tree where
  pages : PID → Option Node
  root : PID

namespace Tree

variable (t : Tree)

/-- The way down to a leaf, by the child that each inner node names. -/
def descend (child : Node → PID) : Nat → PID → Option Node
  | 0, _ => none
  | fuel + 1, pid => do
    let node ← t.pages pid
    if node.isInner then descend child fuel (child node) else some node

def findLeafS (fuel : Nat) (key : Key) : Option Node := t.descend (·.lookupInner key) fuel t.root

def findLeafSUpper (fuel : Nat) (key : Key) : Option Node :=
  t.descend (·.lookupInnerUpper key) fuel t.root

/-- `lookup`; the answer is `none` for a key that is not found. -/
def lookup (fuel : Nat) (key : Key) : Option (Option Payload) := do
  let node ← t.findLeafS fuel key
  let pos := node.lowerBound key
  some (if pos.2 then some (node.getPayload pos.1) else none)

/-- The loop of `scanAsc` at slot `pos` of a leaf. The callback is called with an entry and
answers whether to go on; `go` is its answer, which may depend on all it has seen. -/
def scanLoop (right : Node → Option Node) (go : List Entry → Bool) :
    Nat → Node → Nat → List Entry → Option (List Entry)
  | 0, _, _, _ => none
  | fuel + 1, node, pos, seen =>
    if pos < node.count then
      let seen := seen ++ [(node.fullKey pos, node.getPayload pos)]
      if go seen then scanLoop right go fuel node (pos + 1) seen else some seen
    else if node.hasRightNeighbour then do
      let node ← right node
      scanLoop right go fuel node 0 seen
    else some seen

/-- The leaf to go on with: the single-threaded tree looks for the upper fence again, the
multi-threaded one follows the link. -/
def rightOf (fuel : Nat) : Engine → Node → Option Node
  | .singleThreaded, node => t.findLeafSUpper fuel node.upperFence
  | .multiThreaded, node => node.link.bind t.pages

def scanAsc (engine : Engine) (fuel : Nat) (key : Key) (go : List Entry → Bool) :
    Option (List Entry) := do
  let node ← t.findLeafS fuel key
  scanLoop (t.rightOf fuel engine) go fuel node (node.lowerBound key).1 []

end Tree

/-! ### Leaves in a row -/

theorem filter_eq_drop {l : List Entry} (ascending : Ascending (l.map Prod.fst))
    (key : Key) : (l.filter fun e => key ≤ e.1) = l.drop (rank (l.map Prod.fst) key) := by
  induction l with
  | nil => rfl
  | cons e l ih =>
    have later := List.pairwise_cons.mp ascending
    by_cases less : e.1 < key
    · rw [List.filter_cons_of_neg (by simpa using less), List.map_cons, rank_cons, if_pos less]
      exact ih later.2
    · have all : ∀ k ∈ (e :: l).map Prod.fst, key ≤ k := by
        intro k member
        rcases List.mem_cons.mp member with rfl | member
        · exact not_lt.mp less
        · exact le_trans (not_lt.mp less) (le_of_lt (later.1 k member))
      rw [rank_of_all_ge all, List.drop_zero, List.filter_eq_self]
      exact fun x member => decide_eq_true (all x.1 (List.mem_map_of_mem member))

/-- `k` is above an exclusive lower fence, where the empty fence is no bound. -/
def From (lower k : Key) : Prop := lower = [] ∨ lower < k

/-- The range of a node has room for `k`. -/
def Node.Spans (n : Node) (k : Key) : Prop := From n.lowerFence k ∧ UpTo n.upperFence k

/-- One node ends before the other begins. -/
structure Node.Before (n m : Node) : Prop where
  bounded : n.upperFence ≠ []
  le : n.upperFence ≤ m.lowerFence

theorem Node.Before.lt {n m : Node} {k k' : Key} (before : n.Before m) (upTo : UpTo n.upperFence k)
    (above : From m.lowerFence k') : k < k' := by
  have le := le_trans (upTo.resolve_left before.bounded) before.le
  rcases above with empty | above
  · exact absurd (le_antisymm (empty ▸ before.le) (Lex.nil_le _)) before.bounded
  · exact lt_of_le_of_lt le above

structure Node.Leaf (n : Node) (lo hi : Key) : Prop where
  ok : n.Ok
  isLeaf : n.isLeaf = true
  lower : n.lowerFence = lo
  upper : n.upperFence = hi

/-- Leaves whose ranges follow each other without a gap. -/
inductive Tiled : Key → Key → List Node → Prop
  | one {n lo hi} : n.Leaf lo hi → Tiled lo hi [n]
  | cons {n lo mid hi leaves} : n.Leaf lo mid → mid ≠ [] → Tiled mid hi leaves →
      Tiled lo hi (n :: leaves)

def contents (leaves : List Node) : List Entry := leaves.flatMap Node.entries

namespace Tiled

variable {lo mid hi : Key} {leaves : List Node}

theorem append {right : List Node} (left : Tiled lo mid leaves) (bounded : mid ≠ [])
    (rest : Tiled mid hi right) : Tiled lo hi (leaves ++ right) := by
  induction left with
  | one leaf => exact .cons leaf bounded rest
  | cons leaf inner _ ih => exact .cons leaf inner (ih bounded rest)

theorem of_mem (tiled : Tiled lo hi leaves) {n : Node} (member : n ∈ leaves) :
    n.Ok ∧ lo ≤ n.lowerFence := by
  induction tiled with
  | one leaf =>
    rw [List.mem_singleton.mp member, leaf.lower]
    exact ⟨leaf.ok, le_refl _⟩
  | cons leaf bounded _ ih =>
    rcases List.mem_cons.mp member with rfl | member
    · exact ⟨leaf.ok, le_of_eq leaf.lower.symm⟩
    · have fences := leaf.ok.content.fences
      rw [leaf.lower, leaf.upper] at fences
      exact ⟨(ih member).1, le_trans (le_of_lt (fences.resolve_left bounded)) (ih member).2⟩

theorem before (tiled : Tiled lo hi leaves) : leaves.Pairwise Node.Before := by
  induction tiled with
  | one => exact List.pairwise_singleton _ _
  | cons leaf bounded rest ih =>
    refine List.pairwise_cons.mpr ⟨fun m member => ?_, ih⟩
    exact ⟨leaf.upper ▸ bounded, leaf.upper ▸ (rest.of_mem member).2⟩

/-- At most one leaf is responsible for a key. -/
theorem spans_unique (tiled : Tiled lo hi leaves) {n m : Node} {k : Key} (left : n ∈ leaves)
    (right : m ∈ leaves) (here : n.Spans k) (there : m.Spans k) : n = m := by
  have apart : leaves.Pairwise fun n m => ¬ (n.Spans k ∧ m.Spans k) := by
    refine tiled.before.imp ?_
    rintro n m before ⟨here, there⟩
    exact lt_irrefl k (before.lt here.2 there.1)
  have symmetric : Std.Symm fun n m : Node => ¬ (n.Spans k ∧ m.Spans k) :=
    ⟨fun _ _ no both => no both.symm⟩
  by_contra differ
  exact apart.forall left right differ ⟨here, there⟩

theorem spans_of_mem (tiled : Tiled lo hi leaves) {n : Node} (member : n ∈ leaves)
    {e : Entry} (entry : e ∈ n.entries) : n.Spans e.1 :=
  have content := (tiled.of_mem member).1.content
  ⟨Or.inr (content.above e entry), content.upTo e entry⟩

theorem ascending (tiled : Tiled lo hi leaves) :
    Ascending ((contents leaves).map Prod.fst) := by
  rw [Ascending, List.pairwise_map, contents, List.pairwise_flatMap]
  constructor
  · intro n member
    exact List.pairwise_map.mp (tiled.of_mem member).1.content.ascending
  · refine tiled.before.imp_of_mem fun left right apart e here e' there => ?_
    exact apart.lt (tiled.spans_of_mem left here).2 (tiled.spans_of_mem right there).1

/-- What the leaf of a key and the leaves behind it have from the key on is all there is. -/
theorem filter_contents {before rest : List Node} {n : Node} {key : Key}
    (tiled : Tiled lo hi (before ++ n :: rest)) (spans : n.Spans key) :
    ((contents (before ++ n :: rest)).filter fun e => key ≤ e.1) =
      n.entries.drop (rank n.keys key) ++ contents rest := by
  have apart := List.pairwise_append.mp tiled.before
  have earlier : ((contents before).filter fun e => key ≤ e.1) = [] := by
    refine List.filter_eq_nil_iff.mpr fun e member => ?_
    obtain ⟨m, member, entry⟩ := List.mem_flatMap.mp member
    have inside := tiled.spans_of_mem (List.mem_append_left _ member) entry
    simpa using (apart.2.2 m member n List.mem_cons_self).lt inside.2 spans.1
  have later : ((contents rest).filter fun e => key ≤ e.1) = contents rest := by
    refine List.filter_eq_self.mpr fun e member => ?_
    obtain ⟨m, member, entry⟩ := List.mem_flatMap.mp member
    have inside := tiled.spans_of_mem (List.mem_append_right _ (List.mem_cons_of_mem _ member)) entry
    exact decide_eq_true (le_of_lt
      (((List.pairwise_cons.mp apart.2.1).1 m member).lt spans.2 inside.1))
  have here : (n.entries.filter fun e => key ≤ e.1) = n.entries.drop (rank n.keys key) := by
    rw [← n.map_fst_entries]
    exact filter_eq_drop
      (tiled.of_mem (List.mem_append_right _ List.mem_cons_self)).1.content.ascending key
  have split : contents (before ++ n :: rest) = contents before ++ (n.entries ++ contents rest) :=
    List.flatMap_append.trans (congrArg _ List.flatMap_cons)
  rw [split, List.filter_append, List.filter_append, earlier, here, later, List.nil_append]

end Tiled

/-! ### Trees -/

/-- The children of an inner node: each is responsible for what lies between two separators. -/
inductive Chain (below : PID → Key → Key → List Node → Prop) (last : PID) :
    List Entry → Key → Key → List Node → Prop
  | last {lo hi leaves} : below last lo hi leaves → Chain below last [] lo hi leaves
  | cons {e rest lo hi left right} : below e.2.pid lo e.1 left →
      Chain below last rest e.1 hi right → Chain below last (e :: rest) lo hi (left ++ right)

namespace Chain

variable {below : PID → Key → Key → List Node → Prop} {last : PID} {es : List Entry}
  {lo hi : Key} {leaves : List Node}

theorem tiled (chain : Chain below last es lo hi leaves)
    (each : ∀ {pid lo hi leaves}, below pid lo hi leaves → Tiled lo hi leaves)
    (proper : ∀ e ∈ es, e.1 ≠ []) : Tiled lo hi leaves := by
  induction chain with
  | last held => exact each held
  | cons held _ ih =>
    have first := proper _ List.mem_cons_self
    exact (each held).append first (ih fun e member => proper e (List.mem_cons_of_mem _ member))

/-- The child at the rank of a key is responsible for it. -/
theorem child (chain : Chain below last es lo hi leaves) (ascending : Ascending (es.map Prod.fst))
    {k : Key} (above : From lo k) (upTo : UpTo hi k) :
    ∃ pid lo' hi' part, (es.map (·.2.pid) ++ [last])[rank (es.map Prod.fst) k]? = some pid ∧
      below pid lo' hi' part ∧ From lo' k ∧ UpTo hi' k ∧ part ⊆ leaves := by
  induction chain with
  | last held => exact ⟨last, _, _, _, rfl, held, above, upTo, List.Subset.refl _⟩
  | @cons e rest lo hi left right held _ ih =>
    rw [List.map_cons, Ascending, List.pairwise_cons] at ascending
    by_cases less : e.1 < k
    · obtain ⟨pid, lo', hi', part, found, held, above, upTo, sub⟩ :=
        ih ascending.2 (Or.inr less) upTo
      refine ⟨pid, lo', hi', part, ?_, held, above, upTo, List.subset_append_of_subset_right left sub⟩
      rw [List.map_cons, List.map_cons, rank_cons, if_pos less]
      exact found
    · -- the separators behind this one are larger still
      have first : rank ((e :: rest).map Prod.fst) k = 0 := by
        refine rank_of_all_ge fun x member => ?_
        rcases List.mem_cons.mp member with rfl | member
        · exact not_lt.mp less
        · exact le_trans (not_lt.mp less) (le_of_lt (ascending.1 x member))
      rw [first]
      exact ⟨e.2.pid, lo, e.1, left, rfl, held, above, Or.inr (not_lt.mp less),
        List.subset_append_left left right⟩

end Chain

namespace Node

variable {n : Node}

theorem getElem?_entries {i : Nat} (inside : i < n.count) :
    n.entries[i]? = some (n.fullKey i, n.getPayload i) := by
  rw [entries, List.getElem?_map, getElem?_slots inside]
  rfl

theorem Ok.mem_entries_iff (ok : n.Ok) {k : Key} {p : Payload} :
    (k, p) ∈ n.entries ↔ k ∈ n.keys ∧ n.getPayload (rank n.keys k) = p := by
  constructor
  · intro entry
    obtain ⟨i, stored⟩ := List.mem_iff_getElem?.mp entry
    have inside : i < n.count := n.length_entries ▸ (List.getElem?_eq_some_iff.mp stored).1
    rw [getElem?_entries inside] at stored
    cases stored
    obtain ⟨bound, atI⟩ := fullKey_eq inside
    refine ⟨fullKey_mem inside, ?_⟩
    rw [← atI, ok.searchable.ascending.rank_getElem bound]
  · rintro ⟨member, rfl⟩
    obtain ⟨bound, same⟩ := ok.searchable.ascending.getElem_rank member
    have inside : rank n.keys k < n.count := n.length_keys ▸ bound
    obtain ⟨_, atRank⟩ := fullKey_eq inside
    have entry := List.mem_of_getElem? (getElem?_entries inside)
    rwa [← atRank, same] at entry

theorem childAt_eq {i : Nat} {pid : PID}
    (found : (n.entries.map (·.2.pid) ++ [n.link.getD 0])[i]? = some pid) : n.childAt i = pid := by
  have length : (n.entries.map (·.2.pid)).length = n.count := by rw [List.length_map, length_entries]
  unfold childAt
  rcases Nat.lt_trichotomy i n.count with inside | rfl | beyond
  · rw [List.getElem?_append_left (length ▸ inside), List.getElem?_map, getElem?_entries inside] at found
    rw [if_neg (Nat.ne_of_lt inside)]
    exact Option.some.inj found
  · rw [List.getElem?_append_right (Nat.le_of_eq length), length, Nat.sub_self] at found
    rw [if_pos rfl]
    exact Option.some.inj found
  · rw [List.getElem?_eq_none (by rw [List.length_append, length]; exact beyond)] at found
    cases found

end Node

namespace Tree

/-- The leaves below a page, and the range of keys it is responsible for. -/
def Holds (t : Tree) : Nat → PID → Key → Key → List Node → Prop
  | 0, pid, lo, hi, leaves => ∃ n, t.pages pid = some n ∧ n.Leaf lo hi ∧ leaves = [n]
  | height + 1, pid, lo, hi, leaves => ∃ n, t.pages pid = some n ∧ n.Ok ∧ n.isLeaf = false ∧
      n.lowerFence = lo ∧ n.upperFence = hi ∧
      Chain (t.Holds height) (n.link.getD 0) n.entries lo hi leaves

/-- Each leaf has the next one as its right neighbour. -/
def Follow (right : Node → Option Node) : List Node → Prop
  | [] => True
  | [n] => n.hasRightNeighbour = false
  | n :: m :: rest => n.hasRightNeighbour = true ∧ right n = some m ∧ Follow right (m :: rest)

structure Ok (t : Tree) (height : Nat) (leaves : List Node) : Prop where
  holds : t.Holds height t.root [] [] leaves
  linked : Follow (fun n => n.link.bind t.pages) leaves

variable {t : Tree} {height fuel : Nat} {pid : PID} {lo hi : Key} {leaves : List Node}

theorem Holds.tiled (holds : t.Holds height pid lo hi leaves) : Tiled lo hi leaves := by
  induction height generalizing pid lo hi leaves with
  | zero =>
    obtain ⟨n, -, leaf, rfl⟩ := holds
    exact .one leaf
  | succ height ih =>
    obtain ⟨n, -, ok, -, rfl, rfl, chain⟩ := holds
    refine chain.tiled ih fun e member empty => ?_
    have above := ok.content.above e member
    rw [empty] at above
    exact absurd above (not_lt.mpr (Lex.nil_le _))

/-- The descent ends at the leaf that is responsible for the key. -/
theorem Holds.descend {child : Node → PID} {k : Key}
    (holds : t.Holds height pid lo hi leaves) (enough : height < fuel)
    (goes : ∀ n : Node, n.Ok → child n = n.childAt (rank n.keys k))
    (above : From lo k) (upTo : UpTo hi k) :
    ∃ n ∈ leaves, t.descend child fuel pid = some n ∧ n.Spans k := by
  induction height generalizing pid lo hi leaves fuel with
  | zero =>
    obtain ⟨n, page, leaf, rfl⟩ := holds
    obtain ⟨fuel, rfl⟩ := Nat.exists_eq_succ_of_ne_zero (Nat.ne_of_gt enough)
    refine ⟨n, List.mem_singleton_self n, ?_, ?_⟩
    · simp [Tree.descend, page, Node.isInner, leaf.isLeaf]
    · rw [Node.Spans, leaf.lower, leaf.upper]
      exact ⟨above, upTo⟩
  | succ height ih =>
    obtain ⟨n, page, ok, inner, rfl, rfl, chain⟩ := holds
    obtain ⟨fuel, rfl⟩ := Nat.exists_eq_succ_of_ne_zero (Nat.ne_of_gt (Nat.zero_lt_of_lt enough))
    obtain ⟨pid, lo', hi', part, found, held, above, upTo, sub⟩ :=
      chain.child (n.map_fst_entries ▸ ok.searchable.ascending) above upTo
    rw [Node.map_fst_entries] at found
    obtain ⟨leaf, member, reached, spans⟩ := ih held (Nat.lt_of_succ_lt_succ enough) above upTo
    refine ⟨leaf, sub member, ?_, spans⟩
    have down : child n = pid := (goes n ok).trans (Node.childAt_eq found)
    simp [Tree.descend, page, Node.isInner, inner, down, reached]

theorem Ok.findLeafS (ok : t.Ok height leaves) (enough : height < fuel) (key : Key) :
    ∃ n ∈ leaves, t.findLeafS fuel key = some n ∧ n.Spans key :=
  ok.holds.descend enough (fun n ok => by rw [Node.lookupInner, ok.lowerBound_eq]) (Or.inl rfl)
    (Or.inl rfl)

/-- **Lookups.** A lookup comes to an answer, and it is the entry of the key in one of the
leaves, if there is one. -/
theorem lookup_finds (ok : t.Ok height leaves) (enough : height < fuel) (key : Key) :
    ∃ answer, t.lookup fuel key = some answer ∧
      ∀ p, answer = some p ↔ (key, p) ∈ contents leaves := by
  obtain ⟨n, member, found, spans⟩ := ok.findLeafS enough key
  have tiled := ok.holds.tiled
  have leaf := (tiled.of_mem member).1
  refine ⟨_, by rw [lookup, found, Option.bind_eq_bind, Option.bind_some], fun p => ?_⟩
  -- no other leaf can have the key
  have here : (key, p) ∈ contents leaves ↔ (key, p) ∈ n.entries := by
    refine ⟨fun entry => ?_, fun entry => List.mem_flatMap.mpr ⟨n, member, entry⟩⟩
    obtain ⟨m, there, entry⟩ := List.mem_flatMap.mp entry
    rwa [tiled.spans_unique member there spans (tiled.spans_of_mem there entry)]
  rw [here, leaf.lowerBound_eq]
  dsimp only
  rw [leaf.mem_entries_iff]
  by_cases stored : key ∈ n.keys <;> simp [stored]

def lastLeaf : Node := Node.build true none [8] [] [([9], .data [4])]

/-- Three leaves below one page. -/
def smallTree : Tree where
  pages
    | 2 => some Node.twoLeaves
    | 3 => some Node.leftLeaf
    | 4 => some Node.rightLeaf
    | 5 => some lastLeaf
    | _ => none
  root := 2

theorem smallTree_ok : smallTree.Ok 1 [Node.leftLeaf, Node.rightLeaf, lastLeaf] where
  holds := by
    have last : lastLeaf.Ok := by
      refine Node.build_ok ⟨.inl rfl, by decide +kernel, by decide, by decide,
        (fun inner => by cases inner), by decide⟩ (by decide) (fun inner => by cases inner)
    have pair := Node.twoLeaves_siblings
    have chain : Chain (smallTree.Holds 0) 5 [([5], .child 3), ([8], .child 4)] [] []
        ([Node.leftLeaf] ++ ([Node.rightLeaf] ++ [lastLeaf])) :=
      .cons ⟨_, rfl, ⟨pair.left_ok, rfl, rfl, rfl⟩, rfl⟩ (.cons
        ⟨_, rfl, ⟨pair.right_ok, rfl, rfl, rfl⟩, rfl⟩ (.last ⟨_, rfl, ⟨last, rfl, rfl, rfl⟩, rfl⟩))
    exact ⟨Node.twoLeaves, rfl, pair.parent_ok, rfl, rfl, rfl, chain⟩
  linked := ⟨rfl, rfl, rfl, rfl, rfl⟩

theorem lookup_finds_small : smallTree.lookup 2 [6] = some (some (.data [2])) := by
  obtain ⟨answer, found, entry⟩ := lookup_finds smallTree_ok (Nat.lt_succ_self 1) [6]
  rw [found, (entry (.data [2])).mpr (by decide)]

/-! ### Scans -/

/-- The entries of `pending` up to the one after which the callback stops, behind those it has
seen before. -/
def report (go : List Entry → Bool) :
    List Entry → List Entry → List Entry
  | seen, [] => seen
  | seen, e :: pending =>
    if go (seen ++ [e]) then report go (seen ++ [e]) pending else seen ++ [e]

theorem Follow.suffix {right : Node → Option Node} {before after : List Node}
    (follow : Follow right (before ++ after)) : Follow right after := by
  induction before with
  | nil => exact follow
  | cons n before ih =>
    apply ih
    cases rest : before ++ after with
    | nil => exact trivial
    | cons m rest' =>
      rw [List.cons_append, rest] at follow
      exact follow.2.2

variable {right : Node → Option Node} (go : List Entry → Bool)

/-- A loop that reports `later` from the end of a leaf on reports the rest of the leaf first. -/
theorem scanLoop_leaf {n : Node} {later : List Entry} {steps : Nat}
    (atEnd : ∀ fuel seen, steps ≤ fuel →
      scanLoop right go fuel n n.count seen = some (report go seen later))
    {pos : Nat} (inside : pos ≤ n.count) (fuel : Nat) (seen : List Entry)
    (enough : steps + (n.count - pos) ≤ fuel) :
    scanLoop right go fuel n pos seen = some (report go seen (n.entries.drop pos ++ later)) := by
  induction inside using Nat.decreasingInduction generalizing fuel seen with
  | self =>
    rw [← n.length_entries, List.drop_length, n.length_entries]
    exact atEnd fuel seen (by omega)
  | of_succ pos less ih =>
    obtain ⟨fuel, rfl⟩ : ∃ left, fuel = left + 1 := ⟨fuel - 1, by omega⟩
    have entry : n.entries.drop pos = (n.fullKey pos, n.getPayload pos) :: n.entries.drop (pos + 1) :=
      List.drop_eq_getElem?_toList_append .. |>.trans (by rw [Node.getElem?_entries less]; rfl)
    rw [entry, scanLoop, if_pos less, List.cons_append, report]
    dsimp only
    by_cases more : go (seen ++ [(n.fullKey pos, n.getPayload pos)]) = true
    · rw [if_pos more, if_pos more]
      exact ih fuel _ (by omega)
    · rw [if_neg more, if_neg more]

theorem scanLoop_eq (n : Node) (rest : List Node) {pos : Nat} (inside : pos ≤ n.count) :
    ∃ steps, ∀ {right}, Follow right (n :: rest) → ∀ fuel seen, steps ≤ fuel →
      scanLoop right go fuel n pos seen = some (report go seen (n.entries.drop pos ++ contents rest)) := by
  induction rest generalizing n pos with
  | nil =>
    refine ⟨1 + (n.count - pos), fun follow => scanLoop_leaf go (fun fuel seen enough => ?_) inside⟩
    obtain ⟨fuel, rfl⟩ := Nat.exists_eq_add_of_le' enough
    rw [scanLoop, if_neg (Nat.lt_irrefl _), if_neg (by rw [follow]; exact Bool.false_ne_true)]
    rfl
  | cons m rest ih =>
    obtain ⟨steps, later⟩ := ih m (Nat.zero_le _)
    refine ⟨steps + 1 + (n.count - pos),
      fun follow => scanLoop_leaf go (fun fuel seen enough => ?_) inside⟩
    obtain ⟨fuel, rfl⟩ := Nat.exists_eq_add_of_le' (Nat.le_of_add_left_le enough)
    rw [scanLoop, if_neg (Nat.lt_irrefl _), if_pos follow.1, follow.2.1]
    exact later follow.2.2 fuel seen (Nat.le_of_succ_le_succ enough)

/-- Looking for the upper fence of a leaf leads to the next one, as its link does. -/
theorem Ok.follow (ok : t.Ok height leaves) (enough : height < fuel) (engine : Engine) :
    Follow (t.rightOf fuel engine) leaves := by
  have tiled := ok.holds.tiled
  cases engine with
  | multiThreaded => exact ok.linked
  | singleThreaded =>
    suffices ∀ {lo hi part}, Tiled lo hi part → part ⊆ leaves →
        Follow (fun n => n.link.bind t.pages) part →
        Follow (t.rightOf fuel .singleThreaded) part from
      this tiled (List.Subset.refl _) ok.linked
    intro lo hi part row sub follow
    induction row with
    | one => exact follow
    | @cons n lo mid hi part leaf bounded rest ih =>
      have later := ih (List.subset_of_cons_subset sub)
      cases part with
      | nil => cases rest
      | cons m part =>
        refine ⟨follow.1, ?_, later follow.2.2⟩
        have begins : m.lowerFence = n.upperFence := by
          rw [leaf.upper]
          cases rest with
          | one leaf => exact leaf.lower
          | cons leaf => exact leaf.lower
        have there : m ∈ leaves := sub (List.mem_cons_of_mem _ List.mem_cons_self)
        -- the next leaf is the one responsible for what comes right after the fence
        have spans : m.Spans (target false n.upperFence) := by
          refine ⟨Or.inr (begins ▸ Lex.lt_snoc _), ?_⟩
          refine (tiled.of_mem there).1.content.fences.imp_right fun less => ?_
          exact target_le false (begins ▸ less)
        have goes : ∀ n' : Node, n'.Ok → n'.lookupInnerUpper n.upperFence =
            n'.childAt (rank n'.keys (target false n.upperFence)) := fun n' ok' => by
          rw [Node.lookupInnerUpper, Node.upperBound, ok'.searchable.bound_spec]
        obtain ⟨m', member, found, spans'⟩ :=
          ok.holds.descend enough goes (Or.inl rfl) (Or.inl rfl)
        rwa [tiled.spans_unique there member spans spans']

/-- **Ascending scans** of both trees report all entries from the key on, in the order of their
keys, until the callback stops them. -/
theorem scanAsc_reports (ok : t.Ok height leaves) (engine : Engine) (key : Key)
    (go : List Entry → Bool) :
    Ascending ((contents leaves).map Prod.fst) ∧ ∃ steps, ∀ fuel, steps ≤ fuel →
      t.scanAsc engine fuel key go =
        some (report go [] ((contents leaves).filter fun e => key ≤ e.1)) := by
  have tiled := ok.holds.tiled
  obtain ⟨n, member, -, spans⟩ := ok.findLeafS (Nat.lt_succ_self height) key
  obtain ⟨before, rest, rfl⟩ := List.append_of_mem member
  have inside : rank n.keys key ≤ n.count := n.length_keys ▸ rank_le_length _ _
  obtain ⟨steps, reports⟩ := scanLoop_eq go n rest inside
  refine ⟨tiled.ascending, max steps (height + 1), fun fuel enough => ?_⟩
  have high : height < fuel := le_trans (le_max_right _ _) enough
  obtain ⟨n', member', found, spans'⟩ := ok.findLeafS high key
  obtain rfl := tiled.spans_unique member member' spans spans'
  rw [scanAsc, found, Option.bind_eq_bind, Option.bind_some, (tiled.of_mem member).1.lowerBound_eq,
    reports (ok.follow high engine).suffix fuel [] (le_trans (le_max_left _ _) enough),
    tiled.filter_contents spans]

theorem scanAsc_reports_small : ∃ fuel, smallTree.scanAsc .singleThreaded fuel [7] (fun _ => true) =
    some [([8], .data [3]), ([9], .data [4])] := by
  obtain ⟨-, steps, reports⟩ := scanAsc_reports smallTree_ok .singleThreaded [7] fun _ => true
  exact ⟨steps, (reports steps (Nat.le_refl _)).trans (by decide)⟩

end Tree

end UringDb.BTree
