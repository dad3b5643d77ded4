import Mathlib

/-!
# The chained hash table and its batched insertion

`ChainedHT` of `utils/hashtable.hpp`. A bucket is the list of its nodes; a walker's
pointer-to-pointer `cur` is a bucket and a depth, the link behind that many nodes. Nodes are
only appended while a batch is processed, so such a link stays where it is. Of the free list only
its length matters. A failed `ensure` is `none`.

A batch is processed in rounds: every item still under way looks at one link, and then all of
them move one node further. The result is that of inserting the items one after another.
-/
namespace UringDb.Hashtable

variable {V : Type}

abbrev Chain (V : Type) := List (UInt64 × V)

def emptyKey : UInt64 := 0xFFFFFFFFFFFFFFFF

def hash (x : UInt64) : UInt64 :=
  let x := x + 0x9e3779b97f4a7c15
  let x := (x ^^^ (x >>> 30)) * 0xbf58476d1ce4e5b9
  let x := (x ^^^ (x >>> 27)) * 0x94d049bb133111eb
  x ^^^ (x >>> 31)

structure ChainedHT (V : Type) where
  /-- One less than the number of buckets. -/
  mask : UInt64
  buckets : UInt64 → Chain V
  freeNodes : Nat
  sz : Nat
  /-- The first `batch_len_` elements of `work_`. -/
  batch : List (UInt64 × V)

def index (mask : UInt64) (k : UInt64) : UInt64 := hash k &&& mask

/-- Update the first node with key `k`, if there is one. -/
def update : Chain V → UInt64 → V → Option (Chain V)
  | [], _, _ => none
  | p :: chain, k, v =>
    if p.1 = k then some ((k, v) :: chain) else (update chain k v).map (p :: ·)

/-- Link a node from the free list behind the last node of bucket `i`. -/
def ChainedHT.append (ht : ChainedHT V) (i k : UInt64) (v : V) : Option (ChainedHT V) := do
  guard (0 < ht.freeNodes)
  some { ht with
    buckets := Function.update ht.buckets i (ht.buckets i ++ [(k, v)])
    freeNodes := ht.freeNodes - 1 }

/-- Insert or update; the answer says whether the key is new. -/
def ChainedHT.insert (ht : ChainedHT V) (k : UInt64) (v : V) : Option (Bool × ChainedHT V) := do
  guard (k ≠ emptyKey)
  let i := index ht.mask k
  match update (ht.buckets i) k v with
  | some chain => some (false, { ht with buckets := Function.update ht.buckets i chain })
  | none => do
    let ht ← ht.append i k v
    some (true, { ht with sz := ht.sz + 1 })

def ChainedHT.find (ht : ChainedHT V) (k : UInt64) : Option V :=
  if k = emptyKey then none
  else ((ht.buckets (index ht.mask k)).find? (·.1 = k)).map (·.2)

/-! ### Batches -/

def batchSize : Nat := 1024 * 2

/-- An item on its way through its chain. -/
structure Work (V : Type) where
  bucket : UInt64
  depth : Nat
  k : UInt64
  v : V

/-- One look at a link: append at the end of the chain, update on a match, else keep the item
for the next round. The number counts the new nodes. -/
def visit (ht : ChainedHT V) (newCount : Nat) (w : Work V) :
    Option (ChainedHT V × Nat × List (Work V)) :=
  let chain := ht.buckets w.bucket
  match chain[w.depth]? with
  | none => (ht.append w.bucket w.k w.v).map fun ht => (ht, newCount + 1, [])
  | some p =>
    if p.1 = w.k then
      some ({ ht with buckets :=
        Function.update ht.buckets w.bucket (chain.set w.depth (p.1, w.v)) }, newCount, [])
    else some (ht, newCount, [{ w with depth := w.depth + 1 }])

/-- One pass over the work items, which compacts those still under way. -/
def round : ChainedHT V → Nat → List (Work V) → Option (ChainedHT V × Nat × List (Work V))
  | ht, newCount, [] => some (ht, newCount, [])
  | ht, newCount, w :: ws => do
    let (ht, newCount, kept) ← visit ht newCount w
    let (ht, newCount, rest) ← round ht newCount ws
    some (ht, newCount, kept ++ rest)

/-- `seed_build_`: resolve the buckets, then look at every head. -/
def seedBuild (ht : ChainedHT V) (items : List (UInt64 × V)) :
    Option (ChainedHT V × Nat × List (Work V)) :=
  round ht 0 (items.map fun e => ⟨index ht.mask e.1, 0, e.1, e.2⟩)

/-- `walk_compact_`: passes until no item is left. Without fuel it has not come to an end. -/
def walkCompact : Nat → ChainedHT V → Nat → List (Work V) → Option (ChainedHT V × Nat)
  | 0, _, _, _ => none
  | fuel + 1, ht, newCount, ws =>
    if ws.isEmpty then some (ht, newCount)
    else do
      let (ht, newCount, ws) ← round ht newCount ws
      walkCompact fuel ht newCount ws

/-- More rounds than the chains of the batch can have nodes. -/
def maxRounds (ht : ChainedHT V) (items : List (UInt64 × V)) : Nat :=
  (items.map fun e => (ht.buckets (index ht.mask e.1)).length).sum + ht.freeNodes + 1

/-- `process_batch_full` and `process_batch_var`. -/
def processBatch (ht : ChainedHT V) : Option (ChainedHT V) := do
  let (ht', newCount, ws) ← seedBuild ht ht.batch
  let (ht', newCount) ← walkCompact (maxRounds ht ht.batch) ht' newCount ws
  some { ht' with sz := ht'.sz + newCount, batch := [] }

def ChainedHT.insertBatch (ht : ChainedHT V) (k : UInt64) (v : V) : Option (ChainedHT V) := do
  guard (k ≠ emptyKey)
  let ht := { ht with batch := ht.batch ++ [(k, v)] }
  if ht.batch.length = batchSize then processBatch ht else some ht

def ChainedHT.flushBatch (ht : ChainedHT V) : Option (ChainedHT V) :=
  if ht.batch.isEmpty then some ht else processBatch ht

def insertAll (ht : ChainedHT V) (items : List (UInt64 × V)) : Option (ChainedHT V) :=
  items.foldlM (fun ht e => (ht.insert e.1 e.2).map (·.2)) ht

def insertBatched (ht : ChainedHT V) (items : List (UInt64 × V)) : Option (ChainedHT V) := do
  let ht ← items.foldlM (fun ht e => ht.insertBatch e.1 e.2) ht
  ht.flushBatch

/-! ### Chains -/

def keys (chain : Chain V) : List UInt64 := chain.map Prod.fst

/-- The chain with the first value under `k` replaced. -/
def replace : Chain V → UInt64 → V → Chain V
  | [], _, _ => []
  | p :: chain, k, v => if p.1 = k then (k, v) :: chain else p :: replace chain k v

theorem update_eq (chain : Chain V) (k : UInt64) (v : V) :
    update chain k v = if k ∈ keys chain then some (replace chain k v) else none := by
  induction chain with
  | nil => rfl
  | cons p chain ih =>
    unfold update replace keys
    rw [List.map_cons]
    by_cases here : p.1 = k
    · rw [if_pos here, if_pos here, if_pos (here ▸ List.mem_cons_self)]
    · rw [if_neg here, if_neg here, ih]
      by_cases later : k ∈ keys chain
      · have member : k ∈ p.1 :: chain.map Prod.fst := List.mem_cons_of_mem _ later
        rw [if_pos later, if_pos member]
        rfl
      · have absent : k ∉ p.1 :: chain.map Prod.fst := by
          intro member
          rcases List.mem_cons.mp member with same | member
          · exact here same.symm
          · exact later member
        rw [if_neg later, if_neg absent]
        rfl

theorem keys_replace (chain : Chain V) (k : UInt64) (v : V) :
    keys (replace chain k v) = keys chain := by
  induction chain with
  | nil => rfl
  | cons p chain ih =>
    unfold replace
    split
    next here => rw [keys, keys, List.map_cons, List.map_cons, here]
    next => rw [keys, List.map_cons, ← keys, ih]; rfl

theorem replace_comm {k k' : UInt64} (ne : k ≠ k') (chain : Chain V) (v v' : V) :
    replace (replace chain k v) k' v' = replace (replace chain k' v') k v := by
  induction chain with
  | nil => rfl
  | cons p chain ih =>
    by_cases here : p.1 = k
    · have other : p.1 ≠ k' := here ▸ ne
      simp only [replace, if_pos here, if_neg other, if_neg ne]
    · by_cases there : p.1 = k'
      · simp only [replace, if_neg here, if_pos there, if_neg (Ne.symm ne)]
      · simp only [replace, if_neg here, if_neg there, ih]

theorem replace_append {k : UInt64} {chain : Chain V} (member : k ∈ keys chain) (v : V)
    (rest : Chain V) : replace (chain ++ rest) k v = replace chain k v ++ rest := by
  induction chain with
  | nil => exact absurd member List.not_mem_nil
  | cons p chain ih =>
    rw [List.cons_append, replace, replace]
    by_cases here : p.1 = k
    · rw [if_pos here, if_pos here, List.cons_append]
    · rw [if_neg here, if_neg here, List.cons_append]
      rcases List.mem_cons.mp member with same | later
      · exact absurd same.symm here
      · rw [ih later]

theorem replace_eq_set {chain : Chain V} {d : Nat} {p : UInt64 × V} (v : V)
    (stored : chain[d]? = some p) (passed : p.1 ∉ keys (chain.take d)) :
    replace chain p.1 v = chain.set d (p.1, v) := by
  induction chain generalizing d with
  | nil => rw [List.getElem?_nil] at stored; cases stored
  | cons q chain ih =>
    cases d with
    | zero =>
      rw [List.getElem?_cons_zero, Option.some.injEq] at stored
      rw [replace, if_pos (congrArg Prod.fst stored), List.set_cons_zero]
    | succ d =>
      rw [List.getElem?_cons_succ] at stored
      rw [List.take_succ_cons, keys, List.map_cons, List.mem_cons, not_or] at passed
      rw [replace, if_neg (Ne.symm passed.1), List.set_cons_succ, ih stored passed.2]

/-! ### Sequential insertion on the content alone -/

/-- The chains, and the number of nodes in use. -/
structure Content (V : Type) where
  buckets : UInt64 → Chain V
  count : Nat

/-- A chain after the insertion of an item. -/
def chainPut (chain : Chain V) (e : UInt64 × V) : Chain V :=
  if e.1 ∈ keys chain then replace chain e.1 e.2 else chain ++ [e]

/-- The nodes an insertion takes. -/
def newNodes (chain : Chain V) (e : UInt64 × V) : Nat := if e.1 ∈ keys chain then 0 else 1

/-- Insertion of one item, nodes taken for granted. -/
def Content.put (mask : UInt64) (c : Content V) (e : UInt64 × V) : Content V :=
  let i := index mask e.1
  ⟨Function.update c.buckets i (chainPut (c.buckets i) e), c.count + newNodes (c.buckets i) e⟩

variable {mask : UInt64}

theorem Content.put_known (c : Content V) {e : UInt64 × V}
    (known : e.1 ∈ keys (c.buckets (index mask e.1))) :
    c.put mask e =
      ⟨Function.update c.buckets (index mask e.1)
        (replace (c.buckets (index mask e.1)) e.1 e.2), c.count⟩ := by
  rw [Content.put, chainPut, newNodes, if_pos known, if_pos known, Nat.add_zero]

theorem Content.put_new (c : Content V) {e : UInt64 × V}
    (new : e.1 ∉ keys (c.buckets (index mask e.1))) :
    c.put mask e =
      ⟨Function.update c.buckets (index mask e.1) (c.buckets (index mask e.1) ++ [e]),
        c.count + 1⟩ := by
  rw [Content.put, chainPut, newNodes, if_neg new, if_neg new]

theorem grows_chainPut (chain : Chain V) (e : UInt64 × V) :
    keys chain <+: keys (chainPut chain e) := by
  unfold chainPut
  split
  · rw [keys_replace]
  · rw [keys, keys, List.map_append]
    exact List.prefix_append _ _

theorem Content.grows_put (c : Content V) (e : UInt64 × V) (i : UInt64) :
    keys (c.buckets i) <+: keys ((c.put mask e).buckets i) := by
  by_cases same : i = index mask e.1
  · subst same
    simp only [Content.put, Function.update_self]
    exact grows_chainPut _ _
  · simp only [Content.put, Function.update_of_ne same]
    exact List.prefix_refl _

theorem Content.count_le_foldl (items : List (UInt64 × V)) (c : Content V) :
    c.count ≤ (items.foldl (Content.put mask) c).count := by
  induction items generalizing c with
  | nil => exact Nat.le_refl _
  | cons e items ih =>
    have first : c.count ≤ (c.put mask e).count := Nat.le_add_right _ _
    exact le_trans first (ih _)

/-- An item may overtake another one in a different bucket, and one with a different key if its
own key is already there. -/
def Content.MayPass (mask : UInt64) (c : Content V) (f e : UInt64 × V) : Prop :=
  index mask e.1 ≠ index mask f.1 ∨ e.1 ≠ f.1 ∧ f.1 ∈ keys (c.buckets (index mask f.1))

theorem Content.put_comm (c : Content V) {e f : UInt64 × V} (pass : c.MayPass mask f e) :
    (c.put mask e).put mask f = (c.put mask f).put mask e := by
  by_cases same : index mask e.1 = index mask f.1
  · obtain ⟨ne, present⟩ := pass.resolve_left fun ne => ne same
    -- the key of `f` is there, whether `e` is a new node behind it or an update
    by_cases known : e.1 ∈ keys (c.buckets (index mask f.1))
    · simp only [Content.put, chainPut, newNodes, same, Function.update_self, keys_replace,
        if_pos known, if_pos present, Function.update_idem, replace_comm ne]
    · have longer : f.1 ∈ keys (c.buckets (index mask f.1) ++ [e]) := by
        rw [keys, List.map_append]
        exact List.mem_append_left _ present
      simp only [Content.put, chainPut, newNodes, same, Function.update_self, keys_replace,
        if_neg known, if_pos present, if_pos longer, Function.update_idem, replace_append present,
        Nat.add_zero]
  · have ne : index mask f.1 ≠ index mask e.1 := Ne.symm same
    simp only [Content.put, Function.update_of_ne same, Function.update_of_ne ne,
      Function.update_comm ne, Nat.add_right_comm]

/-- An item that may overtake all items before it can be inserted first. -/
theorem Content.put_first (items : List (UInt64 × V)) (c : Content V) {f : UInt64 × V}
    (pass : ∀ e ∈ items, c.MayPass mask f e) :
    (items.foldl (Content.put mask) c).put mask f =
      items.foldl (Content.put mask) (c.put mask f) := by
  induction items generalizing c with
  | nil => rfl
  | cons e items ih =>
    rw [List.foldl_cons, List.foldl_cons, ih, c.put_comm (pass e List.mem_cons_self)]
    intro e' member
    rcases pass e' (List.mem_cons_of_mem _ member) with apart | ⟨ne, present⟩
    · exact Or.inl apart
    · exact Or.inr ⟨ne, (c.grows_put e _).subset present⟩

/-! ### One round -/

def ChainedHT.content (ht : ChainedHT V) (newCount : Nat) : Content V :=
  ⟨ht.buckets, ht.sz + newCount⟩

def Work.item (w : Work V) : UInt64 × V := (w.k, w.v)

/-- An item that has passed the first `r` nodes of its chain. -/
structure Walks (mask : UInt64) (buckets : UInt64 → Chain V) (r : Nat) (w : Work V) : Prop where
  bucket : w.bucket = index mask w.k
  depth : w.depth = r
  reached : r ≤ (buckets w.bucket).length
  passed : w.k ∉ keys ((buckets w.bucket).take r)

theorem keys_take (chain : Chain V) (r : Nat) : keys (chain.take r) = (keys chain).take r :=
  List.map_take

theorem Walks.mono {buckets buckets' : UInt64 → Chain V} {r : Nat} {w : Work V}
    (walks : Walks mask buckets r w)
    (grows : keys (buckets w.bucket) <+: keys (buckets' w.bucket)) :
    Walks mask buckets' r w := by
  have length : (keys (buckets w.bucket)).length = (buckets w.bucket).length := List.length_map _
  have length' : (keys (buckets' w.bucket)).length = (buckets' w.bucket).length :=
    List.length_map _
  have reached := walks.reached
  refine ⟨walks.bucket, walks.depth, ?_, ?_⟩
  · have := grows.length_le
    omega
  · rw [keys_take]
    have passed := walks.passed
    rw [keys_take] at passed
    obtain ⟨more, grown⟩ := grows
    rwa [← grown, List.take_append_of_le_length (by omega)]

/-- Inserting the items under way one after another. -/
def finish (mask : UInt64) (c : Content V) (ws : List (Work V)) : Content V :=
  (ws.map Work.item).foldl (Content.put mask) c

theorem finish_append (c : Content V) (ws ws' : List (Work V)) :
    finish mask c (ws ++ ws') = finish mask (finish mask c ws) ws' := by
  rw [finish, List.map_append, List.foldl_append]
  rfl

/-- Work done on the items `ws`, of which `ws'` remain: in the end the content is the same. -/
structure Progress (ht : ChainedHT V) (n : Nat) (ws : List (Work V)) (ht' : ChainedHT V) (n' : Nat)
    (ws' : List (Work V)) : Prop where
  mask : ht'.mask = ht.mask
  sz : ht'.sz = ht.sz
  batch : ht'.batch = ht.batch
  nodes : ht'.freeNodes + n' = ht.freeNodes + n
  grows : ∀ i, keys (ht.buckets i) <+: keys (ht'.buckets i)
  lengths : ∀ i, (ht'.buckets i).length + ht'.freeNodes ≤ (ht.buckets i).length + ht.freeNodes
  finishes : finish ht.mask (ht'.content n') ws' = finish ht.mask (ht.content n) ws

theorem Progress.refl (ht : ChainedHT V) (n : Nat) (ws : List (Work V)) :
    Progress ht n ws ht n ws :=
  ⟨rfl, rfl, rfl, rfl, fun _ => List.prefix_refl _, fun _ => Nat.le_refl _, rfl⟩

theorem Progress.trans {ht ht' ht'' : ChainedHT V} {n n' n'' : Nat} {ws ws' ws'' : List (Work V)}
    (first : Progress ht n ws ht' n' ws') (second : Progress ht' n' ws' ht'' n'' ws'') :
    Progress ht n ws ht'' n'' ws'' where
  mask := second.mask.trans first.mask
  sz := second.sz.trans first.sz
  batch := second.batch.trans first.batch
  nodes := second.nodes.trans first.nodes
  grows i := (first.grows i).trans (second.grows i)
  lengths i := le_trans (second.lengths i) (first.lengths i)
  finishes := by rw [← first.finishes, ← first.mask, second.finishes]

theorem Progress.append {ht ht' : ChainedHT V} {n n' : Nat} {ws ws' : List (Work V)}
    (progress : Progress ht n ws ht' n' ws') (rest : List (Work V)) :
    Progress ht n (ws ++ rest) ht' n' (ws' ++ rest) where
  mask := progress.mask
  sz := progress.sz
  batch := progress.batch
  nodes := progress.nodes
  grows := progress.grows
  lengths := progress.lengths
  finishes := by rw [finish_append, finish_append, progress.finishes]

/-- The nodes suffice for inserting the items. -/
def Enough (ht : ChainedHT V) (n : Nat) (ws : List (Work V)) : Prop :=
  (finish ht.mask (ht.content n) ws).count ≤ ht.freeNodes + ht.sz + n

theorem Progress.enough {ht ht' : ChainedHT V} {n n' : Nat} {ws ws' : List (Work V)}
    (progress : Progress ht n ws ht' n' ws') (enough : Enough ht n ws) : Enough ht' n' ws' := by
  have nodes := progress.nodes
  rw [Enough, progress.mask, progress.finishes, progress.sz]
  rw [Enough] at enough
  omega

/-- Items of this round that have moved on do not stand in the way of one that has not. -/
theorem mayPass_of_walks {ht : ChainedHT V} {n r : Nat} {w s : Work V}
    (walks : Walks ht.mask ht.buckets r w) (ahead : Walks ht.mask ht.buckets (r + 1) s)
    (here : (ht.buckets w.bucket)[r]?.all (·.1 = w.k)) :
    (ht.content n).MayPass ht.mask w.item s.item := by
  by_cases same : index ht.mask s.k = index ht.mask w.k
  · -- `s` has passed node `r` of the same chain, so there is one, and its key is that of `w`
    have bucket : s.bucket = w.bucket := by rw [ahead.bucket, walks.bucket, same]
    have inside := ahead.reached
    rw [bucket] at inside
    have stored := List.getElem?_eq_getElem (Nat.lt_of_succ_le inside)
    rw [stored, Option.all_some, decide_eq_true_eq] at here
    have passed := ahead.passed
    rw [bucket, ← List.take_append_getElem (Nat.lt_of_succ_le inside), keys, List.map_append,
      List.mem_append, not_or] at passed
    refine Or.inr ⟨fun equal => passed.2 ?_, ?_⟩
    · change s.k = w.k at equal
      rw [List.map_singleton, List.mem_singleton, equal, here]
    · change w.k ∈ keys (ht.buckets (index ht.mask w.k))
      rw [← walks.bucket, ← here]
      exact List.mem_map_of_mem (List.getElem_mem _)
  · exact Or.inl same

/-- The item may be inserted before those that have moved on. -/
theorem finish_snoc {ht : ChainedHT V} {n r : Nat} {done : List (Work V)} {w : Work V}
    (walks : Walks ht.mask ht.buckets r w)
    (ahead : ∀ s ∈ done, Walks ht.mask ht.buckets (r + 1) s)
    (here : (ht.buckets w.bucket)[r]?.all (·.1 = w.k)) :
    finish ht.mask (ht.content n) (done ++ [w]) =
      finish ht.mask ((ht.content n).put ht.mask w.item) done := by
  rw [finish_append]
  change Content.put ht.mask (finish ht.mask (ht.content n) done) w.item = _
  apply Content.put_first
  intro e member
  obtain ⟨s, inside, rfl⟩ := List.mem_map.mp member
  exact mayPass_of_walks walks (ahead s inside) here

theorem length_chainPut (chain : Chain V) (e : UInt64 × V) :
    (chainPut chain e).length = chain.length + newNodes chain e := by
  unfold chainPut newNodes
  split
  · have same := congrArg List.length (keys_replace chain e.1 e.2)
    rwa [keys, keys, List.length_map, List.length_map] at same
  · rw [List.length_append, List.length_singleton]

theorem Progress.of_put {ht ht' : ChainedHT V} {n n' r : Nat} {done : List (Work V)} {w : Work V}
    (walks : Walks ht.mask ht.buckets r w)
    (ahead : ∀ s ∈ done, Walks ht.mask ht.buckets (r + 1) s)
    (here : (ht.buckets w.bucket)[r]?.all (·.1 = w.k)) (mask : ht'.mask = ht.mask)
    (sz : ht'.sz = ht.sz) (batch : ht'.batch = ht.batch)
    (nodes : ht'.freeNodes + n' = ht.freeNodes + n)
    (buckets : ht'.buckets =
      Function.update ht.buckets w.bucket (chainPut (ht.buckets w.bucket) w.item))
    (count : n' = n + newNodes (ht.buckets w.bucket) w.item) :
    Progress ht n (done ++ [w]) ht' n' done := by
  have content : ht'.content n' = (ht.content n).put ht.mask w.item := by
    rw [ChainedHT.content, buckets, sz, count, walks.bucket, ← Nat.add_assoc]
    rfl
  refine ⟨mask, sz, batch, nodes, ?_, ?_, ?_⟩
  · intro i
    have grown : keys (ht.buckets i) <+:
        keys (((ht.content n).put ht.mask w.item).buckets i) :=
      (ht.content n).grows_put w.item i
    rw [← content] at grown
    exact grown
  · intro i
    rw [buckets]
    by_cases same : i = w.bucket
    · subst same
      rw [Function.update_self, length_chainPut]
      omega
    · rw [Function.update_of_ne same]
      omega
  · rw [content, finish_snoc walks ahead here]

/-- **One look at a link** makes progress, and an item that is kept has passed one more node. -/
theorem visit_spec {ht : ChainedHT V} {n r : Nat} {done : List (Work V)} {w : Work V}
    (walks : Walks ht.mask ht.buckets r w)
    (ahead : ∀ s ∈ done, Walks ht.mask ht.buckets (r + 1) s)
    (enough : Enough ht n (done ++ [w])) :
    ∃ ht' n' kept, visit ht n w = some (ht', n', kept) ∧
      Progress ht n (done ++ [w]) ht' n' (done ++ kept) ∧
      ∀ s ∈ kept, Walks ht.mask ht'.buckets (r + 1) s ∧ s.bucket = w.bucket := by
  have nothing : ∀ s ∈ ([] : List (Work V)), ∀ b,
      Walks ht.mask b (r + 1) s ∧ s.bucket = w.bucket := by
    intro s member
    exact absurd member List.not_mem_nil
  unfold visit
  dsimp only
  rw [walks.depth]
  cases at_ : (ht.buckets w.bucket)[r]? with
  | none =>
    -- the end of the chain: the key is not in it
    have here : (ht.buckets w.bucket)[r]?.all (·.1 = w.k) := by rw [at_]; rfl
    have absent : w.k ∉ keys (ht.buckets w.bucket) := by
      have passed := walks.passed
      rwa [List.take_of_length_le (List.getElem?_eq_none_iff.mp at_)] at passed
    have new : newNodes (ht.buckets w.bucket) w.item = 1 := if_neg absent
    have node : 0 < ht.freeNodes := by
      have count : ((ht.content n).put ht.mask w.item).count = ht.sz + n + 1 := by
        rw [← new, walks.bucket]
        rfl
      have more : ((ht.content n).put ht.mask w.item).count ≤
          (finish ht.mask ((ht.content n).put ht.mask w.item) done).count :=
        Content.count_le_foldl _ _
      rw [Enough, finish_snoc walks ahead here] at enough
      omega
    rw [ChainedHT.append, guard, if_pos node]
    refine ⟨_, n + 1, [], rfl, ?_, fun s member => nothing s member _⟩
    rw [List.append_nil]
    refine Progress.of_put walks ahead here rfl rfl rfl ?_ ?_ ?_
    · dsimp only
      omega
    · have put : chainPut (ht.buckets w.bucket) w.item = ht.buckets w.bucket ++ [(w.k, w.v)] :=
        if_neg absent
      rw [put]
    · rw [new]
  | some p =>
    dsimp only
    split
    next found =>
      have here : (ht.buckets w.bucket)[r]?.all (·.1 = w.k) := by
        rw [at_, Option.all_some, decide_eq_true found]
      have present : w.k ∈ keys (ht.buckets w.bucket) := by
        rw [← found]
        exact List.mem_map_of_mem (List.mem_of_getElem? at_)
      refine ⟨_, n, [], rfl, ?_, fun s member => nothing s member _⟩
      rw [List.append_nil]
      refine Progress.of_put walks ahead here rfl rfl rfl rfl ?_ ?_
      · have put : chainPut (ht.buckets w.bucket) w.item =
            replace (ht.buckets w.bucket) w.k w.v := if_pos present
        have passed := walks.passed
        rw [← found] at passed
        rw [put, ← found, replace_eq_set _ at_ passed]
      · have old : newNodes (ht.buckets w.bucket) w.item = 0 := if_pos present
        rw [old, Nat.add_zero]
    next other =>
      refine ⟨ht, n, [{ w with depth := r + 1 }], rfl, ?_, ?_⟩
      · have same : finish ht.mask (ht.content n) (done ++ [{ w with depth := r + 1 }]) =
            finish ht.mask (ht.content n) (done ++ [w]) := by
          rw [finish_append, finish_append]
          rfl
        exact { Progress.refl ht n (done ++ [w]) with finishes := same }
      · intro s member
        rw [List.mem_singleton] at member
        subst member
        obtain ⟨inside, stored⟩ := List.getElem?_eq_some_iff.mp at_
        refine ⟨⟨walks.bucket, rfl, inside, ?_⟩, rfl⟩
        dsimp only
        rw [← List.take_append_getElem inside, keys, List.map_append, List.mem_append, not_or]
        refine ⟨walks.passed, ?_⟩
        rw [List.map_singleton, List.mem_singleton, stored]
        exact Ne.symm other

/-- **One round.** After it, every item still under way has passed one more node. -/
theorem round_spec {ht : ChainedHT V} {n r : Nat} {ws : List (Work V)} (done : List (Work V))
    (walks : ∀ w ∈ ws, Walks ht.mask ht.buckets r w)
    (ahead : ∀ s ∈ done, Walks ht.mask ht.buckets (r + 1) s)
    (enough : Enough ht n (done ++ ws)) :
    ∃ ht' n' kept, round ht n ws = some (ht', n', kept) ∧
      Progress ht n (done ++ ws) ht' n' (done ++ kept) ∧
      (∀ s ∈ done ++ kept, Walks ht.mask ht'.buckets (r + 1) s) ∧
      ∀ s ∈ kept, ∃ w ∈ ws, s.bucket = w.bucket := by
  induction ws generalizing ht n done with
  | nil =>
    refine ⟨ht, n, [], rfl, Progress.refl _ _ _, ?_, ?_⟩
    · rw [List.append_nil]
      exact ahead
    · intro s member
      exact absurd member List.not_mem_nil
  | cons w ws ih =>
    have split : done ++ w :: ws = done ++ [w] ++ ws := by rw [List.append_assoc]; rfl
    have enough' : Enough ht n (done ++ [w]) := by
      refine le_trans ?_ enough
      rw [split, finish_append _ (done ++ [w]) ws]
      exact Content.count_le_foldl _ _
    obtain ⟨ht₁, n₁, kept, visited, progress, moved⟩ :=
      visit_spec (walks w List.mem_cons_self) ahead enough'
    have step := progress.append ws
    rw [← split] at step
    have ahead₁ : ∀ s ∈ done ++ kept, Walks ht₁.mask ht₁.buckets (r + 1) s := by
      intro s member
      rw [progress.mask]
      rcases List.mem_append.mp member with before | member
      · exact (ahead s before).mono (progress.grows _)
      · exact (moved s member).1
    have walks₁ : ∀ w ∈ ws, Walks ht₁.mask ht₁.buckets r w := by
      intro w member
      rw [progress.mask]
      exact (walks w (List.mem_cons_of_mem _ member)).mono (progress.grows _)
    obtain ⟨ht', n', rest, passed, next, final, buckets⟩ := ih (done ++ kept) walks₁ ahead₁ (step.enough enough)
    refine ⟨ht', n', kept ++ rest, ?_, ?_, ?_, ?_⟩
    · rw [round, visited]
      change (round ht₁ n₁ ws >>= _) = _
      rw [passed]
      rfl
    · rw [← List.append_assoc]
      exact step.trans next
    · rw [← List.append_assoc]
      rw [progress.mask] at final
      exact final
    · intro s member
      rcases List.mem_append.mp member with member | member
      · exact ⟨w, List.mem_cons_self, (moved s member).2⟩
      · obtain ⟨w', inside, same⟩ := buckets s member
        exact ⟨w', List.mem_cons_of_mem _ inside, same⟩

/-! ### A whole batch -/

/-- **The rounds come to an end**, with all items inserted. -/
theorem walkCompact_spec {fuel : Nat} {ht : ChainedHT V} {n r : Nat} {ws : List (Work V)}
    (walks : ∀ w ∈ ws, Walks ht.mask ht.buckets r w) (enough : Enough ht n ws) (positive : 0 < fuel)
    (rounds : ∀ w ∈ ws, (ht.buckets w.bucket).length + ht.freeNodes + 1 < r + fuel) :
    ∃ ht' n', walkCompact fuel ht n ws = some (ht', n') ∧ Progress ht n ws ht' n' [] := by
  induction fuel generalizing ht n r ws with
  | zero => exact absurd positive (lt_irrefl 0)
  | succ fuel ih =>
    rw [walkCompact]
    cases ws with
    | nil => exact ⟨ht, n, rfl, Progress.refl _ _ _⟩
    | cons w ws =>
      have left : 0 < fuel := by
        have := rounds w List.mem_cons_self
        have := (walks w List.mem_cons_self).reached
        omega
      obtain ⟨ht₁, n₁, kept, passed, progress, moved, buckets⟩ :=
        round_spec [] walks (fun s member => absurd member List.not_mem_nil) enough
      rw [List.nil_append, List.nil_append] at progress
      rw [List.nil_append, ← progress.mask] at moved
      have fewer : ∀ s ∈ kept, (ht₁.buckets s.bucket).length + ht₁.freeNodes + 1 < r + 1 + fuel := by
        intro s member
        obtain ⟨w', inside, same⟩ := buckets s member
        have bound := rounds w' inside
        have lengths := progress.lengths s.bucket
        rw [← same] at bound
        omega
      obtain ⟨ht', n', walked, rest⟩ := ih moved (progress.enough enough) left fewer
      refine ⟨ht', n', ?_, progress.trans rest⟩
      rw [passed]
      exact walked

/-! ### The table behind its pending batch -/

/-- A table that holds the items on top of the content of `base`, some of them still pending. -/
structure Holds (base : ChainedHT V) (items : List (UInt64 × V)) (ht : ChainedHT V) : Prop where
  mask : ht.mask = base.mask
  nodes : ht.freeNodes + ht.sz = base.freeNodes + base.sz
  content : ht.batch.foldl (Content.put base.mask) (ht.content 0) =
    items.foldl (Content.put base.mask) (base.content 0)

/-- The items need no more nodes than there are. -/
def Room (base : ChainedHT V) (items : List (UInt64 × V)) : Prop :=
  (items.foldl (Content.put base.mask) (base.content 0)).count ≤ base.freeNodes + base.sz

theorem Room.of_append {base : ChainedHT V} {items rest : List (UInt64 × V)}
    (room : Room base (items ++ rest)) : Room base items := by
  rw [Room, List.foldl_append] at room
  exact le_trans (Content.count_le_foldl rest _) room

theorem Holds.unique {base ht ht' : ChainedHT V} {items : List (UInt64 × V)}
    (holds : Holds base items ht) (flushed : ht.batch = []) (holds' : Holds base items ht')
    (flushed' : ht'.batch = []) : ht = ht' := by
  obtain ⟨mask, nodes, content⟩ := holds
  obtain ⟨mask', nodes', content'⟩ := holds'
  rw [flushed] at content
  rw [flushed', ← content] at content'
  have buckets : ht'.buckets = ht.buckets := congrArg Content.buckets content'
  have sz : ht'.sz = ht.sz := congrArg Content.count content'
  cases ht
  cases ht'
  dsimp only at mask mask' nodes nodes' flushed flushed' buckets sz
  rw [ChainedHT.mk.injEq]
  refine ⟨mask.trans mask'.symm, buckets.symm, ?_, sz.symm, flushed.trans flushed'.symm⟩
  omega

theorem finish_map (c : Content V) (items : List (UInt64 × V)) :
    finish mask c (items.map fun e => ⟨index mask e.1, 0, e.1, e.2⟩) =
      items.foldl (Content.put mask) c := by
  have same : (Work.item ∘ fun e : UInt64 × V => (⟨index mask e.1, 0, e.1, e.2⟩ : Work V)) = id :=
    rfl
  rw [finish, List.map_map, same, List.map_id]

/-- **Processing a batch** inserts its items. -/
theorem processBatch_spec {base ht : ChainedHT V} {items : List (UInt64 × V)}
    (holds : Holds base items ht) (room : Room base items) :
    ∃ ht', processBatch ht = some ht' ∧ Holds base items ht' ∧ ht'.batch = [] := by
  set ws : List (Work V) := ht.batch.map fun e => ⟨index ht.mask e.1, 0, e.1, e.2⟩ with seeded
  have pending : finish ht.mask (ht.content 0) ws =
      items.foldl (Content.put base.mask) (base.content 0) := by
    rw [seeded, finish_map, holds.mask, holds.content]
  have enough : Enough ht 0 ws := by
    rw [Enough, pending, holds.nodes]
    exact room
  have walks : ∀ w ∈ ws, Walks ht.mask ht.buckets 0 w := by
    intro w member
    obtain ⟨e, -, rfl⟩ := List.mem_map.mp member
    exact ⟨rfl, rfl, Nat.zero_le _, List.not_mem_nil⟩
  obtain ⟨ht₁, n₁, kept, passed, progress, moved, buckets⟩ :=
    round_spec [] walks (fun s member => absurd member List.not_mem_nil) enough
  rw [List.nil_append, List.nil_append] at progress
  rw [List.nil_append, ← progress.mask] at moved
  have rounds : ∀ s ∈ kept,
      (ht₁.buckets s.bucket).length + ht₁.freeNodes + 1 < 0 + 1 + maxRounds ht ht.batch := by
    intro s member
    obtain ⟨w, inside, same⟩ := buckets s member
    obtain ⟨e, item, rfl⟩ := List.mem_map.mp inside
    have shorter := progress.lengths s.bucket
    have summand := List.le_sum_of_mem
      (List.mem_map_of_mem (f := fun e => (ht.buckets (index ht.mask e.1)).length) item)
    rw [same] at shorter ⊢
    rw [maxRounds]
    dsimp only at summand shorter ⊢
    omega
  have positive : 0 < maxRounds ht ht.batch := Nat.succ_pos _
  obtain ⟨ht₂, n₂, walked, rest⟩ :=
    walkCompact_spec moved (progress.enough enough) positive rounds
  have whole := progress.trans rest
  refine ⟨{ ht₂ with sz := ht₂.sz + n₂, batch := [] }, ?_, ⟨?_, ?_, ?_⟩, rfl⟩
  · rw [processBatch, seedBuild, ← seeded, passed]
    simp only [Option.bind_eq_bind, Option.bind_some, walked]
  · exact whole.mask.trans holds.mask
  · have nodes := whole.nodes
    have sz := whole.sz
    have before := holds.nodes
    dsimp only
    omega
  · have finished : ht₂.content n₂ = finish ht.mask (ht.content 0) ws := whole.finishes
    rw [← pending, ← finished]
    rfl

theorem insertBatch_spec {base ht : ChainedHT V} {items : List (UInt64 × V)} {e : UInt64 × V}
    (holds : Holds base items ht) (valid : e.1 ≠ emptyKey) (room : Room base (items ++ [e])) :
    ∃ ht', ht.insertBatch e.1 e.2 = some ht' ∧ Holds base (items ++ [e]) ht' := by
  have longer : Holds base (items ++ [e]) { ht with batch := ht.batch ++ [(e.1, e.2)] } := by
    refine ⟨holds.mask, holds.nodes, ?_⟩
    rw [List.foldl_append, List.foldl_append, ← holds.content]
    rfl
  rw [ChainedHT.insertBatch, guard, if_pos valid]
  simp only [Option.pure_def, Option.bind_eq_bind, Option.bind_some]
  split
  next =>
    obtain ⟨ht', processed, holds', -⟩ := processBatch_spec longer room
    exact ⟨ht', processed, holds'⟩
  next => exact ⟨_, rfl, longer⟩

theorem flushBatch_spec {base ht : ChainedHT V} {items : List (UInt64 × V)}
    (holds : Holds base items ht) (room : Room base items) :
    ∃ ht', ht.flushBatch = some ht' ∧ Holds base items ht' ∧ ht'.batch = [] := by
  rw [ChainedHT.flushBatch]
  split
  next empty => exact ⟨ht, rfl, holds, List.isEmpty_iff.mp empty⟩
  next => exact processBatch_spec holds room

theorem insert_spec {base ht : ChainedHT V} {items : List (UInt64 × V)} {e : UInt64 × V}
    (holds : Holds base items ht) (flushed : ht.batch = []) (valid : e.1 ≠ emptyKey)
    (room : Room base (items ++ [e])) :
    ∃ ht', (ht.insert e.1 e.2).map (·.2) = some ht' ∧ Holds base (items ++ [e]) ht' ∧
      ht'.batch = [] := by
  have content := holds.content
  rw [flushed, List.foldl_nil] at content
  have target : items.foldl (Content.put base.mask) (base.content 0) = ht.content 0 :=
    content.symm
  have nodes := holds.nodes
  rw [Room, List.foldl_append, target, ← nodes, List.foldl_cons, List.foldl_nil,
    ← holds.mask] at room
  rw [ChainedHT.insert, guard, if_pos valid]
  simp only [Option.pure_def, Option.bind_eq_bind, Option.bind_some, update_eq]
  by_cases known : e.1 ∈ keys (ht.buckets (index ht.mask e.1))
  · rw [if_pos known]
    refine ⟨_, rfl, ⟨holds.mask, nodes, ?_⟩, flushed⟩
    rw [List.foldl_append, target, List.foldl_cons, List.foldl_nil, flushed, ← holds.mask,
      (ht.content 0).put_known known]
    rfl
  · have free : 0 < ht.freeNodes := by
      rw [(ht.content 0).put_new known] at room
      dsimp only [ChainedHT.content] at room
      omega
    rw [if_neg known, ChainedHT.append, guard, if_pos free]
    refine ⟨_, rfl, ⟨holds.mask, ?_, ?_⟩, flushed⟩
    · dsimp only
      omega
    · rw [List.foldl_append, target, List.foldl_cons, List.foldl_nil, ← holds.mask,
        (ht.content 0).put_new known]
      dsimp only
      rw [flushed]
      rfl

/-- A loop over the items whose body adds one item to what the table holds. -/
theorem foldlM_holds {base : ChainedHT V} {body : ChainedHT V → UInt64 × V → Option (ChainedHT V)}
    (Ready : ChainedHT V → Prop)
    (adds : ∀ items e ht, Holds base items ht → Ready ht → e.1 ≠ emptyKey →
      Room base (items ++ [e]) → ∃ ht', body ht e = some ht' ∧ Holds base (items ++ [e]) ht' ∧
        Ready ht')
    {items rest : List (UInt64 × V)} {ht : ChainedHT V} (holds : Holds base items ht)
    (ready : Ready ht) (valid : ∀ e ∈ rest, e.1 ≠ emptyKey) (room : Room base (items ++ rest)) :
    ∃ ht', rest.foldlM body ht = some ht' ∧ Holds base (items ++ rest) ht' ∧ Ready ht' := by
  induction rest generalizing items ht with
  | nil =>
    rw [List.append_nil]
    exact ⟨ht, rfl, holds, ready⟩
  | cons e rest ih =>
    rw [List.append_cons] at room ⊢
    obtain ⟨ht₁, added, holds₁, ready₁⟩ :=
      adds items e ht holds ready (valid e List.mem_cons_self) room.of_append
    obtain ⟨ht', looped, done⟩ :=
      ih holds₁ ready₁ (fun e' member => valid e' (List.mem_cons_of_mem _ member)) room
    refine ⟨ht', ?_, done⟩
    rw [List.foldlM_cons, added]
    exact looped

/-! ### Distinct keys -/

/-- The distinct keys of the items that the chains do not have. -/
def newKeys (mask : UInt64) (buckets : UInt64 → Chain V) (items : List (UInt64 × V)) :
    Finset UInt64 :=
  (items.map Prod.fst).toFinset.filter fun k => k ∉ keys (buckets (index mask k))

theorem Content.mem_put (c : Content V) (e : UInt64 × V) (k : UInt64) :
    k ∈ keys ((c.put mask e).buckets (index mask k)) ↔
      k ∈ keys (c.buckets (index mask k)) ∨ k = e.1 := by
  by_cases same : index mask k = index mask e.1
  · simp only [Content.put, same, Function.update_self, chainPut]
    split
    next known =>
      rw [keys_replace]
      constructor
      · exact Or.inl
      · rintro (present | rfl)
        · exact present
        · exact known
    next => rw [keys, List.map_append, List.mem_append, List.map_singleton, List.mem_singleton, keys]
  · simp only [Content.put, Function.update_of_ne same]
    constructor
    · exact Or.inl
    · rintro (present | rfl)
      · exact present
      · exact absurd rfl same

/-- Insertion takes one node for each distinct new key. -/
theorem Content.count_foldl (items : List (UInt64 × V)) (c : Content V) :
    (items.foldl (Content.put mask) c).count =
      c.count + (newKeys mask c.buckets items).card := by
  induction items generalizing c with
  | nil => rfl
  | cons e items ih =>
    have member : ∀ k, k ∈ newKeys mask c.buckets (e :: items) ↔
        k ∈ newKeys mask (c.put mask e).buckets items ∨
          k = e.1 ∧ k ∉ keys (c.buckets (index mask k)) := by
      intro k
      simp only [newKeys, Finset.mem_filter, List.mem_toFinset, List.map_cons, List.mem_cons,
        c.mem_put]
      tauto
    have count : (c.put mask e).count = c.count + newNodes (c.buckets (index mask e.1)) e := rfl
    rw [List.foldl_cons, ih, count, Nat.add_assoc, newNodes]
    congr 1
    split
    next known =>
      rw [Nat.zero_add]
      congr 1
      ext k
      rw [member]
      constructor
      · exact Or.inl
      · rintro (inside | ⟨rfl, absent⟩)
        · exact inside
        · exact absurd known absent
    next unknown =>
      have fresh : e.1 ∉ newKeys mask (c.put mask e).buckets items := by
        simp only [newKeys, Finset.mem_filter, c.mem_put]
        tauto
      rw [Nat.add_comm, ← Finset.card_insert_of_notMem fresh]
      congr 1
      ext k
      rw [member, Finset.mem_insert]
      constructor
      · rintro (rfl | inside)
        · exact Or.inr ⟨rfl, unknown⟩
        · exact Or.inl inside
      · rintro (inside | ⟨same, -⟩)
        · exact Or.inr inside
        · exact Or.inl same

/-- **Batched insertion is sequential insertion**: with nodes for the distinct new keys and no
sentinel among them, both come to an end, in the same table. -/
theorem insertBatched_eq_insertAll (ht : ChainedHT V) (items : List (UInt64 × V))
    (flushed : ht.batch = []) (valid : ∀ e ∈ items, e.1 ≠ emptyKey)
    (fits : (newKeys ht.mask ht.buckets items).card ≤ ht.freeNodes) :
    ∃ ht', insertBatched ht items = some ht' ∧ insertAll ht items = some ht' := by
  have start : Holds ht [] ht := by
    refine ⟨rfl, rfl, ?_⟩
    rw [flushed]
  have room : Room ht ([] ++ items) := by
    rw [Room, List.nil_append, Content.count_foldl]
    dsimp only [ChainedHT.content]
    omega
  obtain ⟨sequential, inserted, holds, ready⟩ :=
    foldlM_holds (fun ht => ht.batch = [])
      (fun _ _ _ holds ready valid room => insert_spec holds ready valid room)
      start flushed valid room
  obtain ⟨buffered, batched, holds₁, -⟩ :=
    foldlM_holds (fun _ => True)
      (fun _ _ _ holds _ valid room =>
        (insertBatch_spec holds valid room).imp fun _ done => ⟨done.1, done.2, trivial⟩)
      start trivial valid room
  obtain ⟨final, flush, holds₂, ready₂⟩ := flushBatch_spec holds₁ room
  have same : final = sequential := holds₂.unique ready₂ holds ready
  refine ⟨sequential, ?_, inserted⟩
  rw [insertBatched, batched, ← same]
  exact flush

/-- A table of one bucket with one node, and three items for its chain: an update, a new key, and
a second item for that key. -/
theorem insertBatched_eq_insertAll_chain :
    let ht : ChainedHT Nat := ⟨0, fun _ => [(7, 70)], 1, 1, []⟩
    let items : List (UInt64 × Nat) := [(7, 71), (8, 80), (8, 81)]
    (newKeys ht.mask ht.buckets items).card = 1 ∧
      ∃ ht', insertBatched ht items = some ht' ∧ insertAll ht items = some ht' :=
  ⟨by decide +kernel, insertBatched_eq_insertAll _ _ rfl (by decide) (by decide +kernel)⟩

end UringDb.Hashtable
