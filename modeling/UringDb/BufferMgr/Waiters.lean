import UringDb.Lib.Chain
import UringDb.Lib.Run

/-!
# Waiters for an in-flight read

The waiter stack of one `BufferFrame` over any number of load cycles. A cycle constructs the
frame anew, opens the stack, and at completion closes it and walks the detached list; a fault
that loses the insert constructs the frame only. The walk of one cycle may still be going on
while later cycles run. Fibers call `enqueue_waiter` at any time, with a node at some address of
their own stack, and a fiber whose node was accepted parks until a walk wakes it.

Every accepted call gets a ticket, so that a node that is used again counts as a new waiter.
-/
namespace UringDb.Waiters

/-- The address of an `Op` on the stack of the fiber `owner`. -/
structure Node (n : Nat) where
  owner : Fin n
  addr : Nat
  deriving DecidableEq

/-- The word `waiting`: the sentinel `closed_waiters()` or a pointer. -/
inductive Head (n : Nat) where
  | closed
  | ptr (p : Option (Node n))
  deriving DecidableEq

/-- Where a fiber is in `enqueue_waiter`. -/
inductive Pc (n : Nat) where
  | idle
  | load (addr : Nat)
  /-- At the head of the loop, with the loaded `head`. -/
  | test (addr : Nat) (head : Head n)
  /-- `op.next` is set to `head`. -/
  | cas (addr : Nat) (head : Option (Node n))
  /-- The node was accepted. -/
  | parked (addr : Nat)
  deriving DecidableEq

/-- Where a completing loader is in its loop over the detached list. -/
inductive WalkPc (n : Nat) where
  | list (waiters : Option (Node n))
  /-- `next` is read, and the fiber of the node is to be woken. -/
  | wake (node : Node n) (next : Option (Node n))

/-- A detached list on its way, with the tickets of the list that `close_waiters` returned and
those that have been woken. -/
structure Walk (n : Nat) where
  pc : WalkPc n
  returned : List Nat
  woken : List Nat

inductive Phase where
  | free
  | constructed
  | opened
  deriving DecidableEq

structure State (n : Nat) where
  waiting : Head n
  /-- The `next` fields of all nodes. -/
  next : Node n → Option (Node n)
  pcs : Fin n → Pc n
  phase : Phase
  walks : List (Walk n)
  /-- The number of accepted calls. -/
  tickets : Nat
  /-- The ticket of a node's last accepted call. -/
  ticket : Node n → Nat

inductive Act (n : Nat) where
  | construct
  | beginWaiters
  | closeWaiters
  | enqueue (f : Fin n) (addr : Nat)
  /-- The next step of `enqueue_waiter`; a weak compare-and-swap may fail spuriously. -/
  | step (f : Fin n) (spurious : Bool)
  /-- The next step of a walk. -/
  | walk (i : Nat)

inductive Out where
  | silent
  | returned (accepted : Bool)
  deriving DecidableEq

section

variable {n : Nat}

def Head.pointer : Head n → Option (Node n)
  | .closed => none
  | .ptr p => p

/-- The nodes on the stack. No fiber has two of them, so `n` bounds their number. -/
def State.stack (s : State n) : List (Node n) := follow s.next n s.waiting.pointer

/-- The nodes that a walk has still to wake. -/
def WalkPc.nodes (next : Node n → Option (Node n)) : WalkPc n → List (Node n)
  | .list p => follow next n p
  | .wake a q => a :: follow next n q

def State.goto (s : State n) (f : Fin n) (pc : Pc n) : State n :=
  { s with pcs := Function.update s.pcs f pc }

/-- The node of the fiber `f` at `addr` becomes the top of the stack, and the fiber parks. -/
def State.accept (s : State n) (f : Fin n) (addr : Nat) : State n :=
  { s with
    waiting := .ptr (some ⟨f, addr⟩)
    pcs := Function.update s.pcs f (.parked addr)
    tickets := s.tickets + 1
    ticket := Function.update s.ticket ⟨f, addr⟩ s.tickets }

/-- `wake_fiber` on a parked fiber lets it go on. -/
def wakeFiber (pcs : Fin n → Pc n) (f : Fin n) : Fin n → Pc n :=
  match pcs f with
  | .parked _ => Function.update pcs f .idle
  | _ => pcs

def step (s : State n) (f : Fin n) (spurious : Bool) : Option (State n × Out) :=
  match s.pcs f with
  | .idle => none
  | .load addr => some (s.goto f (.test addr s.waiting), .silent)
  | .test addr head =>
    match head with
    | .closed => some (s.goto f .idle, .returned false)
    | .ptr p =>
      some ({ s.goto f (.cas addr p) with next := Function.update s.next ⟨f, addr⟩ p }, .silent)
  | .cas addr head =>
    if s.waiting = .ptr head ∧ ¬ spurious then
      some (s.accept f addr, .returned true)
    else some (s.goto f (.test addr s.waiting), .silent)
  | .parked _ => none

/-- A step of the loop that wakes the waiters. -/
def walk (s : State n) (i : Nat) : Option (State n) :=
  match s.walks[i]? with
  | none => none
  | some w =>
    match w.pc with
    | .list none => none
    | .list (some a) => some { s with walks := s.walks.set i { w with pc := .wake a (s.next a) } }
    | .wake a q =>
      some { s with
        pcs := wakeFiber s.pcs a.owner
        walks := s.walks.set i { w with pc := .list q, woken := w.woken ++ [s.ticket a] } }

/-- `close_waiters`, whose list the loader walks. -/
def closeWaiters (s : State n) : State n :=
  let list := s.waiting.pointer
  { s with
    waiting := .closed
    phase := .free
    walks := s.walks ++ [⟨.list list, (follow s.next n list).map s.ticket, []⟩] }

def exec (s : State n) : Act n → Option (State n × Out)
  | .construct =>
    if s.phase = .opened then none
    else some ({ s with waiting := .closed, phase := .constructed }, .silent)
  | .beginWaiters =>
    if s.phase = .constructed then
      some ({ s with waiting := .ptr none, phase := .opened }, .silent)
    else none
  | .closeWaiters => if s.phase = .opened then some (closeWaiters s, .silent) else none
  | .enqueue f addr =>
    if s.pcs f = .idle then some (s.goto f (.load addr), .silent) else none
  | .step f spurious => step s f spurious
  | .walk i => (walk s i).map fun t => (t, .silent)

structure Initial (s : State n) : Prop where
  closed : s.waiting = .closed
  phase : s.phase = .free
  idle : ∀ f, s.pcs f = .idle
  walks : s.walks = []
  tickets : s.tickets = 0

end

def system (n : Nat) : System (State n) (Act n × Out) := System.ofStep Initial exec

section

variable {n : Nat} {s t : State n}

/-! ### The invariant -/

/-- The tickets of all lists that `close_waiters` has returned. -/
def State.returned (s : State n) : List Nat := (s.walks.map Walk.returned).flatten

/-- A node that is on the stack or still to be woken. -/
def Live (s : State n) (a : Node n) : Prop :=
  a ∈ s.stack ∨ ∃ (i : Nat) (w : Walk n), s.walks[i]? = some w ∧ a ∈ w.pc.nodes s.next

/-- The list of a walk ends. -/
def WalkPc.Bounded (next : Node n → Option (Node n)) : WalkPc n → Prop
  | .list p => UringDb.Bounded next n p
  | .wake _ q => UringDb.Bounded next n q

structure Inv (s : State n) : Prop where
  opened : s.waiting ≠ .closed ↔ s.phase = .opened
  ends : Bounded s.next n s.waiting.pointer
  walks : ∀ (i : Nat) (w : Walk n), s.walks[i]? = some w → w.pc.Bounded s.next ∧
    w.woken ++ (w.pc.nodes s.next).map s.ticket = w.returned
  parked : ∀ a, Live s a ↔ s.pcs a.owner = .parked a.addr
  cas : ∀ f addr head, s.pcs f = .cas addr head → s.next ⟨f, addr⟩ = head
  once : ∀ k, s.returned.count k + (s.stack.map s.ticket).count k =
    if k < s.tickets then 1 else 0

/-! ### What the tickets say -/

theorem Inv.nodup_returned (inv : Inv s) : s.returned.Nodup := by
  rw [List.nodup_iff_count_le_one]
  intro k
  have once := inv.once k
  split at once <;> omega

theorem Inv.nodup_stack (inv : Inv s) : s.stack.Nodup := by
  have tickets : (s.stack.map s.ticket).Nodup := by
    rw [List.nodup_iff_count_le_one]
    intro k
    have once := inv.once k
    split at once <;> omega
  exact tickets.of_map

theorem Inv.disjoint (inv : Inv s) {a : Node n} (here : a ∈ s.stack) :
    s.ticket a ∉ s.returned := by
  intro there
  have once := inv.once (s.ticket a)
  have first := List.count_pos_iff.mpr there
  have second := List.count_pos_iff.mpr (List.mem_map_of_mem (f := s.ticket) here)
  split at once <;> omega

theorem Inv.room (inv : Inv s) {f : Fin n} (free : ∀ addr, s.pcs f ≠ .parked addr) :
    s.stack.length < n := by
  have parked : ∀ a ∈ s.stack, s.pcs a.owner = .parked a.addr :=
    fun a here => (inv.parked a).mp (Or.inl here)
  have owners : (s.stack.map Node.owner).Nodup := by
    refine List.Nodup.map_on ?_ inv.nodup_stack
    rintro ⟨f, addr⟩ here ⟨g, addr'⟩ there same
    obtain rfl : f = g := same
    have first : s.pcs f = .parked addr := parked _ here
    have second : s.pcs f = .parked addr' := parked _ there
    cases first.symm.trans second
    rfl
  have out : f ∉ s.stack.map Node.owner := by
    intro inside
    obtain ⟨a, here, rfl⟩ := List.mem_map.mp inside
    exact free _ (parked a here)
  have bound := (List.nodup_cons.mpr ⟨out, owners⟩).length_le_card
  simp only [List.length_cons, List.length_map, Fintype.card_fin] at bound
  omega

theorem Inv.walks_apart (inv : Inv s) {i j : Nat} {v w : Walk n} (first : s.walks[i]? = some v)
    (second : s.walks[j]? = some w) (ne : i ≠ j) : v.returned.Disjoint w.returned := by
  have apart := (List.nodup_flatten.mp inv.nodup_returned).2
  rw [List.pairwise_iff_getElem] at apart
  obtain ⟨low, rfl⟩ := List.getElem?_eq_some_iff.mp first
  obtain ⟨low', rfl⟩ := List.getElem?_eq_some_iff.mp second
  rcases Nat.lt_or_gt_of_ne ne with less | less
  · have := apart i j (by simpa using low) (by simpa using low') less
    rwa [List.getElem_map, List.getElem_map] at this
  · have := apart j i (by simpa using low') (by simpa using low) less
    rw [List.getElem_map, List.getElem_map] at this
    exact this.symm

/-! ### Steps keep the invariant -/

theorem nodes_write {w : WalkPc n} {a : Node n} (bounded : w.Bounded s.next)
    (out : a ∉ w.nodes s.next) (q : Option (Node n)) :
    w.nodes (Function.update s.next a q) = w.nodes s.next ∧
      w.Bounded (Function.update s.next a q) := by
  cases w with
  | list p => exact UringDb.Bounded.write bounded out q
  | wake b p =>
    obtain ⟨same, bounded'⟩ :=
      UringDb.Bounded.write bounded (fun inside => out (List.mem_cons_of_mem b inside)) q
    exact ⟨congrArg (b :: ·) same, bounded'⟩

theorem Inv.write (inv : Inv s) {f : Fin n} (free : ∀ addr, s.pcs f ≠ .parked addr)
    (ready : ∀ addr head, s.pcs f ≠ .cas addr head) (addr : Nat) (p : Option (Node n)) :
    Inv { s with next := Function.update s.next ⟨f, addr⟩ p } := by
  have out : ¬ Live s ⟨f, addr⟩ := fun live => free addr ((inv.parked _).mp live)
  have same := Bounded.write inv.ends (fun here => out (Or.inl here)) p
  have walks : ∀ (i : Nat) (w : Walk n), s.walks[i]? = some w →
      w.pc.nodes (Function.update s.next ⟨f, addr⟩ p) = w.pc.nodes s.next ∧
        w.pc.Bounded (Function.update s.next ⟨f, addr⟩ p) := fun i w here =>
    nodes_write (inv.walks i w here).1 (fun inside => out (Or.inr ⟨i, w, here, inside⟩)) p
  refine ⟨inv.opened, same.2, fun i w here => ⟨(walks i w here).2, ?_⟩, fun a => ?_, ?_, ?_⟩
  · rw [(walks i w here).1]
    exact (inv.walks i w here).2
  · rw [← inv.parked]
    refine or_congr (by rw [State.stack, same.1]; rfl) (exists_congr fun i =>
      exists_congr fun w => and_congr_right fun here => ?_)
    rw [(walks i w here).1]
  · intro g addr' head here
    have ne : (⟨g, addr'⟩ : Node n) ≠ ⟨f, addr⟩ := by
      intro equal
      obtain rfl : g = f := congrArg Node.owner equal
      exact ready addr' head here
    simp only [Function.update_of_ne ne]
    exact inv.cas g addr' head here
  · rw [State.stack, same.1]
    exact inv.once

theorem Inv.goto (inv : Inv s) {f : Fin n} {pc : Pc n} (free : ∀ addr, s.pcs f ≠ .parked addr)
    (free' : ∀ addr, pc ≠ .parked addr)
    (ready : ∀ addr head, pc = .cas addr head → s.next ⟨f, addr⟩ = head) :
    Inv (s.goto f pc) := by
  refine ⟨inv.opened, inv.ends, inv.walks, fun a => ?_, fun g addr head here => ?_, inv.once⟩
  · rw [show Live (s.goto f pc) a ↔ Live s a from Iff.rfl, inv.parked]
    by_cases self : a.owner = f
    · simp [State.goto, self, free, free']
    · simp [State.goto, self]
  · by_cases self : g = f
    · subst self
      simp only [State.goto, Function.update_self] at here
      exact ready addr head here
    · simp only [State.goto, Function.update_of_ne self] at here
      exact inv.cas g addr head here

/-- The node of a successful compare-and-swap is the new top of the stack. -/
theorem Inv.push (inv : Inv s) {f : Fin n} {addr : Nat} {head : Option (Node n)}
    (at_ : s.pcs f = .cas addr head) (same : s.waiting = .ptr head) :
    Inv (s.accept f addr) := by
  have free : ∀ addr, s.pcs f ≠ .parked addr := by
    rw [at_]
    exact (fun _ member => by cases member)
  have out : ¬ Live s ⟨f, addr⟩ := fun live => free addr ((inv.parked _).mp live)
  have next : s.next ⟨f, addr⟩ = s.waiting.pointer := by
    rw [inv.cas f addr head at_, same]
    rfl
  have ends := inv.ends
  have room := inv.room free
  rw [State.stack, ← next] at room
  rw [← next] at ends
  obtain ⟨longer, ends'⟩ := Bounded.cons ends room
  have stack' : (s.accept f addr).stack = ⟨f, addr⟩ :: s.stack := by
    rw [next] at longer
    exact longer
  -- the tickets of the other nodes are as they were
  have tickets : ∀ l : List (Node n), ⟨f, addr⟩ ∉ l →
      l.map (Function.update s.ticket ⟨f, addr⟩ s.tickets) = l.map s.ticket := fun l absent =>
    List.map_congr_left fun a inside =>
      Function.update_of_ne (fun equal : a = ⟨f, addr⟩ => absent (equal ▸ inside)) _ _
  refine ⟨?_, ends', fun i w here => ⟨(inv.walks i w here).1, ?_⟩, fun a => ?_, ?_, fun k => ?_⟩
  · have opened := inv.opened
    simp only [same] at opened
    simpa [State.accept] using opened
  · have others := tickets _ fun inside => out (Or.inr ⟨i, w, here, inside⟩)
    simp only [State.accept]
    rw [others]
    exact (inv.walks i w here).2
  · have split : Live (s.accept f addr) a ↔ a = ⟨f, addr⟩ ∨ Live s a := by
      rw [Live, stack', List.mem_cons, or_assoc]
      rfl
    rw [split, inv.parked]
    obtain ⟨g, addr'⟩ := a
    by_cases self : g = f
    · subst self
      simp [State.accept, free, eq_comm]
    · simp [State.accept, self]
  · intro g addr' head' here
    have other : g ≠ f := by
      rintro rfl
      simp [State.accept] at here
    simp only [State.accept, Function.update_of_ne other] at here
    exact inv.cas g addr' head' here
  · have once := inv.once k
    have absent : ⟨f, addr⟩ ∉ s.stack := fun inside => out (Or.inl inside)
    have counted : ((s.accept f addr).stack.map (s.accept f addr).ticket).count k =
        (s.stack.map s.ticket).count k + if s.tickets = k then 1 else 0 := by
      rw [stack', List.map_cons, List.count_cons]
      simp only [State.accept, Function.update_self, beq_iff_eq]
      rw [tickets _ absent]
    rw [counted]
    change s.returned.count k + _ = if k < s.tickets + 1 then 1 else 0
    by_cases self : s.tickets = k
    · subst self
      rw [if_neg (lt_irrefl _)] at once
      rw [if_pos rfl, if_pos (Nat.lt_succ_self _)]
      omega
    · rw [if_neg self]
      split at once
      next old => rw [if_pos (by omega), Nat.add_zero, once]
      next new => rw [if_neg (by omega), Nat.add_zero, once]

theorem Inv.close (inv : Inv s) : Inv (closeWaiters s) := by
  have new : ∀ (i : Nat) (w : Walk n), (closeWaiters s).walks[i]? = some w → s.walks[i]? = some w ∨
      (i = s.walks.length ∧
        w = ⟨.list s.waiting.pointer, s.stack.map s.ticket, []⟩) := by
    intro i w here
    simp only [closeWaiters, List.getElem?_append, State.stack] at here ⊢
    split at here
    next => exact Or.inl here
    next beyond =>
      rw [List.getElem?_singleton] at here
      split at here <;> cases here
      exact Or.inr ⟨by omega, rfl⟩
  have empty : (closeWaiters s).stack = [] := follow_null s.next n
  refine ⟨by simp [closeWaiters], bounded_null s.next n, fun i w here => ?_, fun a => ?_,
    inv.cas, fun k => ?_⟩
  · rcases new i w here with old | ⟨_, rfl⟩
    · exact inv.walks i w old
    · exact ⟨inv.ends, rfl⟩
  · refine Iff.trans ?_ (inv.parked a)
    simp only [Live, empty, List.not_mem_nil, false_or]
    constructor
    · rintro ⟨i, w, here, inside⟩
      rcases new i w here with old | ⟨_, rfl⟩
      · exact Or.inr ⟨i, w, old, inside⟩
      · exact Or.inl inside
    · rintro (inside | ⟨i, w, old, inside⟩)
      · exact ⟨s.walks.length, ⟨.list s.waiting.pointer, s.stack.map s.ticket, []⟩,
          by simp [closeWaiters, State.stack], inside⟩
      · refine ⟨i, w, ?_, inside⟩
        have low := (List.getElem?_eq_some_iff.mp old).1
        simp only [closeWaiters]
        rw [List.getElem?_append_left low]
        exact old
  · have returned : (closeWaiters s).returned = s.returned ++ s.stack.map s.ticket := by
      simp [closeWaiters, State.returned, State.stack]
    rw [empty, returned, List.count_append]
    exact inv.once k

/-! ### Walking -/

theorem returned_set {i : Nat} {v w : Walk n} (here : s.walks[i]? = some w)
    (same : v.returned = w.returned) :
    ((s.walks.set i v).map Walk.returned).flatten = s.returned := by
  have list : (s.walks.set i v).map Walk.returned = s.walks.map Walk.returned := by
    rw [List.map_set, same]
    refine List.ext_getElem? fun j => ?_
    rw [List.getElem?_set]
    split
    next equal =>
      subst equal
      rw [List.length_map, if_pos (List.getElem?_eq_some_iff.mp here).1, List.getElem?_map, here]
      rfl
    next => rfl
  rw [list, State.returned]

theorem walks_set {i j : Nat} {w w' v : Walk n} (here : s.walks[i]? = some w) :
    (s.walks.set i w')[j]? = some v ↔ (j = i ∧ v = w') ∨ (j ≠ i ∧ s.walks[j]? = some v) := by
  rw [List.getElem?_set]
  split
  next equal =>
    subst equal
    rw [if_pos (List.getElem?_eq_some_iff.mp here).1]
    simp [eq_comm]
  next ne => simp [Ne.symm ne]

theorem Inv.read (inv : Inv s) {i : Nat} {w : Walk n} {a : Node n} (here : s.walks[i]? = some w)
    (at_ : w.pc = .list (some a)) :
    Inv { s with walks := s.walks.set i { w with pc := .wake a (s.next a) } } := by
  obtain ⟨ends, woken⟩ := inv.walks i w here
  rw [at_] at ends woken
  obtain ⟨nodes, ends'⟩ := Bounded.step ends
  have same : WalkPc.nodes s.next (.wake a (s.next a)) = w.pc.nodes s.next := by
    rw [at_]
    exact nodes.symm
  refine ⟨inv.opened, inv.ends, fun j v there => ?_, fun b => ?_, inv.cas, fun k => ?_⟩
  · rcases (walks_set here).mp there with ⟨_, rfl⟩ | ⟨_, old⟩
    · refine ⟨ends', ?_⟩
      simp only [same, at_]
      exact woken
    · exact inv.walks j v old
  · rw [← inv.parked]
    refine or_congr Iff.rfl ⟨?_, ?_⟩
    · rintro ⟨j, v, there, inside⟩
      rcases (walks_set here).mp there with ⟨_, rfl⟩ | ⟨_, old⟩
      · exact ⟨i, w, here, same ▸ inside⟩
      · exact ⟨j, v, old, inside⟩
    · rintro ⟨j, v, there, inside⟩
      by_cases self : j = i
      · subst self
        obtain rfl : v = w := Option.some.inj (there.symm.trans here)
        exact ⟨j, _, (walks_set here).mpr (Or.inl ⟨rfl, rfl⟩), same ▸ inside⟩
      · exact ⟨j, v, (walks_set here).mpr (Or.inr ⟨self, there⟩), inside⟩
  · have once := inv.once k
    rw [← returned_set (v := { w with pc := .wake a (s.next a) }) here rfl] at once
    exact once

/-- A node that is to be woken is in no other place, and its fiber waits. -/
theorem Inv.wake_alone (inv : Inv s) {i : Nat} {w : Walk n} {a : Node n} {q : Option (Node n)}
    (here : s.walks[i]? = some w) (at_ : w.pc = .wake a q) :
    s.pcs a.owner = .parked a.addr ∧ a ∉ s.stack ∧ a ∉ follow s.next n q ∧
      ∀ j v, j ≠ i → s.walks[j]? = some v → a ∉ v.pc.nodes s.next := by
  obtain ⟨_, woken⟩ := inv.walks i w here
  rw [at_] at woken
  have inside : a ∈ w.pc.nodes s.next := by
    rw [at_]
    exact List.mem_cons_self
  have member : s.ticket a ∈ w.returned := by
    rw [← woken]
    simp [WalkPc.nodes]
  have all : s.ticket a ∈ s.returned :=
    List.mem_flatten_of_mem (List.mem_map_of_mem (List.mem_of_getElem? here)) member
  refine ⟨(inv.parked a).mp (Or.inr ⟨i, w, here, inside⟩), fun stacked => ?_, fun later => ?_,
    fun j v ne there other => ?_⟩
  · exact inv.disjoint stacked all
  · have nodup := (List.nodup_flatten.mp inv.nodup_returned).1 _
      (List.mem_map_of_mem (List.mem_of_getElem? here))
    rw [← woken] at nodup
    have rest := (List.nodup_append'.mp nodup).2.1
    exact (List.nodup_cons.mp rest).1 (List.mem_map_of_mem later)
  · have other : s.ticket a ∈ v.returned := by
      rw [← (inv.walks j v there).2]
      exact List.mem_append_right _ (List.mem_map_of_mem other)
    exact inv.walks_apart there here ne other member

theorem Inv.wake (inv : Inv s) {i : Nat} {w : Walk n} {a : Node n} {q : Option (Node n)}
    (here : s.walks[i]? = some w) (at_ : w.pc = .wake a q) :
    Inv { s with
      pcs := wakeFiber s.pcs a.owner
      walks := s.walks.set i { w with pc := .list q, woken := w.woken ++ [s.ticket a] } } := by
  obtain ⟨parked, unstacked, last, others⟩ := inv.wake_alone here at_
  obtain ⟨ends, woken⟩ := inv.walks i w here
  rw [at_] at ends woken
  have pcs : wakeFiber s.pcs a.owner = Function.update s.pcs a.owner .idle := by
    rw [wakeFiber, parked]
  rw [pcs]
  refine ⟨inv.opened, inv.ends, fun j v there => ?_, fun b => ?_, fun g addr head cas => ?_,
    fun k => ?_⟩
  · rcases (walks_set here).mp there with ⟨_, rfl⟩ | ⟨_, old⟩
    · refine ⟨ends, ?_⟩
      rw [← woken]
      simp [WalkPc.nodes]
    · exact inv.walks j v old
  · -- what is live afterwards is what was live before, without the woken node
    have split : Live { s with
        pcs := Function.update s.pcs a.owner .idle
        walks := s.walks.set i { w with pc := .list q, woken := w.woken ++ [s.ticket a] } } b ↔
          Live s b ∧ b ≠ a := by
      constructor
      · rintro (stacked | ⟨j, v, there, inside⟩)
        · exact ⟨Or.inl stacked, fun equal => unstacked (equal ▸ stacked)⟩
        · rcases (walks_set here).mp there with ⟨_, rfl⟩ | ⟨ne, old⟩
          · refine ⟨Or.inr ⟨i, w, here, ?_⟩, fun equal => last (equal ▸ inside)⟩
            rw [at_]
            exact List.mem_cons_of_mem a inside
          · exact ⟨Or.inr ⟨j, v, old, inside⟩, fun equal => others j v ne old (equal ▸ inside)⟩
      · rintro ⟨stacked | ⟨j, v, there, inside⟩, ne⟩
        · exact Or.inl stacked
        · refine Or.inr ?_
          by_cases self : j = i
          · subst self
            obtain rfl : v = w := Option.some.inj (there.symm.trans here)
            rw [at_] at inside
            exact ⟨j, _, (walks_set here).mpr (Or.inl ⟨rfl, rfl⟩),
              (List.mem_cons.mp inside).resolve_left ne⟩
          · exact ⟨j, v, (walks_set here).mpr (Or.inr ⟨self, there⟩), inside⟩
    rw [split, inv.parked]
    by_cases self : b.owner = a.owner
    · simp only [self, Function.update_self, parked]
      refine ⟨fun ⟨same, ne⟩ => absurd ?_ ne, (fun same => by cases same)⟩
      cases a
      cases b
      cases same
      cases self
      rfl
    · simp only [Function.update_of_ne self]
      exact and_iff_left fun equal => self (congrArg Node.owner equal)
  · have other : g ≠ a.owner := by
      rintro rfl
      simp at cas
    simp only [Function.update_of_ne other] at cas
    exact inv.cas g addr head cas
  · have once := inv.once k
    rw [← returned_set (v := { w with pc := .list q, woken := w.woken ++ [s.ticket a] }) here
      rfl] at once
    exact once

theorem Inv.reset (inv : Inv s) (closed : s.waiting = .closed) {head : Head n} {phase : Phase}
    (null : head.pointer = none) (agree : head ≠ .closed ↔ phase = .opened) :
    Inv { s with waiting := head, phase := phase } := by
  have same : s.waiting.pointer = head.pointer := by
    rw [closed, null]
    rfl
  have stack : ({ s with waiting := head, phase := phase } : State n).stack = s.stack := by
    rw [State.stack, State.stack, same]
  refine ⟨agree, same ▸ inv.ends, inv.walks, fun a => ?_, inv.cas, fun k => ?_⟩
  · rw [Live, stack]
    exact inv.parked a
  · rw [stack]
    exact inv.once k

/-! ### Whole runs -/

theorem inv_fiberStep (inv : Inv s) {f : Fin n} {spurious : Bool} {out : Out}
    (stepped : step s f spurious = some (t, out)) : Inv t := by
  unfold step at stepped
  cases at_ : s.pcs f with
  | idle | parked => simp [at_] at stepped
  | load addr =>
    simp only [at_] at stepped
    cases stepped
    exact inv.goto (by simp [at_]) (fun _ member => by cases member) (fun _ _ member => by cases member)
  | test addr head =>
    simp only [at_] at stepped
    cases head with
    | closed =>
      cases stepped
      exact inv.goto (by simp [at_]) (fun _ member => by cases member) (fun _ _ member => by cases member)
    | ptr p =>
      cases stepped
      refine (inv.write (by simp [at_]) (by simp [at_]) addr p).goto (by simp [at_]) (fun _ member => by cases member) ?_
      rintro addr' head ⟨⟩
      exact Function.update_self ..
  | cas addr head =>
    simp only [at_] at stepped
    split at stepped <;> cases stepped
    next wins => exact inv.push at_ wins.1
    next => exact inv.goto (by simp [at_]) (fun _ member => by cases member) (fun _ _ member => by cases member)

/-- **One step keeps the invariant.** -/
theorem inv_step (inv : Inv s) {label : Act n × Out} (stepped : (system n).step s label t) :
    Inv t := by
  obtain ⟨act, out⟩ := label
  change exec s act = some (t, out) at stepped
  cases act with
  | construct =>
    simp only [exec] at stepped
    split at stepped <;> cases stepped
    next idle =>
      have closed : s.waiting = .closed := not_not.mp fun ne => idle (inv.opened.mp ne)
      exact inv.reset closed rfl (by simp)
  | beginWaiters =>
    simp only [exec] at stepped
    split at stepped <;> cases stepped
    next constructed =>
      have closed : s.waiting = .closed := by
        refine not_not.mp fun ne => ?_
        have opened := inv.opened.mp ne
        rw [constructed] at opened
        cases opened
      exact inv.reset closed rfl (by simp)
  | closeWaiters =>
    simp only [exec] at stepped
    split at stepped <;> cases stepped
    exact inv.close
  | enqueue f addr =>
    simp only [exec] at stepped
    split at stepped <;> cases stepped
    next idle => exact inv.goto (by simp [idle]) (fun _ member => by cases member) (fun _ _ member => by cases member)
  | step f spurious => exact inv_fiberStep inv stepped
  | walk i =>
    simp only [exec, walk] at stepped
    cases here : s.walks[i]? with
    | none => simp [here] at stepped
    | some w =>
      simp only [here] at stepped
      split at stepped <;> cases stepped
      next a at_ => exact inv.read here at_
      next a q at_ => exact inv.wake here at_

theorem inv_initial (start : Initial s) : Inv s := by
  have empty : s.stack = [] := by
    rw [State.stack, start.closed]
    exact follow_null s.next n
  refine ⟨by simp [start.closed, start.phase], ?_, by simp [start.walks], fun a => ?_, ?_, ?_⟩
  · rw [start.closed]
    exact bounded_null s.next n
  · simp [Live, empty, start.walks, start.idle]
  · simp [start.idle]
  · simp [empty, State.returned, start.walks, start.tickets]

theorem inv_reaches {labels : List (Act n × Out)}
    (reached : (system n).Reaches System.anyStep labels s) : Inv s :=
  reached.invariant (fun _ => inv_initial) fun _ _ _ inv _ => inv_step inv

/-- The calls of `enqueue_waiter` that returned true. -/
def acceptances (labels : List (Act n × Out)) : Nat :=
  (labels.filter fun label => label.2 = .returned true).length

/-- A call is accepted by a compare-and-swap on an open stack and by nothing else. -/
theorem tickets_step {act : Act n} {out : Out} (execs : exec s act = some (t, out)) :
    (out = .returned true → s.waiting ≠ .closed) ∧
      t.tickets = s.tickets + if out = .returned true then 1 else 0 := by
  cases act with
  | construct | beginWaiters | closeWaiters | enqueue =>
    simp only [exec] at execs
    split at execs <;> cases execs
    exact ⟨(fun same => by cases same), rfl⟩
  | walk i =>
    simp only [exec, Option.map_eq_some_iff, Prod.mk.injEq] at execs
    obtain ⟨t, walked, rfl, rfl⟩ := execs
    unfold walk at walked
    split at walked
    · cases walked
    next =>
      split at walked <;> cases walked
      all_goals exact ⟨(fun same => by cases same), rfl⟩
  | step f spurious =>
    simp only [exec, step] at execs
    split at execs
    · cases execs
    · cases execs
      exact ⟨(fun same => by cases same), rfl⟩
    · split at execs <;> cases execs
      all_goals exact ⟨(fun same => by cases same), rfl⟩
    · split at execs <;> cases execs
      next wins =>
        refine ⟨fun _ => ?_, rfl⟩
        rw [wins.1]
        exact (fun same => by cases same)
      next => exact ⟨(fun same => by cases same), rfl⟩
    · cases execs

theorem tickets_reaches {labels : List (Act n × Out)}
    (reached : (system n).Reaches System.anyStep labels s) : s.tickets = acceptances labels := by
  obtain ⟨s₀, start, path⟩ := reached
  have counted : s.tickets = s₀.tickets + acceptances labels := by
    clear start
    induction path with
    | nil => rfl
    | @cons s t u label labels stepped _ _ ih =>
      have one := (tickets_step stepped).2
      rw [ih, one, acceptances, acceptances, List.filter_cons]
      by_cases accepted : label.2 = .returned true
      · simp only [accepted, if_true, decide_true, List.length_cons]
        omega
      · simp only [accepted, if_false, decide_false, Bool.false_eq_true, Nat.add_zero]
  rw [counted, start.tickets, Nat.zero_add]

end

/-- **In-flight-read waiters are woken exactly once.** The accepted calls of a run are numbered
in their order. Each is on the stack or in exactly one of the lists that `close_waiters` has
returned, and there once. The loop over such a list has woken a first part of it and has the
rest of it still to wake; a fiber that it is about to wake waits. A fiber that waits is on the
stack or still to be woken, and no call is accepted while the list is closed. -/
theorem waiters_woken_once (n : Nat) (labels : List (Act n × Out)) (s : State n)
    (reached : (system n).Reaches System.anyStep labels s) :
    (∀ k, s.returned.count k + (s.stack.map s.ticket).count k =
      if k < acceptances labels then 1 else 0) ∧
    (s.waiting = .closed → s.stack = []) ∧
    (∀ (i : Nat) (w : Walk n), s.walks[i]? = some w →
      w.woken ++ (w.pc.nodes s.next).map s.ticket = w.returned ∧
      ∀ a q, w.pc = .wake a q → s.pcs a.owner = .parked a.addr) ∧
    (∀ f addr, s.pcs f = .parked addr → Live s ⟨f, addr⟩) ∧
    (∀ act t, exec s act = some (t, .returned true) → s.waiting ≠ .closed) := by
  have inv := inv_reaches reached
  refine ⟨fun k => ?_, fun closed => ?_, fun i w here => ⟨(inv.walks i w here).2, ?_⟩,
    fun f addr parked => (inv.parked ⟨f, addr⟩).mpr parked, fun act t execs => ?_⟩
  · rw [← tickets_reaches reached]
    exact inv.once k
  · rw [State.stack, closed]
    exact follow_null s.next n
  · intro a q at_
    exact (inv.wake_alone here at_).1
  · exact (tickets_step execs).1 rfl

def fresh (n : Nat) : State n where
  waiting := .closed
  next _ := none
  pcs _ := .idle
  phase := .free
  walks := []
  tickets := 0
  ticket _ := 0

theorem initial_fresh (n : Nat) : Initial (fresh n) := ⟨rfl, rfl, fun _ => rfl, rfl, rfl⟩

/-- One fiber loads the word during a first cycle and is accepted in the second one, on top of
another fiber; the loader of the second cycle has closed it and woken one of them. -/
def twoCycles : List (Act 2) :=
  [.construct, .beginWaiters, .enqueue 0 5, .step 0 false, .step 0 false, .closeWaiters,
    .construct, .beginWaiters, .enqueue 1 9, .step 1 false, .step 1 false, .step 1 false,
    .step 0 false, .step 0 false, .step 0 false, .closeWaiters, .walk 1, .walk 1]

theorem waiters_woken_once_cycles : ∃ labels s, (system 2).Reaches System.anyStep labels s ∧
    acceptances labels = 2 ∧ s.walks.map Walk.returned = [[], [1, 0]] ∧
    s.walks.map Walk.woken = [[], [1]] ∧ s.stack = [] := by
  have passed : (drive exec (fun _ _ => true) (fresh 2) twoCycles).any (fun r =>
      acceptances r.2 = 2 ∧ r.1.walks.map Walk.returned = [[], [1, 0]] ∧
        r.1.walks.map Walk.woken = [[], [1]] ∧ r.1.waiting = .closed) := by decide +kernel
  obtain ⟨s, labels, reached, tested⟩ := drive_anyStep (system 2) rfl (initial_fresh 2) passed
  obtain ⟨two, returned, woken, closed⟩ := of_decide_eq_true tested
  exact ⟨labels, s, reached, two, returned, woken,
    (waiters_woken_once 2 labels s reached).2.1 closed⟩

end UringDb.Waiters
