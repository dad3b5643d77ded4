import UringDb.Lib.Run

/-!
# The barrier between the nodes

`TCPBarrier` holds one connection to every other node. `wait` sends one integer on each of
them, in the order of `conns`, and then receives one integer from each, in the same order.
A message carries no round number, so a node that has returned may already have sent its
message of the next round while others still collect those of this round; what keeps the
rounds apart is that every connection delivers in order and that the two counts on it differ
by what is under way.
-/
namespace UringDb.Shuffle.Barrier

/-! ### Connections -/

/-- The order of `conns` at every node: those to the higher nodes, which it connected to in
ascending order, then those accepted from the lower nodes, in the order they came in. -/
structure Mesh (n : Nat) where
  accepted : Fin n → List (Fin n)
  lower : ∀ i, (accepted i).Perm ((List.finRange n).filter fun j => j < i)

namespace Mesh

variable {n : Nat} (mesh : Mesh n)

def conns (i : Fin n) : List (Fin n) :=
  (List.finRange n).filter (fun j => i < j) ++ mesh.accepted i

theorem mem_conns {i j : Fin n} : j ∈ mesh.conns i ↔ j ≠ i := by
  simp only [conns, List.mem_append, (mesh.lower i).mem_iff, List.mem_filter, List.mem_finRange,
    true_and, decide_eq_true_eq]
  constructor
  · rintro (above | below)
    · exact above.ne'
    · exact below.ne
  · intro apart
    exact (lt_or_gt_of_ne apart).symm

theorem nodup_conns (i : Fin n) : (mesh.conns i).Nodup := by
  have all := List.nodup_finRange n
  refine List.Nodup.append (all.filter _) ((mesh.lower i).nodup_iff.mpr (all.filter _)) ?_
  intro j above below
  rw [(mesh.lower i).mem_iff] at below
  simp only [List.mem_filter, List.mem_finRange, true_and, decide_eq_true_eq] at above below
  exact absurd above (lt_asymm below)

/-- Every node accepts the lower nodes in ascending order. -/
def inOrder (n : Nat) : Mesh n where
  accepted i := (List.finRange n).filter fun j => j < i
  lower _ := List.Perm.refl _

end Mesh

/-! ### The code -/

/-- Where a node is: outside `wait`, or in one of its two loops with the connections that are
still to be served. -/
inductive Pc (n : Nat) where
  | outside
  | sending (rest : List (Fin n))
  | receiving (rest : List (Fin n))
  deriving DecidableEq, Repr

structure Node (n : Nat) where
  pc : Pc n
  /-- How many times the node has entered `wait`. -/
  entered : Nat
  /-- How many times the node has returned from `wait`. -/
  returned : Nat
  /-- An `ensure` of `wait` has failed. -/
  failed : Bool
  deriving DecidableEq, Repr

structure State (n : Nat) where
  nodes : Fin n → Node n
  /-- What is under way from one node to another, oldest first. -/
  channel : Fin n → Fin n → List Int

inductive Act (n : Nat) where
  | enter (i : Fin n)
  | run (i : Fin n)
  | fail (i : Fin n)
  deriving DecidableEq, Repr

section

variable {n : Nat}

def State.setNode (s : State n) (i : Fin n) (node : Node n) : State n :=
  { s with nodes := Function.update s.nodes i node }

def State.setChannel (s : State n) (i j : Fin n) (messages : List Int) : State n :=
  { s with channel := Function.update s.channel i (Function.update (s.channel i) j messages) }

/-- The next operation of node `i` inside `wait`. A receive on an empty channel blocks. -/
def runWait (mesh : Mesh n) (s : State n) (i : Fin n) : Option (State n) :=
  let node := s.nodes i
  match node.pc with
  | .outside => none
  | .sending (j :: rest) =>
    some ((s.setNode i { node with pc := .sending rest }).setChannel i j (s.channel i j ++ [0]))
  | .sending [] => some (s.setNode i { node with pc := .receiving (mesh.conns i) })
  | .receiving (j :: rest) =>
    match s.channel j i with
    | [] => none
    | _ :: later =>
      some ((s.setNode i { node with pc := .receiving rest }).setChannel j i later)
  | .receiving [] =>
    some (s.setNode i { node with pc := .outside, returned := node.returned + 1 })

def exec (mesh : Mesh n) (s : State n) : Act n → Option (State n)
  | .enter i =>
    let node := s.nodes i
    if node.failed = false ∧ node.pc = .outside then
      some (s.setNode i { node with pc := .sending (mesh.conns i), entered := node.entered + 1 })
    else none
  | .run i => if (s.nodes i).failed = false then runWait mesh s i else none
  | .fail i => some (s.setNode i { s.nodes i with failed := true })

def initial : State n := ⟨fun _ => ⟨.outside, 0, 0, false⟩, fun _ _ => []⟩

def system (mesh : Mesh n) : System (State n) (Act n) where
  init s := s = initial
  step s a t := exec mesh s a = some t

end

/-! ### Counting the messages of a connection -/

section

variable {n : Nat}

/-- The node is inside `wait`. -/
def Node.inside (node : Node n) : Nat :=
  match node.pc with
  | .outside => 0
  | _ => 1

/-- The messages still to be sent to `j` in the wait that runs. -/
def Node.owes (node : Node n) (j : Fin n) : Nat :=
  match node.pc with
  | .sending rest => if rest.contains j then 1 else 0
  | _ => 0

/-- The messages already received from `j` in the wait that runs. -/
def Node.got (node : Node n) (j : Fin n) : Nat :=
  match node.pc with
  | .receiving rest => if rest.contains j then 0 else 1
  | _ => 0

/-- The connections still to be served are those of distinct other nodes. -/
def Node.Served (node : Node n) (i : Fin n) : Prop :=
  match node.pc with
  | .outside => True
  | .sending rest => rest.Nodup ∧ i ∉ rest
  | .receiving rest => rest.Nodup ∧ i ∉ rest

/-- A node has sent one message for every wait it entered, except those it still owes, and has
received one for every wait it returned from and those it got since. -/
structure Inv (s : State n) : Prop where
  served : ∀ i, (s.nodes i).Served i
  balance : ∀ i, (s.nodes i).entered = (s.nodes i).returned + (s.nodes i).inside
  counts : ∀ i j, i ≠ j →
    (s.channel i j).length + (s.nodes j).returned + (s.nodes j).got i + (s.nodes i).owes j =
      (s.nodes i).entered

theorem inv_initial : Inv (initial : State n) where
  served _ := trivial
  balance _ := rfl
  counts _ _ _ := rfl

theorem Inv.change {s t : State n} (inv : Inv s) (i : Fin n)
    (others : ∀ j, j ≠ i → t.nodes j = s.nodes j)
    (served : (t.nodes i).Served i)
    (balance : (t.nodes i).entered = (t.nodes i).returned + (t.nodes i).inside)
    (away : ∀ j k, j ≠ i → k ≠ i → t.channel j k = s.channel j k)
    (outgoing : ∀ j, j ≠ i → (t.channel i j).length + (t.nodes i).owes j + (s.nodes i).entered =
      (s.channel i j).length + (s.nodes i).owes j + (t.nodes i).entered)
    (incoming : ∀ j, j ≠ i → (t.channel j i).length + (t.nodes i).returned + (t.nodes i).got j =
      (s.channel j i).length + (s.nodes i).returned + (s.nodes i).got j) : Inv t where
  served := by
    intro j
    by_cases here : j = i
    · subst here
      exact served
    · rw [others j here]
      exact inv.served j
  balance := by
    intro j
    by_cases here : j = i
    · subst here
      exact balance
    · rw [others j here]
      exact inv.balance j
  counts := by
    intro j k apart
    have before := inv.counts j k apart
    by_cases sender : j = i
    · subst sender
      have out := outgoing k apart.symm
      rw [others k apart.symm]
      omega
    · rw [others j sender]
      by_cases receiver : k = i
      · subst receiver
        have into := incoming j sender
        omega
      · rw [others k receiver, away j k sender receiver]
        exact before

@[simp] theorem setNode_same (s : State n) (i : Fin n) (node : Node n) :
    (s.setNode i node).nodes i = node := by
  simp [State.setNode]

theorem setNode_ne (s : State n) {i j : Fin n} (node : Node n) (apart : j ≠ i) :
    (s.setNode i node).nodes j = s.nodes j := by
  simp [State.setNode, apart]

@[simp] theorem setNode_channel (s : State n) (i : Fin n) (node : Node n) :
    (s.setNode i node).channel = s.channel := rfl

@[simp] theorem setChannel_nodes (s : State n) (i j : Fin n) (messages : List Int) :
    (s.setChannel i j messages).nodes = s.nodes := rfl

theorem setChannel_channel (s : State n) (i j k l : Fin n) (messages : List Int) :
    (s.setChannel i j messages).channel k l =
      if k = i ∧ l = j then messages else s.channel k l := by
  simp only [State.setChannel, Function.update_apply]
  by_cases first : k = i
  · subst first
    by_cases second : l = j
    · simp [second]
    · simp [second]
  · simp [first]

theorem Inv.local {s : State n} (inv : Inv s) (i : Fin n) (node : Node n) (served : node.Served i)
    (balance : node.entered = node.returned + node.inside)
    (outgoing : ∀ j, j ≠ i →
      node.owes j + (s.nodes i).entered = (s.nodes i).owes j + node.entered)
    (incoming : ∀ j, j ≠ i →
      node.returned + node.got j = (s.nodes i).returned + (s.nodes i).got j) :
    Inv (s.setNode i node) := by
  apply inv.change i
  · intro j apart
    exact setNode_ne s node apart
  · rw [setNode_same]
    exact served
  · rw [setNode_same]
    exact balance
  · intro j k _ _
    rfl
  · intro j apart
    have same := outgoing j apart
    rw [setNode_same, setNode_channel]
    omega
  · intro j apart
    have same := incoming j apart
    rw [setNode_same, setNode_channel]
    omega

theorem inv_send {s : State n} (inv : Inv s) {i j : Fin n} {rest : List (Fin n)}
    (pc : (s.nodes i).pc = .sending (j :: rest)) (message : Int) :
    Inv ((s.setNode i { s.nodes i with pc := .sending rest }).setChannel i j
      (s.channel i j ++ [message])) := by
  have served := inv.served i
  have balance := inv.balance i
  simp only [Node.Served, Node.inside, pc] at served balance
  obtain ⟨nodup, noSelf⟩ := served
  rw [List.nodup_cons] at nodup
  rw [List.mem_cons, not_or] at noSelf
  apply inv.change i
  · intro k apart
    exact setNode_ne s _ apart
  · simpa [Node.Served] using ⟨nodup.2, noSelf.2⟩
  · simpa [Node.inside] using balance
  · intro k l sender _
    rw [setChannel_channel, if_neg (fun both => sender both.1)]
    rfl
  · intro k _
    rw [setChannel_channel]
    by_cases target : k = j
    · -- one message more is under way, one less is owed
      subst target
      simp [Node.owes, pc, nodup.1]
    · simp [Node.owes, pc, target]
  · intro k apart
    rw [setChannel_channel, if_neg (fun both => apart both.1)]
    simp [Node.got, pc]

theorem inv_receive {s : State n} (inv : Inv s) {i j : Fin n} {rest : List (Fin n)}
    (pc : (s.nodes i).pc = .receiving (j :: rest)) {message : Int} {later : List Int}
    (arrived : s.channel j i = message :: later) :
    Inv ((s.setNode i { s.nodes i with pc := .receiving rest }).setChannel j i later) := by
  have served := inv.served i
  have balance := inv.balance i
  simp only [Node.Served, Node.inside, pc] at served balance
  obtain ⟨nodup, noSelf⟩ := served
  rw [List.nodup_cons] at nodup
  rw [List.mem_cons, not_or] at noSelf
  apply inv.change i
  · intro k apart
    exact setNode_ne s _ apart
  · simpa [Node.Served] using ⟨nodup.2, noSelf.2⟩
  · simpa [Node.inside] using balance
  · intro k l _ receiver
    rw [setChannel_channel, if_neg (fun both => receiver both.2)]
    rfl
  · intro k apart
    rw [setChannel_channel, if_neg (fun both => apart both.2)]
    simp [Node.owes, pc]
  · intro k _
    rw [setChannel_channel]
    by_cases source : k = j
    · -- one message less is under way, one more has been received
      subst source
      simp [Node.got, pc, nodup.1, arrived]
      omega
    · simp [Node.got, pc, source]

theorem inv_runWait {mesh : Mesh n} {s t : State n} {i : Fin n} (inv : Inv s)
    (ran : runWait mesh s i = some t) : Inv t := by
  have served := inv.served i
  have balance := inv.balance i
  simp only [runWait] at ran
  split at ran
  next => cases ran
  next j rest pc =>
    cases ran
    exact inv_send inv pc 0
  next pc =>
    -- every message of this wait is sent, none is received yet
    cases ran
    simp only [Node.inside, pc] at balance
    apply inv.local i
    · exact ⟨mesh.nodup_conns i, fun self => mesh.mem_conns.mp self rfl⟩
    · exact balance
    · intro j _
      simp [Node.owes, pc]
    · intro j apart
      simp [Node.got, pc, mesh.mem_conns.mpr apart]
  next j rest pc =>
    split at ran <;> cases ran
    next message later arrived => exact inv_receive inv pc arrived
  next pc =>
    -- the wait is over: what was received in it now counts as a completed round
    cases ran
    simp only [Node.inside, pc] at balance
    apply inv.local i
    · trivial
    · exact balance
    · intro j _
      simp [Node.owes, pc]
    · intro j _
      simp [Node.got, pc]

theorem inv_step {mesh : Mesh n} {s t : State n} {a : Act n} (inv : Inv s)
    (stepped : exec mesh s a = some t) : Inv t := by
  cases a with
  | enter i =>
    simp only [exec] at stepped
    split at stepped <;> cases stepped
    next free =>
      have balance := inv.balance i
      simp only [Node.inside, free.2] at balance
      apply inv.local i
      · exact ⟨mesh.nodup_conns i, fun self => mesh.mem_conns.mp self rfl⟩
      · simpa [Node.inside] using balance
      · intro j apart
        simp [Node.owes, free.2, mesh.mem_conns.mpr apart]
        omega
      · intro j _
        simp [Node.got, free.2]
  | run i =>
    simp only [exec] at stepped
    split at stepped
    next => exact inv_runWait inv stepped
    next => cases stepped
  | fail i =>
    cases stepped
    exact inv.local i _ (inv.served i) (inv.balance i) (fun _ _ => rfl) (fun _ _ => rfl)

theorem inv_reaches {mesh : Mesh n} {acts : List (Act n)} {s : State n}
    (reached : (system mesh).Reaches System.anyStep acts s) : Inv s := by
  refine System.Reaches.invariant (P := Inv) ?_ ?_ reached
  · rintro s rfl
    exact inv_initial
  · intro s a t inv _ stepped
    exact inv_step inv stepped

/-! ### The barrier -/

/-- A node that has returned has received a message of that round from everybody. -/
theorem Inv.returned_le {s : State n} (inv : Inv s) (i j : Fin n) :
    (s.nodes i).returned ≤ (s.nodes j).entered := by
  by_cases self : i = j
  · subst self
    have balance := inv.balance i
    omega
  · have counts := inv.counts j i (fun same => self same.symm)
    omega

/-- Node `i` can go on inside its `wait`. -/
def CanRun (mesh : Mesh n) (s : State n) (i : Fin n) : Prop := ∃ t, exec mesh s (.run i) = some t

theorem canRun_of_isSome {mesh : Mesh n} {s : State n} {i : Fin n}
    (healthy : (s.nodes i).failed = false) (able : (runWait mesh s i).isSome = true) :
    CanRun mesh s i := by
  obtain ⟨t, ran⟩ := Option.isSome_iff_exists.mp able
  exact ⟨t, by simp only [exec, healthy, if_true, ran]⟩

theorem canRun_sending {mesh : Mesh n} {s : State n} {i : Fin n} {rest : List (Fin n)}
    (healthy : (s.nodes i).failed = false) (pc : (s.nodes i).pc = .sending rest) :
    CanRun mesh s i := by
  apply canRun_of_isSome healthy
  cases rest with
  | nil => simp [runWait, pc]
  | cons j rest => simp [runWait, pc]

theorem Inv.progress {mesh : Mesh n} {s : State n} (inv : Inv s) {r : Nat}
    (healthy : ∀ i, (s.nodes i).failed = false) (entered : ∀ i, r ≤ (s.nodes i).entered)
    {i : Fin n} (waiting : (s.nodes i).returned < r) :
    ∃ k, (s.nodes k).returned < r ∧ CanRun mesh s k := by
  have balance := inv.balance i
  have bound := entered i
  cases pc : (s.nodes i).pc with
  | outside =>
    simp only [Node.inside, pc] at balance
    omega
  | sending rest => exact ⟨i, waiting, canRun_sending (healthy i) pc⟩
  | receiving rest =>
    cases rest with
    | nil => exact ⟨i, waiting, canRun_of_isSome (healthy i) (by simp [runWait, pc])⟩
    | cons j rest =>
      cases arrived : s.channel j i with
      | cons message later =>
        exact ⟨i, waiting, canRun_of_isSome (healthy i) (by simp [runWait, pc, arrived])⟩
      | nil =>
        -- nothing is under way from `j`, which therefore still owes its message of this round
        have served := inv.served i
        simp only [Node.Served, pc, List.mem_cons, not_or] at served
        have counts := inv.counts j i (fun same => served.2.1 same.symm)
        have balance' := inv.balance j
        have bound' := entered j
        simp only [arrived, List.length_nil, Node.got, pc, List.contains_cons, beq_self_eq_true,
          Bool.true_or, if_true] at counts
        cases pc' : (s.nodes j).pc with
        | sending rest' =>
          refine ⟨j, ?_, canRun_sending (healthy j) pc'⟩
          simp only [Node.inside, pc'] at balance'
          simp only [Node.owes, pc'] at counts
          split at counts <;> omega
        | outside => simp only [Node.owes, pc'] at counts; omega
        | receiving rest' => simp only [Node.owes, pc'] at counts; omega

end

/-- No node returns from its `r`-th wait before every node has entered its `r`-th; and once all
have, as long as one of them has not returned and none has failed, one that has not returned
can go on. -/
theorem barrier_reusable (n : Nat) (mesh : Mesh n) (acts : List (Act n)) (s : State n)
    (reached : (system mesh).Reaches System.anyStep acts s) (r : Nat) :
    (∀ i, r ≤ (s.nodes i).returned → ∀ j, r ≤ (s.nodes j).entered) ∧
    ((∀ i, (s.nodes i).failed = false) → (∀ i, r ≤ (s.nodes i).entered) →
      (∃ i, (s.nodes i).returned < r) → ∃ k, (s.nodes k).returned < r ∧ CanRun mesh s k) := by
  have inv := inv_reaches reached
  constructor
  · intro i returned j
    exact returned.trans (inv.returned_le i j)
  · rintro healthy entered ⟨i, waiting⟩
    exact inv.progress healthy entered waiting

/-- Node 0 is in its second wait and has sent its second message while node 1 has not read the
first. -/
def ahead : List (Act 2) :=
  [.enter 0, .enter 1, .run 0, .run 1, .run 0, .run 0, .run 0, .enter 0, .run 0]

theorem barrier_reusable_ahead : ∃ s, (system (Mesh.inOrder 2)).Reaches System.anyStep ahead s ∧
    (s.nodes 0).returned = 1 ∧ (s.nodes 1).returned = 0 ∧ (s.channel 0 1).length = 2 ∧
    (∀ j, 1 ≤ (s.nodes j).entered) ∧
    ∃ k, (s.nodes k).returned < 1 ∧ CanRun (Mesh.inOrder 2) s k := by
  obtain ⟨s, performed, first, second, two, healthy⟩ : ∃ s,
      perform (exec (Mesh.inOrder 2)) initial ahead = some s ∧ (s.nodes 0).returned = 1 ∧
      (s.nodes 1).returned = 0 ∧ (s.channel 0 1).length = 2 ∧ ∀ i, (s.nodes i).failed = false :=
    ⟨_, rfl, rfl, rfl, rfl, by decide⟩
  have reached : (system (Mesh.inOrder 2)).Reaches System.anyStep ahead s :=
    ⟨_, rfl, perform_path (fun _ _ _ stepped => ⟨stepped, trivial⟩) performed⟩
  have barrier := barrier_reusable 2 (Mesh.inOrder 2) ahead s reached 1
  have entered := barrier.1 0 (by omega)
  exact ⟨s, reached, first, second, two, entered,
    barrier.2 healthy entered ⟨1, by omega⟩⟩

end UringDb.Shuffle.Barrier
