import Mathlib.Algebra.Group.Nat.Defs
import Mathlib.Data.Fintype.Card
import Mathlib.Logic.Function.Basic

/-!
# Queues of allocated nodes

A first-in first-out queue of nodes that are allocated when an element is added and freed when it is
taken, so that an address can come back with another node. Pointers and the count of the elements
have `w` bits, and zero is no address. The count alone decides whether the queue is empty: the
front, the rear and the link of the last node are whatever the operations before have left.

The queue keeps which addresses are allocated, and the ones of the nodes that were accessed through
its pointers.
-/

structure HeapNode (w : ℕ) (V : Type) where
  val : V
  next : BitVec w

structure HeapQueue (w : ℕ) (V : Type) where
  node : BitVec w → HeapNode w V
  allocated : BitVec w → Bool
  accessed : List (BitVec w)
  front : BitVec w
  rear : BitVec w
  count : BitVec w

namespace HeapQueue

variable {w : ℕ} {V : Type}

/-! ## Operations -/

/-- The queue is made empty. Its nodes, if there are any, stay allocated. -/
def init (q : HeapQueue w V) : HeapQueue w V := { q with front := 0, rear := 0, count := 0 }

def isEmpty (q : HeapQueue w V) : Bool := q.count = 0

/-- The block at `a` is allocated, with what it holds. -/
def malloc (a : BitVec w) (block : HeapNode w V) (q : HeapQueue w V) : HeapQueue w V :=
  { q with
    node := Function.update q.node a block
    allocated := Function.update q.allocated a true }

/-- The block at `a` is freed. -/
def free (a : BitVec w) (q : HeapQueue w V) : HeapQueue w V :=
  { q with allocated := Function.update q.allocated a false }

/-- An access of the node that a pointer of the queue points to. There is no result if that is
null. -/
def access (p : BitVec w) (q : HeapQueue w V) : Option (HeapQueue w V) :=
  if p = 0 then none else some { q with accessed := p :: q.accessed }

def setVal (a : BitVec w) (v : V) (q : HeapQueue w V) : HeapQueue w V :=
  { q with node := Function.update q.node a { q.node a with val := v } }

def setNext (a next : BitVec w) (q : HeapQueue w V) : HeapQueue w V :=
  { q with node := Function.update q.node a { q.node a with next := next } }

def newNode (v : V) (a : BitVec w) (block : HeapNode w V) (q : HeapQueue w V) : HeapQueue w V :=
  (q.malloc a block).setVal a v

/-- An element is added at the rear, in a node at `a`. -/
def enqueue (v : V) (a : BitVec w) (block : HeapNode w V) (q : HeapQueue w V) :
    Option (HeapQueue w V) :=
  let q := q.newNode v a block
  let linked := if q.isEmpty then some { q with front := a }
    else (q.access q.rear).map fun q' => q'.setNext q.rear a
  linked.map fun q => { q with rear := a, count := q.count + 1 }

/-- The node at the front is copied to the one at `a`, left by the queue and freed. -/
def takeFront (a : BitVec w) (q : HeapQueue w V) : HeapQueue w V :=
  let first := q.front
  let q := q.setVal a (q.node first).val
  let q := { q with front := (q.node first).next }
  let q := q.free first
  { q with count := q.count - 1 }

/-- The element at the front is taken, or there is only a default value. The value that is returned
is put together in a block at `a`, which stays allocated. -/
def dequeue (zero : V) (a : BitVec w) (block : HeapNode w V) (q : HeapQueue w V) :
    Option (V × HeapQueue w V) :=
  let q := q.newNode zero a block
  let taken := if q.isEmpty then some q else (q.access q.front).map (takeFront a)
  taken.map fun q => ((q.node a).val, q)

/-! ## The nodes of a queue -/

/-- The `n` addresses that the links lead to from `p` on. -/
def chain (node : BitVec w → HeapNode w V) : ℕ → BitVec w → List (BitVec w)
  | 0, _ => []
  | n + 1, p => p :: chain node n (node p).next

def nodes (q : HeapQueue w V) : List (BitVec w) := chain q.node q.count.toNat q.front

variable {node node' : BitVec w → HeapNode w V} {n : ℕ} {p last a : BitVec w}

theorem chain_succ (node : BitVec w → HeapNode w V) (n : ℕ) (p : BitVec w) :
    chain node (n + 1) p = p :: chain node n (node p).next := rfl

@[simp]
theorem length_chain : (chain node n p).length = n := by
  induction n generalizing p with
  | zero => rfl
  | succ n ih => rw [chain, List.length_cons, ih]

theorem chain_congr (h : ∀ i ∈ chain node n p, node' i = node i) :
    chain node' n p = chain node n p := by
  induction n generalizing p with
  | zero => rfl
  | succ n ih =>
      obtain ⟨hp, hrest⟩ := List.forall_mem_cons.mp h
      rw [chain, chain, hp, ih hrest]

theorem chain_setNext (hnodup : (chain node n p).Nodup)
    (hlast : (chain node n p).getLast? = some last)
    (hsame : ∀ i ∈ chain node n p, i ≠ last → (node' i).next = (node i).next)
    (hnext : (node' last).next = a) : chain node' (n + 1) p = chain node n p ++ [a] := by
  induction n generalizing p with
  | zero => cases hlast
  | succ n ih =>
      obtain ⟨hp, hnodup⟩ := List.nodup_cons.mp hnodup
      rw [chain_succ] at hlast hsame
      rw [chain_succ node', chain_succ node, List.cons_append]
      cases n with
      | zero =>
          obtain rfl : p = last := Option.some.inj hlast
          rw [hnext]
          rfl
      | succ n =>
          have htail : (chain node (n + 1) (node p).next).getLast? = some last := by
            rw [chain_succ, List.getLast?_cons_cons] at hlast
            exact hlast
          have hne : p ≠ last := by
            rintro rfl
            exact hp (List.mem_of_getLast? htail)
          rw [hsame p List.mem_cons_self hne,
            ih hnodup htail fun i hi => hsame i (List.mem_cons_of_mem p hi)]

theorem length_le_of_nodup {l : List (BitVec w)} (h : l.Nodup) : l.length ≤ 2 ^ w := by
  have hfin : (l.map BitVec.toFin).Nodup := h.map fun _ _ => BitVec.eq_of_toFin_eq
  have hcard := hfin.length_le_card
  rwa [List.length_map, Fintype.card_fin] at hcard

/-! ## What a queue holds -/

/-- The nodes of the queue are allocated, apart from each other, and hold the elements `xs`; the
rear is the last of them if there is one. -/
structure Holds (q : HeapQueue w V) (xs : List V) : Prop where
  nodup : q.nodes.Nodup
  ne_zero : ∀ i ∈ q.nodes, i ≠ 0
  allocated : ∀ i ∈ q.nodes, q.allocated i = true
  rear : ∀ i, q.nodes.getLast? = some i → q.rear = i
  vals : q.nodes.map (fun i => (q.node i).val) = xs

def Fresh (q : HeapQueue w V) (a : BitVec w) : Prop := a ≠ 0 ∧ q.allocated a = false

instance (q : HeapQueue w V) (a : BitVec w) : Decidable (q.Fresh a) :=
  inferInstanceAs (Decidable (_ ∧ _))

variable {q q' : HeapQueue w V} {xs : List V} {x v zero : V} {block : HeapNode w V}

theorem holds_init (q : HeapQueue w V) : q.init.Holds [] := by
  have hnodes : q.init.nodes = [] := by
    have hcount : q.init.count.toNat = 0 := BitVec.toNat_zero
    rw [nodes, hcount, chain]
  refine ⟨?_, ?_, ?_, ?_, ?_⟩ <;> rw [hnodes]
  · exact List.nodup_nil
  · exact fun i hi => absurd hi List.not_mem_nil
  · exact fun i hi => absurd hi List.not_mem_nil
  · exact fun i hi => by cases hi
  · rfl

theorem length_nodes (q : HeapQueue w V) : q.nodes.length = q.count.toNat := length_chain

theorem Holds.length (h : q.Holds xs) : xs.length = q.count.toNat := by
  rw [← h.vals, List.length_map, length_nodes]

theorem Holds.isEmpty_iff (h : q.Holds xs) : q.isEmpty = true ↔ xs = [] := by
  rw [isEmpty, decide_eq_true_iff, ← List.length_eq_zero_iff, h.length]
  exact BitVec.toNat_eq

/-! ## New nodes -/

@[simp]
theorem newNode_val_self : ((q.newNode v a block).node a).val = v := by
  rw [newNode, setVal]
  dsimp only
  rw [Function.update_self]

theorem newNode_node_of_ne {i : BitVec w} (hne : i ≠ a) :
    (q.newNode v a block).node i = q.node i :=
  (Function.update_of_ne hne _ _).trans (Function.update_of_ne hne _ _)

theorem Holds.notMem_nodes (h : q.Holds xs) (ha : q.Fresh a) : a ∉ q.nodes := by
  intro hmem
  have hallocated := h.allocated a hmem
  rw [ha.2] at hallocated
  cases hallocated

theorem Holds.newNode_node (h : q.Holds xs) (ha : q.Fresh a) {i : BitVec w} (hi : i ∈ q.nodes) :
    (q.newNode v a block).node i = q.node i := by
  apply newNode_node_of_ne
  rintro rfl
  exact h.notMem_nodes ha hi

theorem Holds.newNode_nodes (h : q.Holds xs) (ha : q.Fresh a) :
    (q.newNode v a block).nodes = q.nodes :=
  chain_congr fun _ hi => h.newNode_node ha hi

theorem Holds.newNode (h : q.Holds xs) (ha : q.Fresh a) : (q.newNode v a block).Holds xs := by
  have hnodes : (q.newNode v a block).nodes = q.nodes := h.newNode_nodes ha
  refine ⟨?_, ?_, ?_, ?_, ?_⟩ <;> rw [hnodes]
  · exact h.nodup
  · exact h.ne_zero
  · intro i hi
    refine (Function.update_of_ne ?_ _ _).trans (h.allocated i hi)
    rintro rfl
    exact h.notMem_nodes ha hi
  · exact h.rear
  · rw [← h.vals]
    exact List.map_congr_left fun i hi => congrArg HeapNode.val (h.newNode_node ha hi)

theorem Holds.toNat_count_succ (h : q.Holds xs) (ha : q.Fresh a) :
    (q.count + 1).toNat = q.count.toNat + 1 := by
  have hzero : (0 : BitVec w) ∉ a :: q.nodes := by
    rw [List.mem_cons, not_or]
    exact ⟨ha.1.symm, fun hmem => h.ne_zero 0 hmem rfl⟩
  have hnodup : (0 :: a :: q.nodes).Nodup :=
    List.nodup_cons.mpr ⟨hzero, List.nodup_cons.mpr ⟨h.notMem_nodes ha, h.nodup⟩⟩
  have hlength := length_le_of_nodup hnodup
  rw [List.length_cons, List.length_cons, length_nodes] at hlength
  have hpow : 1 < 2 ^ w := by omega
  have hone : (1 : BitVec w).toNat = 1 := Nat.mod_eq_of_lt hpow
  rw [BitVec.toNat_add, hone, Nat.mod_eq_of_lt (by omega)]

/-! ## The operations on what is held -/

theorem Holds.append (h : q.Holds xs) (ha : q.Fresh a) (hnodes : q'.nodes = q.nodes ++ [a])
    (hallocated : q'.allocated = Function.update q.allocated a true) (hrear : q'.rear = a)
    (hold : ∀ i ∈ q.nodes, (q'.node i).val = (q.node i).val) (hnew : (q'.node a).val = v) :
    q'.Holds (xs ++ [v]) := by
  have hne : ∀ i ∈ q.nodes, i ≠ a := by
    rintro i hi rfl
    exact h.notMem_nodes ha hi
  refine ⟨?_, ?_, ?_, ?_, ?_⟩ <;> rw [hnodes]
  · exact List.nodup_append'.mpr ⟨h.nodup, List.nodup_singleton a,
      List.disjoint_singleton.mpr (h.notMem_nodes ha)⟩
  · rw [List.forall_mem_append, List.forall_mem_singleton]
    exact ⟨h.ne_zero, ha.1⟩
  · rw [List.forall_mem_append, List.forall_mem_singleton, hallocated]
    refine ⟨fun i hi => ?_, Function.update_self ..⟩
    rw [Function.update_of_ne (hne i hi)]
    exact h.allocated i hi
  · intro i hi
    rw [List.getLast?_append, List.getLast?_singleton, Option.some_or, Option.some.injEq] at hi
    rw [hrear, hi]
  · rw [List.map_append, List.map_congr_left hold, h.vals, List.map_singleton, hnew]

theorem Holds.enqueue_nil (h : q.Holds xs) (ha : q.Fresh a) (v : V) (block : HeapNode w V)
    (hnil : q.nodes = []) :
    ∃ q', q.enqueue v a block = some q' ∧ q'.Holds (xs ++ [v]) ∧ q'.accessed = q.accessed := by
  have hzero : q.count.toNat = 0 := by rw [← length_nodes, hnil, List.length_nil]
  have hempty : (q.newNode v a block).isEmpty = true :=
    decide_eq_true (BitVec.eq_of_toNat_eq hzero)
  refine ⟨_, by rw [HeapQueue.enqueue, if_pos hempty, Option.map_some], ?_, ?_⟩
  · refine h.append ha ?_ rfl rfl ?_ newNode_val_self
    · rw [hnil, nodes]
      change chain _ (q.count + 1).toNat _ = _
      rw [h.toNat_count_succ ha, hzero]
      rfl
    · intro i hi
      exact congrArg HeapNode.val (h.newNode_node ha hi)
  · rfl

theorem setNext_node_of_ne {i last : BitVec w} (hne : i ≠ last) :
    (q.setNext last a).node i = q.node i :=
  Function.update_of_ne hne _ _

theorem setNext_node_self (last : BitVec w) :
    (q.setNext last a).node last = ⟨(q.node last).val, a⟩ := by
  rw [setNext]
  dsimp only
  rw [Function.update_self]

theorem setNext_val (i last : BitVec w) : ((q.setNext last a).node i).val = (q.node i).val := by
  by_cases heq : i = last
  · rw [heq, setNext_node_self]
  · rw [setNext_node_of_ne heq]

theorem Holds.nodes_setNext {last : BitVec w} (h : q.Holds xs) (ha : q.Fresh a) (v : V)
    (block : HeapNode w V) (hlast : q.nodes.getLast? = some last) :
    chain ((q.newNode v a block).setNext last a).node (q.count + 1).toNat q.front =
      q.nodes ++ [a] := by
  have hchain : chain (q.newNode v a block).node q.count.toNat q.front = q.nodes :=
    h.newNode_nodes ha
  rw [h.toNat_count_succ ha, ← hchain]
  apply chain_setNext
  · rw [hchain]
    exact h.nodup
  · rw [hchain]
    exact hlast
  · intro i _ hne
    rw [setNext_node_of_ne hne]
  · rw [setNext_node_self]

/-- The new node comes after the last one, which is all that is accessed. -/
theorem Holds.enqueue_getLast {last : BitVec w} (h : q.Holds xs) (ha : q.Fresh a) (v : V)
    (block : HeapNode w V) (hlast : q.nodes.getLast? = some last) :
    ∃ q', q.enqueue v a block = some q' ∧ q'.Holds (xs ++ [v]) ∧
      q'.accessed = last :: q.accessed := by
  have hmem : last ∈ q.nodes := List.mem_of_getLast? hlast
  have hrear : (q.newNode v a block).rear = last := h.rear last hlast
  have hempty : ¬ (q.newNode v a block).isEmpty = true := by
    intro hempty
    have hzero : q.count.toNat = 0 := congrArg BitVec.toNat (of_decide_eq_true hempty)
    have hlength := List.length_pos_of_mem hmem
    rw [length_nodes, hzero] at hlength
    exact absurd hlength (Nat.lt_irrefl 0)
  refine ⟨_, by rw [HeapQueue.enqueue, if_neg hempty, hrear, access, if_neg (h.ne_zero _ hmem),
    Option.map_some, Option.map_some], ?_, ?_⟩
  · refine h.append ha (h.nodes_setNext ha v block hlast) rfl rfl ?_ ?_
    · intro i hi
      exact (setNext_val i last).trans (congrArg HeapNode.val (h.newNode_node ha hi))
    · exact (setNext_val a last).trans newNode_val_self
  · rfl

theorem Holds.enqueue (h : q.Holds xs) (ha : q.Fresh a) (v : V) (block : HeapNode w V) :
    ∃ q', q.enqueue v a block = some q' ∧ q'.Holds (xs ++ [v]) ∧
      ∀ i ∈ q'.accessed, i ∈ q.accessed ∨ i ∈ q.nodes := by
  cases hlast : q.nodes.getLast? with
  | none =>
      obtain ⟨q', hq', hheld, haccessed⟩ :=
        h.enqueue_nil ha v block (List.getLast?_eq_none_iff.mp hlast)
      exact ⟨q', hq', hheld, fun i hi => Or.inl (haccessed ▸ hi)⟩
  | some last =>
      obtain ⟨q', hq', hheld, haccessed⟩ := h.enqueue_getLast ha v block hlast
      refine ⟨q', hq', hheld, ?_⟩
      rw [haccessed, List.forall_mem_cons]
      exact ⟨Or.inr (List.mem_of_getLast? hlast), fun i hi => Or.inl hi⟩

theorem takeFront_node_of_ne {i : BitVec w} (hne : i ≠ a) :
    (q.takeFront a).node i = q.node i :=
  Function.update_of_ne hne _ _

theorem takeFront_val_self : ((q.takeFront a).node a).val = (q.node q.front).val := by
  rw [takeFront, setVal, free]
  dsimp only
  rw [Function.update_self]

theorem takeFront_front (hne : q.front ≠ a) : (q.takeFront a).front = (q.node q.front).next :=
  congrArg HeapNode.next (Function.update_of_ne hne _ _)

theorem Holds.nodes_cons (h : q.Holds (x :: xs)) :
    q.nodes = q.front :: chain q.node xs.length (q.node q.front).next := by
  rw [nodes, ← h.length, List.length_cons, chain_succ]

theorem Holds.front_mem (h : q.Holds (x :: xs)) : q.front ∈ q.nodes := by
  rw [h.nodes_cons]
  exact List.mem_cons_self

theorem Holds.toNat_count_pred (h : q.Holds (x :: xs)) : (q.count - 1).toNat = xs.length := by
  have hlength := h.length
  rw [List.length_cons] at hlength
  have hlt := q.count.isLt
  have hpow : 1 < 2 ^ w := by omega
  have hone : (1 : BitVec w).toNat = 1 := Nat.mod_eq_of_lt hpow
  rw [BitVec.toNat_sub_of_le, hone]
  · omega
  · rw [BitVec.le_def, hone]
    omega

theorem Holds.nodes_takeFront (h : q.Holds (x :: xs)) (ha : a ∉ q.nodes) :
    q.nodes = q.front :: (q.takeFront a).nodes := by
  have hne : ∀ i ∈ q.nodes, i ≠ a := by
    rintro i hi rfl
    exact ha hi
  have hcount : (q.takeFront a).count.toNat = xs.length := h.toNat_count_pred
  have hrest : (q.takeFront a).nodes = chain q.node xs.length (q.node q.front).next := by
    rw [nodes, hcount, takeFront_front (hne _ h.front_mem)]
    refine chain_congr fun i hi => takeFront_node_of_ne (hne i ?_)
    rw [h.nodes_cons]
    exact List.mem_cons_of_mem _ hi
  rw [hrest, h.nodes_cons]

theorem Holds.takeFront (h : q.Holds (x :: xs)) (ha : a ∉ q.nodes) :
    (q.node q.front).val = x ∧ (q.takeFront a).Holds xs := by
  have hnodes := h.nodes_takeFront ha
  obtain ⟨hnodup, hnezero, hallocated, hrear, hvals⟩ := h
  rw [hnodes] at ha hnodup hnezero hallocated hrear hvals
  rw [List.map_cons, List.cons.injEq] at hvals
  obtain ⟨hfront, hnodup⟩ := List.nodup_cons.mp hnodup
  refine ⟨hvals.1, hnodup, ?_, ?_, ?_, ?_⟩
  · exact fun i hi => hnezero i (List.mem_cons_of_mem _ hi)
  · intro i hi
    refine (Function.update_of_ne ?_ _ _).trans (hallocated i (List.mem_cons_of_mem _ hi))
    rintro rfl
    exact hfront hi
  · intro i hi
    apply hrear i
    rw [List.getLast?_cons, hi]
    rfl
  · rw [← hvals.2]
    refine List.map_congr_left fun i hi => ?_
    rw [takeFront_node_of_ne]
    rintro rfl
    exact ha (List.mem_cons_of_mem _ hi)

theorem Holds.dequeue_cons (h : q.Holds (x :: xs)) (ha : q.Fresh a) (zero : V)
    (block : HeapNode w V) :
    ∃ q', q.dequeue zero a block = some (x, q') ∧ q'.Holds xs ∧
      ∀ i ∈ q'.accessed, i ∈ q.accessed ∨ i ∈ q.nodes := by
  have hnew : (q.newNode zero a block).Holds (x :: xs) := h.newNode ha
  have hnodes : (q.newNode zero a block).nodes = q.nodes := h.newNode_nodes ha
  have hfront := h.front_mem
  have hempty : ¬ (q.newNode zero a block).isEmpty = true := by
    intro hempty
    exact absurd (h.isEmpty_iff.mp hempty) (List.cons_ne_nil x xs)
  have haccess : (q.newNode zero a block).access q.front =
      some { q.newNode zero a block with accessed := q.front :: q.accessed } :=
    if_neg (h.ne_zero _ hfront)
  have hheld : { q.newNode zero a block with accessed := q.front :: q.accessed }.Holds (x :: xs) :=
    ⟨hnew.nodup, hnew.ne_zero, hnew.allocated, hnew.rear, hnew.vals⟩
  obtain ⟨hx, hxs⟩ := hheld.takeFront (a := a) (hnodes ▸ h.notMem_nodes ha)
  refine ⟨_, ?_, hxs, ?_⟩
  · rw [dequeue, if_neg hempty]
    change (((q.newNode zero a block).access q.front).map (HeapQueue.takeFront a)).map _ = _
    rw [haccess, Option.map_some, Option.map_some, takeFront_val_self, hx]
  · intro i hi
    rcases List.mem_cons.mp hi with rfl | hi
    · exact Or.inr hfront
    · exact Or.inl hi

theorem Holds.dequeue_nil (h : q.Holds []) (ha : q.Fresh a) (zero : V) (block : HeapNode w V) :
    ∃ q', q.dequeue zero a block = some (zero, q') ∧ q'.Holds [] ∧ q'.accessed = q.accessed := by
  have hempty : (q.newNode zero a block).isEmpty = true := h.isEmpty_iff.mpr rfl
  refine ⟨q.newNode zero a block, ?_, h.newNode ha, rfl⟩
  rw [dequeue, if_pos hempty, Option.map_some, newNode_val_self]

end HeapQueue
