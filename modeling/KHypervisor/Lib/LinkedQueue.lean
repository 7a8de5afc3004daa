import Mathlib.Data.Int.Notation
import Mathlib.Data.List.Basic
import Mathlib.Logic.Function.Basic

/-!
# Queues in linked cells

A first-in first-out queue in cells that are linked one way, with a front, a rear and a count of
its elements. Cells are numbered in the order in which they are allocated, and `malloc` says for
which of them there is a block: nobody checks, so that there is no result without one. The count
decides whether the queue is empty, so that what an empty queue points to does not matter, nor what
the last cell does.
-/

structure Cell (V : Type) where
  val : V
  next : Option ℕ

structure LinkedQueue (V : Type) where
  cell : ℕ → Cell V
  nrCells : ℕ
  front : Option ℕ
  rear : Option ℕ
  count : ℤ

namespace LinkedQueue

variable {V : Type}

/-! ## Operations -/

/-- The queue is made empty. Its cells, if there are any, are lost. -/
def init (q : LinkedQueue V) : LinkedQueue V := { q with front := none, rear := none, count := 0 }

def isEmpty (q : LinkedQueue V) : Bool := q.count = 0

def newCell (v : V) (q : LinkedQueue V) : LinkedQueue V :=
  { q with
    cell := Function.update q.cell q.nrCells { q.cell q.nrCells with val := v }
    nrCells := q.nrCells + 1 }

def alloc (malloc : ℕ → Bool) (v : V) (q : LinkedQueue V) : Option (LinkedQueue V) :=
  if malloc q.nrCells then some (q.newCell v) else none

/-- There are blocks for `n` cells from the cell `first` on. -/
def HasBlocks (malloc : ℕ → Bool) (first n : ℕ) : Prop := ∀ k < n, malloc (first + k) = true

instance (malloc : ℕ → Bool) (first n : ℕ) : Decidable (HasBlocks malloc first n) :=
  inferInstanceAs (Decidable (∀ k < n, malloc (first + k) = true))

def setNext (i : ℕ) (next : Option ℕ) (q : LinkedQueue V) : LinkedQueue V :=
  { q with cell := Function.update q.cell i { q.cell i with next := next } }

/-- An element is added at the rear. There is no result where the rear of a queue that is not empty
is null. -/
def enqueue (malloc : ℕ → Bool) (v : V) (q : LinkedQueue V) : Option (LinkedQueue V) := do
  let new := q.nrCells
  let q ← q.alloc malloc v
  let linked := if q.isEmpty then some { q with front := some new }
    else q.rear.map fun i => q.setNext i (some new)
  linked.map fun q => { q with rear := some new, count := q.count + 1 }

/-- The element at the front is taken, or there is only a default value. The cell that it is put
together in is lost. There is no result where the front of a queue that is not empty is null. -/
def dequeue (malloc : ℕ → Bool) (zero : V) (q : LinkedQueue V) :
    Option (V × LinkedQueue V) := do
  let q ← q.alloc malloc zero
  if q.isEmpty then some (zero, q)
  else q.front.map fun i =>
    ((q.cell i).val, { q with front := (q.cell i).next, count := q.count - 1 })

def enqueueAll (malloc : ℕ → Bool) (vs : List V) (q : LinkedQueue V) : Option (LinkedQueue V) :=
  vs.foldlM (fun q v => q.enqueue malloc v) q

/-! ## What a queue holds -/

/-- The links lead from one pointer through the cells of a list to another pointer. -/
def Path (cell : ℕ → Cell V) : Option ℕ → List ℕ → Option ℕ → Prop
  | p, [], r => p = r
  | p, i :: is, r => p = some i ∧ Path cell (cell i).next is r

/-- The elements `xs` are in the cells `is` and a last one, linked from the front to the rear. -/
structure HoldsIn (q : LinkedQueue V) (is : List ℕ) (last : ℕ) (xs : List V) : Prop where
  count : q.count = is.length + 1
  path : Path q.cell q.front is (some last)
  rear : q.rear = some last
  lt : ∀ i ∈ is ++ [last], i < q.nrCells
  not_mem : last ∉ is
  vals : (is ++ [last]).map (fun i => (q.cell i).val) = xs

/-- The queue holds the elements `xs`, the first of which is at the front. -/
def Holds (q : LinkedQueue V) (xs : List V) : Prop :=
  (xs = [] ∧ q.count = 0) ∨ ∃ is last, q.HoldsIn is last xs

variable {malloc : ℕ → Bool} {q q' : LinkedQueue V} {xs : List V} {cell cell' : ℕ → Cell V}
  {p r : Option ℕ} {is : List ℕ} {last : ℕ}

theorem path_concat (i : ℕ) :
    Path cell p (is ++ [i]) r ↔ Path cell p is (some i) ∧ (cell i).next = r := by
  induction is generalizing p with
  | nil => rfl
  | cons j is ih => rw [List.cons_append, Path, Path, ih, and_assoc]

theorem Path.congr (h : Path cell p is r) (hsame : ∀ i ∈ is, cell' i = cell i) :
    Path cell' p is r := by
  induction is generalizing p with
  | nil => exact h
  | cons i is ih =>
      obtain ⟨hi, hrest⟩ := List.forall_mem_cons.mp hsame
      exact ⟨h.1, ih (hi ▸ h.2) hrest⟩

theorem hasBlocks_add {first m n : ℕ} :
    HasBlocks malloc first (m + n) ↔
      HasBlocks malloc first m ∧ HasBlocks malloc (first + m) n := by
  constructor
  · intro h
    refine ⟨fun k hk => h k (Nat.lt_add_right n hk), fun k hk => ?_⟩
    rw [Nat.add_assoc]
    exact h (m + k) (Nat.add_lt_add_left hk m)
  · rintro ⟨hm, hn⟩ k hk
    rcases Nat.lt_or_ge k m with hlt | hge
    · exact hm k hlt
    · obtain ⟨j, rfl⟩ := Nat.exists_eq_add_of_le hge
      rw [← Nat.add_assoc]
      exact hn j (Nat.lt_of_add_lt_add_left hk)

theorem hasBlocks_zero (first : ℕ) : HasBlocks malloc first 0 :=
  fun k hk => absurd hk (Nat.not_lt_zero k)

theorem hasBlocks_one {first : ℕ} : HasBlocks malloc first 1 ↔ malloc first = true := by
  constructor
  · exact fun h => h 0 Nat.one_pos
  · intro h k hk
    obtain rfl := Nat.lt_one_iff.mp hk
    exact h

theorem holds_init (q : LinkedQueue V) : q.init.Holds [] := .inl ⟨rfl, rfl⟩

theorem HoldsIn.ne_nil (h : q.HoldsIn is last xs) : xs ≠ [] := by
  rw [← h.vals]
  simp

theorem HoldsIn.not_isEmpty (h : q.HoldsIn is last xs) : q.isEmpty = false := by
  rw [isEmpty, decide_eq_false_iff_not, h.count]
  omega

theorem Holds.isEmpty_iff (h : q.Holds xs) : q.isEmpty = true ↔ xs = [] := by
  rcases h with ⟨rfl, hcount⟩ | ⟨is, last, h⟩
  · exact iff_of_true (by rw [isEmpty, hcount]; rfl) rfl
  · rw [h.not_isEmpty]
    exact iff_of_false Bool.false_ne_true h.ne_nil

theorem Holds.isEmpty_cons {x : V} (h : q.Holds (x :: xs)) : q.isEmpty = false := by
  rw [Bool.eq_false_iff]
  exact fun hempty => List.cons_ne_nil x xs (h.isEmpty_iff.mp hempty)

theorem Holds.exists_cons (h : q.Holds xs) (hempty : q.isEmpty = false) :
    ∃ x xs', xs = x :: xs' := by
  refine List.exists_cons_of_ne_nil fun hnil => ?_
  rw [h.isEmpty_iff.mpr hnil] at hempty
  cases hempty

theorem alloc_eq_some (h : malloc q.nrCells = true) (v : V) :
    q.alloc malloc v = some (q.newCell v) :=
  if_pos h

theorem malloc_of_alloc {v : V} (h : q.alloc malloc v = some q') :
    malloc q.nrCells = true ∧ q' = q.newCell v := by
  rw [alloc] at h
  split at h
  · rename_i hblock
    exact ⟨hblock, (Option.some.inj h).symm⟩
  · exact absurd h.symm (Option.some_ne_none _)

theorem HoldsIn.newCell (h : q.HoldsIn is last xs) (v : V) : (q.newCell v).HoldsIn is last xs := by
  have hold : ∀ i ∈ is ++ [last], (q.newCell v).cell i = q.cell i := fun i hi =>
    Function.update_of_ne (Nat.ne_of_lt (h.lt i hi)) ..
  refine ⟨h.count, h.path.congr fun i hi => hold i (List.mem_append_left _ hi), h.rear,
    fun i hi => Nat.lt_succ_of_lt (h.lt i hi), h.not_mem, ?_⟩
  rw [← h.vals]
  exact List.map_congr_left fun i hi => by rw [hold i hi]

theorem Holds.newCell (h : q.Holds xs) (v : V) : (q.newCell v).Holds xs := by
  rcases h with hnil | ⟨is, last, h⟩
  · exact .inl hnil
  · exact .inr ⟨is, last, h.newCell v⟩

theorem enqueue_empty (hcount : q.count = 0) (hblock : malloc q.nrCells = true) (v : V) :
    ∃ q', q.enqueue malloc v = some q' ∧ q'.HoldsIn [] q.nrCells [v] := by
  have hempty : (q.newCell v).isEmpty = true := by rw [isEmpty, newCell, hcount]; rfl
  refine ⟨_, by rw [enqueue, alloc_eq_some hblock, Option.bind_eq_bind, Option.bind_some,
    if_pos hempty]; rfl, ?_⟩
  refine ⟨?_, rfl, rfl, ?_, List.not_mem_nil, ?_⟩
  · simp [newCell, hcount]
  · simp [newCell]
  · simp [newCell]

theorem HoldsIn.enqueue (h : q.HoldsIn is last xs) (hblock : malloc q.nrCells = true) (v : V) :
    ∃ q', q.enqueue malloc v = some q' ∧ q'.HoldsIn (is ++ [last]) q.nrCells (xs ++ [v]) := by
  have hrear : (q.newCell v).rear = some last := h.rear
  have hempty : (q.newCell v).isEmpty = false := h.not_isEmpty
  have hold : ∀ i ∈ is ++ [last], i ≠ q.nrCells := fun i hi => Nat.ne_of_lt (h.lt i hi)
  have hlast : last ≠ q.nrCells := hold last (by simp)
  refine ⟨_, by rw [LinkedQueue.enqueue, alloc_eq_some hblock, Option.bind_eq_bind,
    Option.bind_some, hempty, hrear]; rfl, ?_⟩
  constructor
  · simp [setNext, LinkedQueue.newCell, h.count]
  · rw [path_concat]
    refine ⟨h.path.congr fun i hi => ?_, by simp [setNext]⟩
    have hne : i ≠ last := fun heq => h.not_mem (heq ▸ hi)
    simp [setNext, LinkedQueue.newCell, hne, hold i (List.mem_append_left _ hi)]
  · rfl
  · intro i hi
    rcases List.mem_append.mp hi with hi | hi
    · exact Nat.lt_succ_of_lt (h.lt i hi)
    · rw [List.mem_singleton.mp hi]
      exact Nat.lt_succ_self _
  · exact fun hmem => hold _ hmem rfl
  · rw [← h.vals, List.map_append]
    refine congrArg₂ (· ++ ·) (List.map_congr_left fun i hi => ?_) ?_
    · by_cases hi' : i = last
      · simp [setNext, LinkedQueue.newCell, hi', hlast]
      · simp [setNext, LinkedQueue.newCell, hi', hold i hi]
    · simp [setNext, LinkedQueue.newCell, hlast.symm]

theorem Holds.enqueue (h : q.Holds xs) (hblock : malloc q.nrCells = true) (v : V) :
    ∃ q', q.enqueue malloc v = some q' ∧ q'.Holds (xs ++ [v]) := by
  rcases h with ⟨rfl, hcount⟩ | ⟨is, last, h⟩
  · obtain ⟨q', hq', hholds⟩ := enqueue_empty hcount hblock v
    exact ⟨q', hq', .inr ⟨_, _, hholds⟩⟩
  · obtain ⟨q', hq', hholds⟩ := h.enqueue hblock v
    exact ⟨q', hq', .inr ⟨_, _, hholds⟩⟩

theorem malloc_of_enqueue {v : V} (h : q.enqueue malloc v = some q') :
    malloc q.nrCells = true ∧ q'.nrCells = q.nrCells + 1 := by
  obtain ⟨q₁, halloc, h⟩ := Option.bind_eq_some_iff.mp h
  obtain ⟨hblock, rfl⟩ := malloc_of_alloc halloc
  obtain ⟨q₂, hlinked, rfl⟩ := Option.map_eq_some_iff.mp h
  refine ⟨hblock, ?_⟩
  split at hlinked
  · rw [← Option.some.inj hlinked]
    rfl
  · obtain ⟨i, -, rfl⟩ := Option.map_eq_some_iff.mp hlinked
    rfl

theorem Holds.dequeue_cons {x : V} (h : q.Holds (x :: xs)) (hblock : malloc q.nrCells = true)
    (zero : V) :
    ∃ q', q.dequeue malloc zero = some (x, q') ∧ q'.Holds xs := by
  rcases h.newCell zero with ⟨hnil, -⟩ | ⟨is, last, h⟩
  · exact absurd hnil (List.cons_ne_nil _ _)
  have hvals := h.vals
  rw [dequeue, alloc_eq_some hblock, Option.bind_eq_bind, Option.bind_some, h.not_isEmpty,
    if_neg Bool.false_ne_true]
  cases is with
  | nil =>
      obtain ⟨rfl, rfl⟩ := List.cons.inj hvals
      refine ⟨_, by rw [show (q.newCell zero).front = some last from h.path]; rfl, ?_⟩
      exact .inl ⟨rfl, by simp [h.count]⟩
  | cons i is =>
      obtain ⟨rfl, hrest⟩ := List.cons.inj hvals
      obtain ⟨hfront, hpath⟩ := h.path
      refine ⟨_, by rw [hfront]; rfl, .inr ⟨is, last, ?_⟩⟩
      refine ⟨?_, hpath, h.rear, fun j hj => h.lt j (List.mem_cons_of_mem i hj),
        fun hmem => h.not_mem (List.mem_cons_of_mem i hmem), hrest⟩
      simp [h.count]

theorem Holds.dequeue_nil (h : q.Holds []) (hblock : malloc q.nrCells = true) (zero : V) :
    ∃ q', q.dequeue malloc zero = some (zero, q') ∧ q'.Holds [] := by
  have hnew := h.newCell zero
  refine ⟨q.newCell zero, ?_, hnew⟩
  rw [dequeue, alloc_eq_some hblock, Option.bind_eq_bind, Option.bind_some,
    if_pos (hnew.isEmpty_iff.mpr rfl)]

theorem malloc_of_dequeue {zero : V} {r : V × LinkedQueue V} (h : q.dequeue malloc zero = some r) :
    malloc q.nrCells = true ∧ r.2.nrCells = q.nrCells + 1 := by
  obtain ⟨q₁, halloc, h⟩ := Option.bind_eq_some_iff.mp h
  obtain ⟨hblock, rfl⟩ := malloc_of_alloc halloc
  refine ⟨hblock, ?_⟩
  split at h
  · rw [← Option.some.inj h]
    rfl
  · obtain ⟨i, -, rfl⟩ := Option.map_eq_some_iff.mp h
    rfl

/-! ## Many elements -/

/-- Elements are added in their order, if there is a block for each of them. -/
theorem Holds.enqueueAll (h : q.Holds xs) {vs : List V}
    (hblocks : HasBlocks malloc q.nrCells vs.length) :
    ∃ q', q.enqueueAll malloc vs = some q' ∧ q'.Holds (xs ++ vs) := by
  induction vs generalizing q xs with
  | nil => exact ⟨q, rfl, by rwa [List.append_nil]⟩
  | cons v vs ih =>
      rw [List.length_cons, Nat.add_comm, hasBlocks_add, hasBlocks_one] at hblocks
      obtain ⟨q₁, hq₁, hholds⟩ := h.enqueue hblocks.1 v
      obtain ⟨q', hq', hholds'⟩ := ih hholds (by
        rw [(malloc_of_enqueue hq₁).2]
        exact hblocks.2)
      refine ⟨q', ?_, by rwa [List.append_assoc] at hholds'⟩
      rw [LinkedQueue.enqueueAll, List.foldlM_cons, hq₁, Option.bind_eq_bind, Option.bind_some]
      exact hq'

theorem hasBlocks_of_enqueueAll {vs : List V} (h : q.enqueueAll malloc vs = some q') :
    HasBlocks malloc q.nrCells vs.length ∧ q'.nrCells = q.nrCells + vs.length := by
  induction vs generalizing q with
  | nil =>
      rw [← Option.some.inj h]
      exact ⟨hasBlocks_zero _, rfl⟩
  | cons v vs ih =>
      rw [enqueueAll, List.foldlM_cons] at h
      obtain ⟨q₁, hq₁, h⟩ := Option.bind_eq_some_iff.mp h
      obtain ⟨hblock, hnr⟩ := malloc_of_enqueue hq₁
      obtain ⟨hblocks, hlast⟩ := ih h
      rw [hnr] at hblocks hlast
      rw [List.length_cons, Nat.add_comm vs.length, hasBlocks_add, hasBlocks_one, hlast]
      exact ⟨⟨hblock, hblocks⟩, Nat.add_assoc ..⟩

end LinkedQueue
