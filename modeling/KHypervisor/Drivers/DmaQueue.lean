import KHypervisor.Drivers.Sun4iDma
import KHypervisor.Lib.HeapQueue
import KHypervisor.Lib.Run

/-!
# The queue of transfers on the heap

`Enqueue` and `Dequeue` of `sun4i-dma.c` with what `malloc` does: every entry is in a block that
`Dequeue` frees, and that `malloc` may hand out again, with whatever its link was. The transfers
come out in the order that they went in, and no pointer is followed but to an entry of the queue.
The model of the copy, whose cells are never freed, is one that these operations agree with.
-/

namespace KHypervisor

open Run

/-- `dma_wait`, as it is in a block of the heap. -/
abbrev DmaNode := HeapNode 32 DmaWait

/-- A call of one of the functions, with the block that `malloc` returns in it. -/
inductive QueueCall
  | initQueue
  | enqueue (srcAddr dstAddr : U32) (bc : ℤ) (block : U32) (content : DmaNode)
  | dequeue (block : U32) (content : DmaNode)

/-- The queue, the transfers that have been enqueued since the last `InitQueue`, how many of them
have been dequeued, and what the last call returned. -/
structure QueueRun where
  queue : HeapQueue 32 DmaWait
  enqueued : List DmaWait
  dequeued : ℕ
  returned : Option DmaWait

namespace QueueRun

/-- `InitQueue`, on any memory. -/
def init (q : HeapQueue 32 DmaWait) : QueueRun := ⟨q.init, [], 0, none⟩

/-- The calls. There is no result where a null pointer is followed. -/
def step (s : QueueRun) (call : QueueCall) : Option QueueRun :=
  let q := { s.queue with accessed := [] }
  match call with
  | .initQueue => some (init q)
  | .enqueue srcAddr dstAddr bc block content =>
      (q.enqueue ⟨srcAddr, dstAddr, bc⟩ block content).map fun q =>
        ⟨q, s.enqueued ++ [⟨srcAddr, dstAddr, bc⟩], s.dequeued, none⟩
  | .dequeue block content =>
      (q.dequeue DmaWait.zero block content).map fun r =>
        ⟨r.2, s.enqueued, min (s.dequeued + 1) s.enqueued.length, some r.1⟩

/-- `malloc` returns a block that is not in use. -/
def MallocFresh (s : QueueRun) : QueueCall → Prop
  | .initQueue => True
  | .enqueue _ _ _ block _ => s.queue.Fresh block
  | .dequeue block _ => s.queue.Fresh block

instance (s : QueueRun) : DecidablePred s.MallocFresh
  | .initQueue => inferInstanceAs (Decidable True)
  | .enqueue _ _ _ block _ => inferInstanceAs (Decidable (s.queue.Fresh block))
  | .dequeue block _ => inferInstanceAs (Decidable (s.queue.Fresh block))

/-- A transfer is returned in its turn, or zeros if there is none; the queue is empty when all
transfers have been dequeued; and what is accessed are entries of the queue, none of them freed. -/
structure Lawful (s : QueueRun) (call : QueueCall) (t : QueueRun) : Prop where
  order : ∀ block content, call = .dequeue block content →
    t.returned = some ((s.enqueued[s.dequeued]?).getD DmaWait.zero)
  isEmpty : t.queue.isEmpty = true ↔ t.dequeued = t.enqueued.length
  accessed : ∀ i ∈ t.queue.accessed, i ∈ s.queue.nodes ∧ s.queue.allocated i = true

/-- The queue holds what has been enqueued and not dequeued. -/
structure Inv (s : QueueRun) : Prop where
  holds : s.queue.Holds (s.enqueued.drop s.dequeued)
  le : s.dequeued ≤ s.enqueued.length

variable {s : QueueRun} {call : QueueCall}

theorem inv_init (q : HeapQueue 32 DmaWait) : (init q).Inv :=
  ⟨q.holds_init, Nat.le_refl 0⟩

theorem Inv.reset (h : s.Inv) :
    { s.queue with accessed := [] }.Holds (s.enqueued.drop s.dequeued) :=
  ⟨h.holds.nodup, h.holds.ne_zero, h.holds.allocated, h.holds.rear, h.holds.vals⟩

theorem Inv.isEmpty_iff (h : s.Inv) :
    s.queue.isEmpty = true ↔ s.dequeued = s.enqueued.length := by
  rw [h.holds.isEmpty_iff, List.drop_eq_nil_iff]
  exact ⟨Nat.le_antisymm h.le, fun heq => heq.ge⟩

theorem Inv.accessed {accessed : List U32} (h : s.Inv)
    (hnodes : ∀ i ∈ accessed, i ∈ ([] : List U32) ∨ i ∈ s.queue.nodes) :
    ∀ i ∈ accessed, i ∈ s.queue.nodes ∧ s.queue.allocated i = true := by
  intro i hi
  have hmem := (hnodes i hi).resolve_left List.not_mem_nil
  exact ⟨hmem, h.holds.allocated i hmem⟩

theorem step_enqueue (h : s.Inv) (srcAddr dstAddr : U32) (bc : ℤ) {block : U32}
    (hblock : s.queue.Fresh block) (content : DmaNode) :
    ∃ t, step s (.enqueue srcAddr dstAddr bc block content) = some t ∧
      Lawful s (.enqueue srcAddr dstAddr bc block content) t ∧ t.Inv := by
  obtain ⟨q', hq', hholds, haccessed⟩ := h.reset.enqueue hblock ⟨srcAddr, dstAddr, bc⟩ content
  have hinv : Inv ⟨q', s.enqueued ++ [⟨srcAddr, dstAddr, bc⟩], s.dequeued, none⟩ := by
    constructor
    · rw [List.drop_append_of_le_length h.le]
      exact hholds
    · rw [List.length_append]
      exact Nat.le_add_right_of_le h.le
  refine ⟨_, ?_, ⟨?_, hinv.isEmpty_iff, h.accessed haccessed⟩, hinv⟩
  · rw [step, hq', Option.map_some]
  · intro _ _ heq
    cases heq

theorem step_dequeue (h : s.Inv) {block : U32} (hblock : s.queue.Fresh block)
    (content : DmaNode) :
    ∃ t, step s (.dequeue block content) = some t ∧ Lawful s (.dequeue block content) t ∧
      t.Inv := by
  have hreset := h.reset
  cases hdrop : s.enqueued.drop s.dequeued with
  | nil =>
      rw [hdrop] at hreset
      have hall : s.enqueued.length ≤ s.dequeued := List.drop_eq_nil_iff.mp hdrop
      obtain ⟨q', hq', hholds, haccessed⟩ := hreset.dequeue_nil hblock DmaWait.zero content
      have hinv : Inv ⟨q', s.enqueued, min (s.dequeued + 1) s.enqueued.length,
          some DmaWait.zero⟩ := by
        refine ⟨?_, Nat.min_le_right _ _⟩
        rw [Nat.min_eq_right (Nat.le_succ_of_le hall), List.drop_length]
        exact hholds
      refine ⟨_, ?_, ⟨?_, hinv.isEmpty_iff, ?_⟩, hinv⟩
      · rw [step, hq', Option.map_some]
      · intro _ _ _
        rw [List.getElem?_eq_none hall, Option.getD_none]
      · intro i hi
        rw [haccessed] at hi
        exact absurd hi List.not_mem_nil
  | cons x xs =>
      rw [hdrop] at hreset
      have hlt : s.dequeued < s.enqueued.length := by
        by_contra hge
        rw [List.drop_eq_nil_of_le (not_lt.mp hge)] at hdrop
        cases hdrop
      rw [List.drop_eq_getElem_cons hlt, List.cons.injEq] at hdrop
      obtain ⟨q', hq', hholds, haccessed⟩ := hreset.dequeue_cons hblock DmaWait.zero content
      have hinv : Inv ⟨q', s.enqueued, min (s.dequeued + 1) s.enqueued.length, some x⟩ := by
        refine ⟨?_, Nat.min_le_right _ _⟩
        rw [Nat.min_eq_left (Nat.succ_le_of_lt hlt), hdrop.2]
        exact hholds
      refine ⟨_, ?_, ⟨?_, hinv.isEmpty_iff, h.accessed haccessed⟩, hinv⟩
      · rw [step, hq', Option.map_some]
      · intro _ _ _
        rw [List.getElem?_eq_getElem hlt, Option.getD_some, hdrop.1]

theorem step_initQueue (s : QueueRun) :
    ∃ t, step s .initQueue = some t ∧ Lawful s .initQueue t ∧ t.Inv := by
  refine ⟨_, rfl, ⟨?_, (inv_init _).isEmpty_iff, ?_⟩, inv_init _⟩
  · intro _ _ heq
    cases heq
  · exact fun i hi => absurd hi List.not_mem_nil

/-- As long as `malloc` returns fresh blocks, whatever they contain, the queue is one of the
transfers in their order. -/
theorem dma_queue_fifo (q : HeapQueue 32 DmaWait) (calls : List QueueCall)
    (hmalloc : ¬ Happened step (fun s call => ¬ s.MallocFresh call) (init q) calls) :
    Follows step Lawful (init q) calls := by
  apply follows_unless (I := fun _ => Inv) (n := 0) (inv_init q) hmalloc
  intro _ _ u call _ hu hfresh
  have hfresh : u.MallocFresh call := not_not.mp hfresh
  cases call with
  | initQueue => exact step_initQueue u
  | enqueue srcAddr dstAddr bc block content =>
      exact step_enqueue hu srcAddr dstAddr bc hfresh content
  | dequeue block content => exact step_dequeue hu hfresh content

def emptyHeap : HeapQueue 32 DmaWait := ⟨fun _ => ⟨⟨0, 0, 0⟩, 0xDEAD⟩, fun _ => false, [], 7, 9, 5⟩

/-- The queue is emptied and filled again, in the block that was freed. -/
theorem dma_queue_fifo_refilled :
    Follows step Lawful (init emptyHeap)
      [.enqueue 1 2 3 0x1000 ⟨⟨9, 9, 9⟩, 0xDEAD⟩, .dequeue 0x2000 ⟨⟨9, 9, 9⟩, 0xDEAD⟩,
        .enqueue 4 5 6 0x1000 ⟨⟨9, 9, 9⟩, 0xBEEF⟩, .enqueue 7 8 9 0x3000 ⟨⟨9, 9, 9⟩, 0⟩,
        .dequeue 0x4000 ⟨⟨9, 9, 9⟩, 0xDEAD⟩, .dequeue 0x5000 ⟨⟨9, 9, 9⟩, 0xDEAD⟩] :=
  dma_queue_fifo emptyHeap _ (by decide)

end QueueRun

/-! ## The queue of the copy -/

section LinkedQueue

variable {q q' : HeapQueue 32 DmaWait} {l : LinkedQueue DmaWait} {malloc : ℕ → Bool}

/-- The queue on the heap and the one whose cells are never freed hold the same. -/
def Agrees (q : HeapQueue 32 DmaWait) (l : LinkedQueue DmaWait) : Prop :=
  ∃ xs, q.Holds xs ∧ l.Holds xs

def linkedStep (malloc : ℕ → Bool) (t : LinkedQueue DmaWait × Option DmaWait) :
    QueueCall → Option (LinkedQueue DmaWait × Option DmaWait)
  | .initQueue => some (t.1.init, none)
  | .enqueue srcAddr dstAddr bc _ _ =>
      (t.1.enqueue malloc ⟨srcAddr, dstAddr, bc⟩).map fun l => (l, none)
  | .dequeue _ _ => (t.1.dequeue malloc DmaWait.zero).map fun r => (r.2, some r.1)

theorem Agrees.init (q : HeapQueue 32 DmaWait) (l : LinkedQueue DmaWait) :
    Agrees q.init l.init :=
  ⟨[], q.holds_init, l.holds_init⟩

theorem Agrees.enqueue {block : U32} (h : Agrees q l) (hblock : q.Fresh block)
    (hmalloc : malloc l.nrCells = true) (v : DmaWait) (content : DmaNode) :
    ∃ q' l', q.enqueue v block content = some q' ∧ l.enqueue malloc v = some l' ∧
      Agrees q' l' := by
  obtain ⟨xs, hq, hl⟩ := h
  obtain ⟨q', hq', hholds, -⟩ := hq.enqueue hblock v content
  obtain ⟨l', hl', hholds'⟩ := hl.enqueue hmalloc v
  exact ⟨q', l', hq', hl', _, hholds, hholds'⟩

theorem Agrees.dequeue {block : U32} (h : Agrees q l) (hblock : q.Fresh block)
    (hmalloc : malloc l.nrCells = true) (content : DmaNode) :
    ∃ x q' l', q.dequeue DmaWait.zero block content = some (x, q') ∧
      l.dequeue malloc DmaWait.zero = some (x, l') ∧ Agrees q' l' := by
  obtain ⟨xs, hq, hl⟩ := h
  cases xs with
  | nil =>
      obtain ⟨q', hq', hholds, -⟩ := hq.dequeue_nil hblock DmaWait.zero content
      obtain ⟨l', hl', hholds'⟩ := hl.dequeue_nil hmalloc DmaWait.zero
      exact ⟨_, q', l', hq', hl', [], hholds, hholds'⟩
  | cons x xs =>
      obtain ⟨q', hq', hholds, -⟩ := hq.dequeue_cons hblock DmaWait.zero content
      obtain ⟨l', hl', hholds'⟩ := hl.dequeue_cons hmalloc DmaWait.zero
      exact ⟨x, q', l', hq', hl', xs, hholds, hholds'⟩

theorem linkedStep_simulates {s : QueueRun} {r : Option DmaWait} {call : QueueCall}
    (h : Agrees s.queue l) (hfresh : s.MallocFresh call) (hmalloc : ∀ k, malloc k = true) :
    ∃ s' t, QueueRun.step s call = some s' ∧ linkedStep malloc (l, r) call = some t ∧
      s'.returned = t.2 ∧ Agrees s'.queue t.1 := by
  have hreset : Agrees { s.queue with accessed := [] } l := by
    obtain ⟨xs, hq, hl⟩ := h
    exact ⟨xs, ⟨hq.nodup, hq.ne_zero, hq.allocated, hq.rear, hq.vals⟩, hl⟩
  cases call with
  | initQueue => exact ⟨_, _, rfl, rfl, rfl, .init _ l⟩
  | enqueue srcAddr dstAddr bc block content =>
      obtain ⟨q', l', hq', hl', hagrees⟩ :=
        hreset.enqueue hfresh (hmalloc _) ⟨srcAddr, dstAddr, bc⟩ content
      refine ⟨⟨q', s.enqueued ++ [⟨srcAddr, dstAddr, bc⟩], s.dequeued, none⟩, (l', none), ?_, ?_,
        rfl, hagrees⟩
      · rw [QueueRun.step, hq', Option.map_some]
      · rw [linkedStep, hl', Option.map_some]
  | dequeue block content =>
      obtain ⟨x, q', l', hq', hl', hagrees⟩ := hreset.dequeue hfresh (hmalloc _) content
      refine ⟨⟨q', s.enqueued, min (s.dequeued + 1) s.enqueued.length, some x⟩, (l', some x),
        ?_, ?_, rfl, hagrees⟩
      · rw [QueueRun.step, hq', Option.map_some]
      · rw [linkedStep, hl', Option.map_some]

/-- As long as `malloc` returns fresh blocks, the queue of the copy returns in any run of calls what
the queue on the heap does. -/
theorem linked_simulates {s : QueueRun} {t : LinkedQueue DmaWait × Option DmaWait}
    (h : Agrees s.queue t.1) (hreturned : s.returned = t.2) (calls : List QueueCall)
    (hfresh : ¬ Happened QueueRun.step (fun s call => ¬ s.MallocFresh call) s calls)
    (hmalloc : ∀ k, malloc k = true) :
    ∃ s' t', run QueueRun.step s calls = some s' ∧ run (linkedStep malloc) t calls = some t' ∧
      s'.returned = t'.2 ∧ Agrees s'.queue t'.1 := by
  induction calls generalizing s t with
  | nil => exact ⟨s, t, rfl, rfl, hreturned, h⟩
  | cons call calls ih =>
      obtain ⟨hnow, hlater⟩ := not_or.mp hfresh
      obtain ⟨s₁, t₁, hs₁, ht₁, hreturned₁, hagrees⟩ :=
        linkedStep_simulates (r := t.2) h (not_not.mp hnow) hmalloc
      obtain ⟨s', t', hs', ht', hlast⟩ :=
        ih hagrees hreturned₁ fun hall => hlater ⟨s₁, hs₁, hall⟩
      refine ⟨s', t', ?_, ?_, hlast⟩
      · rw [run_cons, hs₁, Option.bind_some, hs']
      · rw [run_cons, ht₁, Option.bind_some, ht']

end LinkedQueue

end KHypervisor
