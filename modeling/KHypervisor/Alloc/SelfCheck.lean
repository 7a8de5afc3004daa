import KHypervisor.Alloc.HeapRuns

/-!
# The check of the free list

`__malloc_check` goes round the free list and looks for blocks that are not in order. It takes every
descent of addresses for an error, unless it is at `base`. With `base` below the heap the descent is
at the last free block, so that a sound heap is reported exactly if there is free memory.
-/

namespace KHypervisor

open ByteMemory Arena Run

namespace Heap

variable {H : Heap} {b lo n : ℕ} {cs : List Cell} {fuel : ℕ}

theorem Represents.checkLoop_step (h : H.Represents b lo cs) {X Y : List Block} {c d : Block}
    (hsplit : blocks true lo cs = X ++ c :: d :: Y) (hne : addr c.start ≠ H.freep) :
    H.checkLoop (fuel + 1) (addr c.start) = H.checkLoop fuel (addr d.start) := by
  have hc : c ∈ blocks true lo cs := by simp [hsplit]
  have hd : d ∈ blocks true lo cs := by simp [hsplit]
  have hlt := h.lt
  have hbase := h.base_lt
  have hcpos := h.sound.pos_of_mem hc
  have hclow := bounds_of_mem hc
  have hdhigh := bounds_of_mem hd
  have horder : c.stop ≤ d.start := by
    have hall := pairwise_blocks true lo cs
    rw [hsplit] at hall
    exact (List.pairwise_cons.mp (List.pairwise_append.mp hall).2.1).1 d List.mem_cons_self
  have hnext : H.ptr (addr c.start) = addr d.start := by
    have hsorted := h.sorted
    have hstarts : starts (X ++ c :: d :: Y) = starts X ++ [c.start] ++ d.start :: starts Y := by
      simp [starts]
    rw [hsplit, hstarts] at hsorted
    simpa using hsorted.next_cons
  rw [Block.stop] at hclow hdhigh horder
  have hsize : H.size (addr c.start) ≠ 0 := by
    rw [h.sizes true c hc]
    intro heq
    have htoNat := congrArg BitVec.toNat heq
    rw [BitVec.toNat_ofNat, Nat.mod_eq_of_lt (by omega)] at htoNat
    have hzero : (0 : U32).toNat = 0 := rfl
    omega
  have hstop : addr c.start + H.size (addr c.start) * 8 = addr (c.start + c.size) := by
    rw [h.sizes true c hc, mul_comm]
    exact addr_add c.start c.size
  rw [checkLoop, hnext, hstop, if_neg (addr_ne_zero (by omega) (by omega)), if_neg, if_neg,
    if_neg fun heq => hsize heq.1, if_neg hne]
  · rw [addr_lt (by omega) (by omega)]
    omega
  · rw [addr_lt (by omega) (by omega)]
    omega

/-- The last free block is above `base`, which is taken for an error. -/
theorem Represents.checkLoop_last (h : H.Represents b lo cs) {X : List Block} {c : Block}
    (hsplit : blocks true lo cs = X ++ [c]) : H.checkLoop (fuel + 1) (addr c.start) = some 1 := by
  have hc : c ∈ blocks true lo cs := by simp [hsplit]
  have hlt := h.lt
  have hbase := h.base_lt
  have hcpos := h.sound.pos_of_mem hc
  have hclow := bounds_of_mem hc
  rw [Block.stop] at hclow
  have hnext : H.ptr (addr c.start) = addr b := by
    have hsorted := h.sorted
    rw [hsplit] at hsorted
    simpa [starts] using hsorted.next_nil
  have hne : addr c.start ≠ H.base := by
    rw [h.base, Ne, addr_inj (by omega) (by omega)]
    omega
  rw [checkLoop, hnext, if_neg (addr_ne_zero (by omega) (by omega)), if_pos]
  rw [addr_lt (by omega) (by omega)]
  exact ⟨by omega, hne⟩

/-- From a free block on, the check comes to the last one, if it does not meet `freep` before. -/
theorem Represents.checkLoop_walk (h : H.Represents b lo cs) {X : List Block} {Y : List Block}
    {c : Block} (hsplit : blocks true lo cs = X ++ c :: Y) (hfuel : Y.length + 1 ≤ fuel)
    (hne : ∀ d ∈ (c :: Y).dropLast, addr d.start ≠ H.freep) :
    H.checkLoop fuel (addr c.start) = some 1 := by
  induction Y generalizing X c fuel with
  | nil =>
      obtain ⟨fuel, rfl⟩ : ∃ k, fuel = k + 1 := ⟨fuel - 1, by omega⟩
      exact h.checkLoop_last hsplit
  | cons d Y ih =>
      obtain ⟨fuel, rfl⟩ : ∃ k, fuel = k + 1 := ⟨fuel - 1, by omega⟩
      rw [h.checkLoop_step hsplit (hne c (by simp))]
      refine ih (X := X ++ [c]) (by simp [hsplit]) (by simpa using hfuel) fun e he => ?_
      exact hne e (by simp [he])

/-- `base` is never taken for an error. -/
theorem Represents.checkLoop_base (h : H.Represents b lo cs) :
    H.checkLoop (fuel + 1) (addr b) =
      if addr b = H.freep then some 0 else H.checkLoop fuel (H.ptr (addr b)) := by
  have hlt := h.lt
  have hbase := h.base_lt
  rw [checkLoop, if_neg (addr_ne_zero (by omega) h.base_pos)]
  simp [h.base]

/-- The free blocks up to `freep`, and those after it. -/
theorem Represents.exists_freep (h : H.Represents b lo cs) :
    ∃ X Y, blocks true lo cs = X ++ Y ∧ H.freep = addr (lastNode b (starts X)) := by
  obtain ⟨v, hv, hfreep⟩ := List.mem_map.mp h.freep
  obtain ⟨xs, ys, hsplit, rfl⟩ := exists_split_of_mem hv
  obtain ⟨X, Y, hblocks, rfl, -⟩ := List.map_eq_append_iff.mp hsplit
  exact ⟨X, Y, hblocks, hfreep.symm⟩

/-- The check reports the heap if and only if there is a free cell. -/
theorem Represents.mallocCheck (h : H.Represents b lo cs) (hfuel : 2 ^ 29 + 2 ≤ fuel) :
    H.mallocCheck fuel = some (if blocks true lo cs = [] then 0 else 1) := by
  have hlength := h.length_le true
  have hlt := h.lt
  have hsorted := h.sorted
  obtain ⟨X, Y, hblocks, hfreep⟩ := h.exists_freep
  rw [Heap.mallocCheck, if_neg h.freep_ne_zero, hfreep]
  rw [hblocks, starts_append] at hsorted
  rw [hblocks, List.length_append] at hlength
  cases Y with
  | cons c Y =>
      rw [List.length_cons] at hlength
      rw [starts_cons] at hsorted
      rw [hsorted.next_cons, hblocks, if_neg (by simp)]
      refine h.checkLoop_walk hblocks (by omega) fun d hd => ?_
      rw [hfreep]
      exact (hsorted.addr_ne (lastNode_mem b _)
        (List.mem_map_of_mem (List.dropLast_subset _ hd))).symm
  | nil =>
      have hall : H.Sorted b (starts X) := by simpa [starts] using hsorted
      obtain ⟨fuel, rfl⟩ : ∃ k, fuel = k + 1 := ⟨fuel - 1, by omega⟩
      rw [List.append_nil] at hblocks
      rw [hall.next_nil, h.checkLoop_base, hblocks, hfreep]
      cases X with
      | nil => rw [starts, List.map_nil, lastNode_nil, if_pos rfl, if_pos rfl]
      | cons c X =>
          have hfirst : H.Sorted b ([] ++ c.start :: starts X) := hall
          have hmem : lastNode c.start (starts X) ∈ c.start :: starts X := lastNode_mem _ _
          have hnext : H.ptr (addr b) = addr c.start := hfirst.next_cons
          rw [starts_cons, lastNode_cons, if_neg (hfirst.addr_ne List.mem_cons_self hmem), hnext,
            if_neg (by simp)]
          rw [List.length_cons] at hlength
          refine h.checkLoop_walk (X := []) hblocks (by omega) fun d hd => ?_
          have hlast := List.dropLast_append_getLast (List.cons_ne_nil c X)
          have hend : lastNode b (starts (c :: X)) =
              ((c :: X).getLast (List.cons_ne_nil c X)).start := by
            conv_lhs => rw [← hlast, starts_append, lastNode_append]
            rfl
          rw [← hlast, starts_append] at hall
          rw [hfreep, hend]
          exact hall.addr_ne (List.mem_cons_of_mem b (List.mem_map_of_mem hd)) List.mem_cons_self

end Heap

namespace HeapRun

/-- The check of a heap that clients use as they should returns one, for an error, if and only if
there is a gap for a block, and zero otherwise. -/
theorem malloc_check_iff_gap (L : HeapLayout) (mem : Memory 32) (calls : List AllocCall)
    (hclient : ¬ Happened step Misuse (init L mem) calls) {s : HeapRun}
    (hrun : run step (init L mem) calls = some s) :
    ∃ r, s.heap.mallocCheck maxSteps = some r ∧ (r = 1 ↔ s.Gap L 0) ∧ (r = 0 ↔ ¬ s.Gap L 0) := by
  obtain ⟨cs, hinv⟩ := exists_inv L mem calls hclient hrun
  have hgap : s.Gap L 0 ↔ blocks true (L.beginHeap.toNat / 8) cs ≠ [] := by
    obtain ⟨m, freep, -, hrep, -⟩ := hinv.start
    rw [hinv.gap_iff]
    constructor
    · rintro ⟨c, hc, -⟩
      exact List.ne_nil_of_mem hc
    · intro hne
      obtain ⟨c, hc⟩ := List.exists_mem_of_ne_nil _ hne
      exact ⟨c, hc, hrep.sound.pos_of_mem hc⟩
  have hcheck : s.heap.mallocCheck maxSteps =
      some (if blocks true (L.beginHeap.toNat / 8) cs = [] then 0 else 1) := by
    rcases hinv.ready with hrep | ⟨hfreep, rfl, -⟩
    · exact hrep.mallocCheck (by decide)
    · rw [Heap.mallocCheck, if_pos hfreep, blocks_nil, if_pos rfl]
  refine ⟨_, hcheck, ?_, ?_⟩ <;> rw [hgap] <;> split <;> simp [*]

/-- A heap of which one block is used. -/
theorem malloc_check_iff_gap_one_block :
    ∃ s r, run step (init sampleLayout fun _ => 0xAA) [.malloc 100] = some s ∧
      s.heap.mallocCheck maxSteps = some r ∧ (r = 1 ↔ s.Gap sampleLayout 0) ∧
        (r = 0 ↔ ¬ s.Gap sampleLayout 0) := by
  obtain ⟨s, hrun⟩ := Option.isSome_iff_exists.mp
    (show (run step (init sampleLayout fun _ => 0xAA) [.malloc 100]).isSome by decide)
  obtain ⟨r, hr, hiff⟩ := malloc_check_iff_gap sampleLayout (fun _ => 0xAA) _ (by decide) hrun
  exact ⟨s, r, hrun, hr, hiff⟩

end HeapRun

end KHypervisor
