import KHypervisor.Alloc.FreeList

/-!
# The allocator as operations on cells

`free` releases a cell of the arena, and `malloc` takes the end of a free cell that is big enough
or, if there is none, extends the arena by a free cell. Both write headers of free blocks, of
`base` and of the block itself alone.
-/

namespace KHypervisor

open ByteMemory Arena

namespace Heap

variable {H : Heap} {b lo n u : ℕ} {A B cs : List Cell} {fuel : ℕ}

theorem starts_append (bs cs : List Block) : starts (bs ++ cs) = starts bs ++ starts cs :=
  List.map_append

theorem starts_cons (c : Block) (cs : List Block) : starts (c :: cs) = c.start :: starts cs := rfl

theorem toNat_addr_div {u : ℕ} (hu : u < 2 ^ 29) : (addr u).toNat / 8 = u := by
  rw [toNat_addr hu, Nat.mul_div_cancel_left u (by decide)]

theorem sameOff_setPtr {u : ℕ} (hu : u < 2 ^ 29) (H : Heap) (v : U32) :
    SameOff {u} H.mem (H.setPtr (addr u) v).mem := by
  have h := sameOff_setFirst H.mem v (by decide) (aligned_addr u)
  rwa [toNat_addr_div hu] at h

theorem sameOff_setSize {u : ℕ} (hu : u < 2 ^ 29) (H : Heap) (v : U32) :
    SameOff {u} H.mem (H.setSize (addr u) v).mem := by
  have h := sameOff_setSecond H.mem v (by decide) (aligned_addr u)
  rwa [toNat_addr_div hu] at h

theorem exists_setPtr (hu : u < 2 ^ 29) (H : Heap) (v : U32) :
    ∃ m, H.setPtr (addr u) v = { H with mem := m } ∧ first m (addr u) = v ∧
      second m (addr u) = H.size (addr u) ∧ SameOff {u} H.mem m := by
  have hptr := H.ptr_setPtr v (aligned_addr u) (aligned_addr u)
  rw [if_pos rfl] at hptr
  exact ⟨_, rfl, hptr, H.size_setPtr v (aligned_addr u) (aligned_addr u), sameOff_setPtr hu H v⟩

theorem exists_setSize (hu : u < 2 ^ 29) (H : Heap) (s : U32) :
    ∃ m, H.setSize (addr u) s = { H with mem := m } ∧
      (∀ x, first m (addr x) = H.ptr (addr x)) ∧ second m (addr u) = s ∧ SameOff {u} H.mem m := by
  have hsize := H.size_setSize s (aligned_addr u) (aligned_addr u)
  rw [if_pos rfl] at hsize
  exact ⟨_, rfl, fun x => H.ptr_setSize s (aligned_addr u) (aligned_addr x), hsize,
    sameOff_setSize hu H s⟩

theorem exists_setHeader (hu : u < 2 ^ 29) (H : Heap) (s v : U32) :
    ∃ m, (H.setSize (addr u) s).setPtr (addr u) v = { H with mem := m } ∧ first m (addr u) = v ∧
      second m (addr u) = s ∧ SameOff {u} H.mem m := by
  obtain ⟨m, hm, hptr, hsize, hoff⟩ := exists_setPtr hu (H.setSize (addr u) s) v
  have hset := H.size_setSize s (aligned_addr u) (aligned_addr u)
  rw [if_pos rfl] at hset
  exact ⟨m, hm, hptr, hsize.trans hset, (sameOff_setSize hu H s).trans hoff⟩

theorem sameOff_ptr {U : Set ℕ} {m m' : Memory 32} (h : SameOff U m m') {x : ℕ} (hx : x < 2 ^ 29)
    (hU : x ∉ U) : first m' (addr x) = first m (addr x) :=
  h.first_eq (by decide) (aligned_addr x) (by rwa [toNat_addr_div hx])

theorem sameOff_size {U : Set ℕ} {m m' : Memory 32} (h : SameOff U m m') {x : ℕ} (hx : x < 2 ^ 29)
    (hU : x ∉ U) : second m' (addr x) = second m (addr x) :=
  h.second_eq (by decide) (aligned_addr x) (by rwa [toNat_addr_div hx])

/-- A part of the circle is the same after assignments to other headers. -/
theorem sameOff_leads {U : Set ℕ} {m m' : Memory 32} {us : List ℕ} {p q : U32} (h : SameOff U m m')
    (hleads : Leads (first m) (us.map addr) p q) (hus : ∀ x ∈ us, x < 2 ^ 29 ∧ x ∉ U) :
    Leads (first m') (us.map addr) p q := by
  refine hleads.congr fun x hx => ?_
  obtain ⟨y, hy, rfl⟩ := List.mem_map.mp hx
  exact sameOff_ptr h (hus y hy).1 (hus y hy).2

theorem Represents.of_sameOff {U : Set ℕ} {m : Memory 32} (h : H.Represents b lo cs)
    (hoff : SameOff U H.mem m) (hb : b ∉ U) (hU : ∀ f, ∀ c ∈ blocks f lo cs, c.start ∉ U) :
    Represents { H with mem := m } b lo cs := by
  have hlt := h.lt
  have hbase := h.base_lt
  have hstart : ∀ f, ∀ c ∈ blocks f lo cs, c.start < 2 ^ 29 := by
    intro f c hc
    have hstop := (bounds_of_mem hc).2
    rw [Block.stop] at hstop
    omega
  exact
    { base := h.base
      base_pos := h.base_pos
      base_lt := hbase
      sound := h.sound
      bss := h.bss
      top := h.top
      baseSize := (sameOff_size hoff (by omega) hb).trans h.baseSize
      sizes := fun f c hc => (sameOff_size hoff (hstart f c hc) (hU f c hc)).trans (h.sizes f c hc)
      circle := by
        refine h.circle.congr fun x hx => ?_
        obtain ⟨y, hy, rfl⟩ : ∃ y, y ∈ b :: starts (blocks true lo cs) ∧ addr y = x :=
          List.mem_map.mp hx
        rcases List.mem_cons.mp hy with rfl | hy
        · exact sameOff_ptr hoff (by omega) hb
        · obtain ⟨c, hc, rfl⟩ := List.mem_map.mp hy
          exact sameOff_ptr hoff (hstart true c hc) (hU true c hc)
      freep := h.freep }

/-! ## Release of a cell -/

section Release

theorem blocks_true_used (A B : List Cell) (n : ℕ) :
    blocks true lo (A ++ ⟨false, n⟩ :: B) =
      blocks true lo A ++ blocks true (lo + total A + n) B := by
  simp

structure Around (H : Heap) (b lo n : ℕ) (A B : List Cell) : Prop where
  unit_lt : lo + total A + n + total B < 2 ^ 29
  base_lt : b < lo
  size : H.size (addr (lo + total A)) = BitVec.ofNat 32 n
  before : Leads H.ptr ((starts (blocks true lo A)).map addr) (H.ptr (addr b))
    (H.ptr (addr (lastNode b (starts (blocks true lo A)))))
  after : Leads H.ptr ((starts (blocks true (lo + total A + n) B)).map addr)
    (H.ptr (addr (lastNode b (starts (blocks true lo A))))) (addr b)

theorem Represents.around (h : H.Represents b lo (A ++ ⟨false, n⟩ :: B)) : H.Around b lo n A B := by
  have hsorted := h.sorted
  have hlt := h.lt
  rw [blocks_true_used, starts_append] at hsorted
  rw [total_append, total_cons] at hlt
  have hcircle := hsorted.circle
  rw [List.map_append] at hcircle
  have hparts := hcircle.split
  rw [lastNode_map] at hparts
  exact ⟨by simp only at hlt; omega, h.base_lt,
    h.sizes false ⟨lo + total A, n⟩ (mem_blocks_middle A B false lo n), hparts.1, hparts.2⟩

theorem mem_starts_lt {f : Bool} {x : ℕ} (hcs : Sound cs) (hx : x ∈ starts (blocks f u cs)) :
    x < u + total cs := by
  obtain ⟨c, hc, rfl⟩ := List.mem_map.mp hx
  have hpos := hcs.pos_of_mem hc
  have hstop := (bounds_of_mem hc).2
  rw [Block.stop] at hstop
  omega

theorem joinUpper_of_eq {bp p : U32} (hbp : Aligned bp) (hp : Aligned p) (hnext : Aligned (H.ptr p))
    (heq : bp + 8 * H.size bp = H.ptr p) :
    Heap.joinUpper bp p H =
      (H.setSize bp (H.size bp + H.size (H.ptr p))).setPtr bp (H.ptr (H.ptr p)) := by
  rw [Heap.joinUpper, if_pos heq]
  simp only [H.ptr_setSize _ hbp hp, H.ptr_setSize _ hbp hnext]

/-- After the join with the upper neighbour, the block has its final size, and leads to the free
blocks after it. -/
theorem Represents.joinUpper (h : H.Represents b lo (A ++ ⟨false, n⟩ :: B)) :
    ∃ m, joinUpper (addr (lo + total A)) (addr (lastNode b (starts (blocks true lo A)))) H =
        { H with mem := m } ∧
      SameOff {lo + total A} H.mem m ∧
      second m (addr (lo + total A)) = BitVec.ofNat 32 (absorb n B).1 ∧
      Leads (first m)
        ((starts (blocks true (lo + total A + (absorb n B).1) (absorb n B).2)).map addr)
        (first m (addr (lo + total A))) (addr b) := by
  obtain ⟨hlt, hbase, hsize, -, hafter⟩ := h.around
  obtain ⟨-, hB, hpos, -⟩ := sound_append_cons h.sound
  have hu : lo + total A < 2 ^ 29 := by omega
  simp only at hpos
  rcases absorb_cases n B with ⟨k, B', rfl, habsorb⟩ | ⟨hhead, habsorb⟩
  · have hnext : H.size (addr (lo + total A + n)) = BitVec.ofNat 32 k :=
      h.sizes true ⟨lo + total A + n, k⟩ (by simp)
    rw [total_cons] at hlt
    rw [blocks_cons, if_pos rfl, starts_cons, List.map_cons] at hafter
    have hup : H.ptr (addr (lastNode b (starts (blocks true lo A)))) = addr (lo + total A + n) :=
      hafter.1
    rw [joinUpper_of_eq (aligned_addr _) (aligned_addr _) (by rw [hup]; exact aligned_addr _)
      (by rw [hsize, addr_add, hup]), hup, hsize, hnext, habsorb]
    obtain ⟨m, hm, hptr, hsec, hoff⟩ := exists_setHeader hu H
      (BitVec.ofNat 32 n + BitVec.ofNat 32 k) (H.ptr (addr (lo + total A + n)))
    refine ⟨m, hm, hoff, hsec.trans (BitVec.ofNat_add n k).symm, ?_⟩
    rw [hptr, ← Nat.add_assoc]
    refine sameOff_leads hoff hafter.2 fun x hx => ?_
    have hx := mem_starts_bounds hx
    simp only at hx hlt
    exact ⟨by omega, by rw [Set.mem_singleton_iff]; omega⟩
  · have hne : addr (lo + total A) + 8 * H.size (addr (lo + total A)) ≠
        H.ptr (addr (lastNode b (starts (blocks true lo A)))) := by
      rw [hsize, addr_add]
      cases hblocks : blocks true (lo + total A + n) B with
      | nil =>
          rw [hblocks] at hafter
          have hafter : H.ptr (addr (lastNode b (starts (blocks true lo A)))) = addr b := hafter
          rw [hafter, Ne, addr_inj (by omega) (by omega)]
          omega
      | cons c cs =>
          have hc : c ∈ blocks true (lo + total A + n) B := by simp [hblocks]
          have hstart := hB.lt_start hhead hc
          have hstop := (bounds_of_mem hc).2
          rw [Block.stop] at hstop
          rw [hblocks, starts_cons, List.map_cons] at hafter
          rw [hafter.1, Ne, addr_inj (by omega) (by omega)]
          omega
    rw [Heap.joinUpper, if_neg hne, habsorb]
    obtain ⟨m, hm, hptr, hsec, hoff⟩ := exists_setPtr hu H
      (H.ptr (addr (lastNode b (starts (blocks true lo A)))))
    refine ⟨m, hm, hoff, hsec.trans hsize, ?_⟩
    rw [hptr]
    refine sameOff_leads hoff hafter fun x hx => ?_
    have hx := mem_starts_bounds hx
    simp only at hx
    exact ⟨by omega, by rw [Set.mem_singleton_iff]; omega⟩

/-- The join with the lower neighbour: it takes the size and the pointer of the block. -/
theorem joinLower_of_eq {m : Memory 32} {v k s : ℕ} (hv : v < 2 ^ 29)
    (hsizev : second m (addr v) = BitVec.ofNat 32 k)
    (hsizeu : second m (addr (v + k)) = BitVec.ofNat 32 s) :
    ∃ m', Heap.joinLower (addr (v + k)) (addr v) { H with mem := m } = { H with mem := m' } ∧
      first m' (addr v) = first m (addr (v + k)) ∧ second m' (addr v) = BitVec.ofNat 32 (k + s) ∧
      SameOff {v} m m' := by
  obtain ⟨m', hm', hptr, hsize, hoff⟩ := exists_setHeader hv { H with mem := m }
    (BitVec.ofNat 32 k + BitVec.ofNat 32 s) (first m (addr (v + k)))
  refine ⟨m', ?_, hptr, hsize.trans (BitVec.ofNat_add k s).symm, hoff⟩
  have hsizev : Heap.size { H with mem := m } (addr v) = BitVec.ofNat 32 k := hsizev
  have hsizeu : Heap.size { H with mem := m } (addr (v + k)) = BitVec.ofNat 32 s := hsizeu
  rw [Heap.joinLower, hsizev, if_pos (addr_add v k), hsizeu, ← hm']
  exact congrArg (fun x => setPtr (addr v) x _)
    (ptr_setSize _ _ (aligned_addr v) (aligned_addr (v + k)))

/-- There is no lower neighbour: the last block points to the one that was freed. -/
theorem joinLower_of_ne {m : Memory 32} {v k : ℕ} (hv : v < 2 ^ 29)
    (hsizev : second m (addr v) = BitVec.ofNat 32 k) (hne : addr (v + k) ≠ addr u) :
    ∃ m', Heap.joinLower (addr u) (addr v) { H with mem := m } = { H with mem := m' } ∧
      first m' (addr v) = addr u ∧ second m' (addr v) = BitVec.ofNat 32 k ∧ SameOff {v} m m' := by
  obtain ⟨m', hm', hptr, hsize, hoff⟩ := exists_setPtr hv { H with mem := m } (addr u)
  refine ⟨m', ?_, hptr, hsize.trans hsizev, hoff⟩
  have hsizev : Heap.size { H with mem := m } (addr v) = BitVec.ofNat 32 k := hsizev
  rw [Heap.joinLower, hsizev, addr_add, if_neg hne, hm']

/-- The circle is closed again by the pointer of the last free block before the cell. -/
theorem leadsBack_of_parts {us vs : List ℕ} {m m' : Memory 32} {r w : U32} (hcs : Sound cs)
    (hb : b < lo) (hlt : lo + total cs < 2 ^ 29) (hsplit : starts (blocks true lo cs) = us ++ vs)
    (hus : Leads (first m) (us.map addr) (first m (addr b)) r)
    (hvs : Leads (first m) (vs.map addr) w (addr b))
    (hoff : SameOff {lastNode b us} m m') (hptr : first m' (addr (lastNode b us)) = w) :
    LeadsBack (first m') (addr b) ((starts (blocks true lo cs)).map addr) := by
  have hsorted := pairwise_starts hcs hb
  have hnodes : ∀ x ∈ b :: starts (blocks true lo cs), x < 2 ^ 29 := fun _ => node_lt hb hlt
  rw [hsplit] at hsorted hnodes ⊢
  have hnodup : ((b :: (us ++ vs)).map addr).Nodup := by
    refine List.Nodup.map_on ?_ (hsorted.imp fun h => h.ne)
    intro x hx y hy heq
    exact (addr_inj (hnodes x hx) (hnodes y hy)).mp heq
  have hlast : lastNode b us ∈ b :: (us ++ vs) := List.mem_append_left vs (lastNode_mem b us)
  rw [List.map_cons, List.map_append] at hnodup
  rw [List.map_append]
  refine (hus.splice hvs hnodup).congr fun x hx => ?_
  rw [← List.map_append, ← List.map_cons] at hx
  obtain ⟨y, hy, rfl⟩ := List.mem_map.mp hx
  rw [lastNode_map, Function.update_apply]
  split
  · rename_i heq
    rw [heq, hptr]
  · rename_i hne
    exact sameOff_ptr hoff (hnodes y hy) fun hmem => hne (congrArg addr hmem)

/-- After the join with the lower neighbour, the headers are those of the arena with the cell
released. -/
theorem Represents.joinLower (h : H.Represents b lo (A ++ ⟨false, n⟩ :: B)) {m : Memory 32}
    (hoff : SameOff {lo + total A} H.mem m)
    (hsize : second m (addr (lo + total A)) = BitVec.ofNat 32 (absorb n B).1)
    (hleads : Leads (first m)
      ((starts (blocks true (lo + total A + (absorb n B).1) (absorb n B).2)).map addr)
      (first m (addr (lo + total A))) (addr b)) :
    ∃ m', joinLower (addr (lo + total A)) (addr (lastNode b (starts (blocks true lo A))))
        { H with mem := m } = { H with mem := m' } ∧
      SameOff {lastNode b (starts (blocks true lo A))} m m' ∧
      LeadsBack (first m') (addr b) ((starts (blocks true lo (release A B n))).map addr) ∧
      second m' (addr b) = 0 ∧
      ∀ f, ∀ c ∈ blocks f lo (release A B n),
        second m' (addr c.start) = BitVec.ofNat 32 c.size := by
  obtain ⟨hlt, hbase, -, hbefore, -⟩ := h.around
  obtain ⟨hA, hB, hpos, -⟩ := sound_append_cons h.sound
  have hsound := h.sound.release
  have htotal := total_release A B n
  have hu : lo + total A < 2 ^ 29 := by omega
  simp only [total_append, total_cons] at hpos htotal
  have hle := le_absorb n B
  have hbefore' : Leads (first m) ((starts (blocks true lo A)).map addr) (first m (addr b))
      (H.ptr (addr (lastNode b (starts (blocks true lo A))))) := by
    rw [sameOff_ptr hoff (by omega) (by rw [Set.mem_singleton_iff]; omega)]
    refine sameOff_leads hoff hbefore fun x hx => ?_
    have hlow := mem_starts_bounds hx
    have hhigh := mem_starts_lt hA hx
    exact ⟨by omega, by rw [Set.mem_singleton_iff]; omega⟩
  have hold : ∀ f, ∀ c ∈ blocks f lo (A ++ ⟨false, n⟩ :: B), c.start ≠ lo + total A →
      second m (addr c.start) = BitVec.ofNat 32 c.size := by
    intro f c hc hne
    have hstop := (bounds_of_mem hc).2
    have hlt' := h.lt
    rw [Block.stop] at hstop
    exact (sameOff_size hoff (by omega) hne).trans (h.sizes f c hc)
  have hbaseSize : second m (addr b) = 0 := by
    rw [sameOff_size hoff (by omega) (by rw [Set.mem_singleton_iff]; omega)]
    exact h.baseSize
  have hafter : ∀ f, ∀ c ∈ blocks f (lo + total A + (absorb n B).1) (absorb n B).2,
      second m (addr c.start) = BitVec.ofNat 32 c.size ∧ lo + total A < c.start ∧
        c.start < 2 ^ 29 := by
    intro f c hc
    have hlow := (bounds_of_mem hc).1
    have hmem := mem_of_mem_absorb hc
    have hstop := (bounds_of_mem hmem).2
    rw [Block.stop] at hstop
    exact ⟨hold f c (by rw [blocks_append, blocks_cons]; split <;> simp [hmem]) (by omega),
      by omega, by omega⟩
  rcases release_cases A B n with ⟨A', k, rfl, hrel⟩ | ⟨hlast, hrel⟩
  · have hunit : lo + total (A' ++ [⟨true, k⟩]) = lo + total A' + k := by simp [Nat.add_assoc]
    have hv : lastNode b (starts (blocks true lo (A' ++ [⟨true, k⟩]))) = lo + total A' := by
      simp [starts]
    have hkpos : 0 < k := hA.pos ⟨true, k⟩ (by simp)
    rw [hunit] at hoff hsize hleads hold hafter hlt hu ⊢
    rw [hv] at hbefore' ⊢
    have hsizev : second m (addr (lo + total A')) = BitVec.ofNat 32 k :=
      hold true ⟨lo + total A', k⟩ (by simp) (by simp only; omega)
    obtain ⟨m', hm', hptr, hsize', hoff'⟩ := joinLower_of_eq (H := H) (by omega) hsizev hsize
    refine ⟨m', hm', hoff', ?_, ?_, ?_⟩
    · refine leadsBack_of_parts hsound hbase (by omega) ?_ hbefore' hleads ?_ ?_
      · simp [hrel, starts, Nat.add_assoc]
      · rwa [hv]
      · rwa [hv]
    · rw [sameOff_size hoff' (by omega) (by rw [Set.mem_singleton_iff]; omega), hbaseSize]
    · intro f c hc
      rw [hrel, blocks_append, List.mem_append] at hc
      rcases hc with hc | hc
      · have hstop := (bounds_of_mem hc).2
        have hcpos := (sound_append_cons hA).1.pos_of_mem hc
        rw [Block.stop] at hstop
        rw [sameOff_size hoff' (by omega) (by rw [Set.mem_singleton_iff]; omega)]
        exact hold f c (by simp [hc]) (by omega)
      · have hnext : c ∈ blocks f (lo + total A' + k + (absorb n B).1) (absorb n B).2 →
            second m' (addr c.start) = BitVec.ofNat 32 c.size := fun hc => by
          obtain ⟨hsizec, hlow, hhigh⟩ := hafter f c hc
          rw [sameOff_size hoff' hhigh (by rw [Set.mem_singleton_iff]; omega), hsizec]
        rw [blocks_cons, Nat.add_assoc] at hc
        rw [← Nat.add_assoc] at hc
        split at hc
        · rcases List.mem_cons.mp hc with rfl | hc
          · exact hsize'
          · exact hnext (by rwa [← Nat.add_assoc] at hc)
        · exact hnext (by rwa [← Nat.add_assoc] at hc)
  · have hv : lastNode b (starts (blocks true lo A)) < lo + total A := by
      rcases List.mem_cons.mp (lastNode_mem b (starts (blocks true lo A))) with heq | hmem
      · omega
      · exact mem_starts_lt hA hmem
    obtain ⟨k, hsizev, hne⟩ : ∃ k,
        second m (addr (lastNode b (starts (blocks true lo A)))) = BitVec.ofNat 32 k ∧
          lastNode b (starts (blocks true lo A)) + k < lo + total A := by
      rw [sameOff_size hoff (by omega) (by rw [Set.mem_singleton_iff]; omega)]
      rcases List.mem_cons.mp (lastNode_mem b (starts (blocks true lo A))) with heq | hmem
      · exact ⟨0, by rw [heq]; exact h.baseSize, by omega⟩
      · obtain ⟨c, hc, hstart⟩ := List.mem_map.mp hmem
        have hstop := hA.stop_lt hlast hc
        rw [Block.stop] at hstop
        exact ⟨c.size, by rw [← hstart]; exact h.sizes true c (by simp [hc]), by omega⟩
    obtain ⟨m', hm', hptr, hsize', hoff'⟩ := joinLower_of_ne (H := H) (by omega) hsizev
      (show _ ≠ addr (lo + total A) by rw [Ne, addr_inj (by omega) hu]; omega)
    have hkeep : ∀ x < 2 ^ 29, second m' (addr x) = second m (addr x) := by
      intro x hx
      by_cases heq : x = lastNode b (starts (blocks true lo A))
      · rw [heq, hsize', hsizev]
      · exact sameOff_size hoff' hx heq
    refine ⟨m', hm', hoff', ?_, (hkeep b (by omega)).trans hbaseSize, ?_⟩
    · refine leadsBack_of_parts hsound hbase (by omega)
        (show _ = _ ++ ((lo + total A) :: starts (blocks true (lo + total A + (absorb n B).1)
          (absorb n B).2)) from ?_) hbefore' ⟨rfl, hleads⟩ hoff' hptr
      simp [hrel, starts]
    · intro f c hc
      rw [hrel, blocks_append, List.mem_append] at hc
      rcases hc with hc | hc
      · have hlow := mem_starts_lt hA (List.mem_map_of_mem hc)
        rw [hkeep _ (by omega)]
        exact hold f c (by simp [hc]) (by omega)
      · have hnext : c ∈ blocks f (lo + total A + (absorb n B).1) (absorb n B).2 →
            second m' (addr c.start) = BitVec.ofNat 32 c.size := fun hc => by
          obtain ⟨hsizec, -, hhigh⟩ := hafter f c hc
          rw [hkeep _ hhigh, hsizec]
        rw [blocks_cons] at hc
        split at hc
        · rcases List.mem_cons.mp hc with rfl | hc
          · rw [hkeep _ hu, hsize]
          · exact hnext hc
        · exact hnext hc

/-- The units that the allocator may write to: `base` and the free cells. -/
def freeUnits (b lo : ℕ) (cs : List Cell) : Set ℕ :=
  {x | x = b ∨ ∃ c ∈ blocks true lo cs, c.start ≤ x ∧ x < c.stop}

theorem mem_freeUnits_of_start (hcs : Sound cs) {x : ℕ}
    (hx : x ∈ b :: starts (blocks true lo cs)) : x ∈ freeUnits b lo cs := by
  rcases List.mem_cons.mp hx with heq | hmem
  · exact .inl heq
  · obtain ⟨c, hc, rfl⟩ := List.mem_map.mp hmem
    have hpos := hcs.pos_of_mem hc
    exact .inr ⟨c, hc, le_rfl, by rw [Block.stop]; omega⟩

/-- The last free block before the cell is still one, or `base`. -/
theorem lastNode_mem_release (b lo n : ℕ) (A B : List Cell) :
    lastNode b (starts (blocks true lo A)) ∈ b :: starts (blocks true lo (release A B n)) := by
  rcases release_cases A B n with ⟨A', k, rfl, hrel⟩ | ⟨-, hrel⟩
  · rw [hrel]
    simp [starts]
  · rw [hrel, blocks_append, starts_append, ← List.cons_append]
    exact List.mem_append_left _ (lastNode_mem _ _)

/-- `free` releases the cell. -/
theorem Represents.free (h : H.Represents b lo (A ++ ⟨false, n⟩ :: B))
    (hfuel : total (A ++ ⟨false, n⟩ :: B) + 2 ≤ fuel) :
    ∃ m freep, free fuel (addr (lo + total A + 1)) H = some { H with mem := m, freep := freep } ∧
      Represents { H with mem := m, freep := freep } b lo (release A B n) ∧
      SameOff (freeUnits b lo (A ++ ⟨false, n⟩ :: B) ∪ {lo + total A}) H.mem m := by
  obtain ⟨hlt, hbase, -, -, -⟩ := h.around
  obtain ⟨hA, hB, hpos, -⟩ := sound_append_cons h.sound
  have hu : lo + total A < 2 ^ 29 := by omega
  have hpos : 0 < n := hpos
  have hsorted := h.sorted
  have hfreep := h.freep
  have hlength := h.length_le true
  rw [blocks_true_used, starts_append] at hsorted hfreep
  rw [blocks_true_used, List.length_append] at hlength
  have hscan := hsorted.freeScan_spec hu (by omega)
    (fun x hx => mem_starts_lt hA hx)
    (fun x hx => by have hlow := mem_starts_bounds hx; omega) hfreep
    (show _ ≤ fuel by simp only [starts, List.length_map]; omega)
  obtain ⟨m, hm, hoff, hsize, hleads⟩ := h.joinUpper
  obtain ⟨m', hm', hoff', hcircle, hbaseSize, hsizes⟩ := h.joinLower hoff hsize hleads
  have hne : addr (lo + total A + 1) ≠ 0 := addr_ne_zero (by omega) (by omega)
  have htotal := total_release A B n
  refine ⟨m', addr (lastNode b (starts (blocks true lo A))), ?_, ?_, ?_⟩
  · rw [Heap.free, if_neg hne, addr_sub_eight]
    simp only [hscan, Option.map_some, hm, hm']
  · exact
      { base := h.base
        base_pos := h.base_pos
        base_lt := hbase
        sound := h.sound.release
        bss := by rw [htotal]; exact h.bss
        top := by rw [htotal]; exact h.top
        baseSize := hbaseSize
        sizes := hsizes
        circle := hcircle
        freep := List.mem_map_of_mem (lastNode_mem_release b lo n A B) }
  · refine (hoff.mono (Set.singleton_subset_iff.mpr (.inr rfl))).trans (hoff'.mono ?_)
    rw [Set.singleton_subset_iff]
    refine .inl (mem_freeUnits_of_start h.sound ?_)
    rw [blocks_true_used, starts_append, ← List.cons_append]
    exact List.mem_append_left _ (lastNode_mem _ _)

end Release

/-! ## Use of a cell -/

section Take

variable {k : ℕ}

theorem blocks_true_free (A B : List Cell) (k : ℕ) :
    blocks true lo (A ++ ⟨true, k⟩ :: B) =
      blocks true lo A ++ ⟨lo + total A, k⟩ :: blocks true (lo + total A + k) B := by
  simp

theorem mem_blocks_take {f : Bool} {c : Block} (hn : n ≤ k) (hc : c ∈ blocks f lo (take A B k n)) :
    (c ∈ blocks f lo A ∨ c ∈ blocks f (lo + total A + k) B) ∨
      (f = true ∧ n ≠ k ∧ c = ⟨lo + total A, k - n⟩) ∨
      f = false ∧ c = ⟨lo + total A + (k - n), n⟩ := by
  cases f
  · rw [blocks_false_take A B hn, List.mem_append, List.mem_cons] at hc
    tauto
  · rw [blocks_true_take A B hn, rest] at hc
    split at hc
    · simp only [blocks_nil, List.nil_append, List.mem_append] at hc
      exact .inl hc
    · rename_i hne
      simp only [blocks_cons, if_true, blocks_nil, List.singleton_append, List.mem_append,
        List.mem_cons] at hc
      rcases hc with hc | rfl | hc
      · exact .inl (.inl hc)
      · exact .inr (.inl ⟨rfl, Ne.symm hne, rfl⟩)
      · exact .inl (.inr hc)

theorem Represents.parts (h : H.Represents b lo (A ++ ⟨true, k⟩ :: B)) :
    Leads H.ptr ((starts (blocks true lo A)).map addr) (H.ptr (addr b)) (addr (lo + total A)) ∧
      Leads H.ptr ((starts (blocks true (lo + total A + k) B)).map addr)
        (H.ptr (addr (lo + total A))) (addr b) := by
  have hcircle := h.circle
  rw [blocks_true_free, starts_append, starts_cons, List.map_append, List.map_cons] at hcircle
  exact leadsBack_append_cons.mp hcircle

theorem Represents.size_free (h : H.Represents b lo (A ++ ⟨true, k⟩ :: B)) :
    H.size (addr (lo + total A)) = BitVec.ofNat 32 k :=
  h.sizes true ⟨lo + total A, k⟩ (mem_blocks_middle A B true lo k)

theorem mem_blocks_of_around {f : Bool} {c : Block}
    (hc : c ∈ blocks f lo A ∨ c ∈ blocks f (lo + total A + k) B) :
    c ∈ blocks f lo (A ++ ⟨true, k⟩ :: B) := by
  rw [blocks_append, blocks_cons]
  rcases hc with hc | hc
  · simp [hc]
  · split <;> simp [hc]

/-- A free block that is as big as needed is taken out of the circle. -/
theorem Represents.allocate_all (h : H.Represents b lo (A ++ ⟨true, n⟩ :: B)) :
    ∃ m, allocate (addr (lastNode b (starts (blocks true lo A)))) (addr (lo + total A))
        (BitVec.ofNat 32 n) H =
          ({ H with mem := m, freep := addr (lastNode b (starts (blocks true lo A))) },
            addr (lo + total A + 1)) ∧
      SameOff (freeUnits b lo (A ++ ⟨true, n⟩ :: B)) H.mem m ∧
      LeadsBack (first m) (addr b) ((starts (blocks true lo (take A B n n))).map addr) ∧
      second m (addr b) = 0 ∧
      ∀ f, ∀ c ∈ blocks f lo (take A B n n), second m (addr c.start) = BitVec.ofNat 32 c.size := by
  obtain ⟨hbefore, hafter⟩ := h.parts
  have hsize := h.size_free
  have hlt := h.lt
  have hbase := h.base_lt
  have htotal := total_take A B (le_refl n)
  have hnode : lastNode b (starts (blocks true lo A)) ∈
      b :: starts (blocks true lo (A ++ ⟨true, n⟩ :: B)) := by
    rw [blocks_true_free, starts_append, ← List.cons_append]
    exact List.mem_append_left _ (lastNode_mem _ _)
  have hv := node_lt hbase hlt hnode
  obtain ⟨m, hm, hptr, hsizev, hoff⟩ := exists_setPtr hv H (H.ptr (addr (lo + total A)))
  have hkeep : ∀ x < 2 ^ 29, second m (addr x) = H.size (addr x) := by
    intro x hx
    by_cases heq : x = lastNode b (starts (blocks true lo A))
    · rw [heq, hsizev]
    · exact sameOff_size hoff hx heq
  refine ⟨m, ?_, hoff.mono (Set.singleton_subset_iff.mpr (mem_freeUnits_of_start h.sound hnode)),
    ?_, (hkeep b (by omega)).trans h.baseSize, ?_⟩
  · rw [allocate, if_pos hsize, addr_add_eight, hm]
  · refine leadsBack_of_parts (h.sound.take (h.sound.pos ⟨true, n⟩ (by simp)) le_rfl) hbase
      (by omega) ?_ hbefore hafter hoff hptr
    simp [blocks_true_take, rest, starts]
  · intro f c hc
    have hstop := (bounds_of_mem hc).2
    rw [Block.stop] at hstop
    rw [hkeep _ (by omega)]
    rcases mem_blocks_take le_rfl hc with hc | ⟨-, hne, -⟩ | ⟨-, rfl⟩
    · exact h.sizes f c (mem_blocks_of_around hc)
    · exact absurd rfl hne
    · simpa using hsize

theorem Represents.allocate_part (h : H.Represents b lo (A ++ ⟨true, k⟩ :: B)) (hn : 0 < n)
    (hk : n < k) (prevp : U32) :
    ∃ m, allocate prevp (addr (lo + total A)) (BitVec.ofNat 32 n) H =
          ({ H with mem := m, freep := prevp }, addr (lo + total A + (k - n) + 1)) ∧
      SameOff (freeUnits b lo (A ++ ⟨true, k⟩ :: B)) H.mem m ∧
      LeadsBack (first m) (addr b) ((starts (blocks true lo (take A B k n))).map addr) ∧
      second m (addr b) = 0 ∧
      ∀ f, ∀ c ∈ blocks f lo (take A B k n), second m (addr c.start) = BitVec.ofNat 32 c.size := by
  have hsize := h.size_free
  have hlt := h.lt
  have hbase := h.base_lt
  rw [total_append, total_cons] at hlt
  simp only at hlt
  obtain ⟨hA, hB, -⟩ := sound_append_cons h.sound
  have hsub : BitVec.ofNat 32 k - BitVec.ofNat 32 n = BitVec.ofNat 32 (k - n) :=
    BitVec.ofNat_sub_ofNat_of_le k n (by omega) hk.le
  have hne : BitVec.ofNat 32 k ≠ BitVec.ofNat 32 n := by
    intro heq
    have htoNat := congrArg BitVec.toNat heq
    rw [BitVec.toNat_ofNat, BitVec.toNat_ofNat, Nat.mod_eq_of_lt (by omega),
      Nat.mod_eq_of_lt (by omega)] at htoNat
    omega
  obtain ⟨m, hm, hptr, hsizeu, hoff⟩ := exists_setSize (show lo + total A < 2 ^ 29 by omega) H
    (BitVec.ofNat 32 (k - n))
  obtain ⟨m', hm', hptr', hsizew, hoff'⟩ := exists_setSize
    (show lo + total A + (k - n) < 2 ^ 29 by omega) { H with mem := m } (BitVec.ofNat 32 n)
  have hfree : ∀ x, lo + total A ≤ x → x < lo + total A + k →
      x ∈ freeUnits b lo (A ++ ⟨true, k⟩ :: B) :=
    fun x hlow hhigh => .inr ⟨⟨lo + total A, k⟩, mem_blocks_middle A B true lo k, hlow, hhigh⟩
  have hsame : ∀ x < 2 ^ 29, x ≠ lo + total A → x ≠ lo + total A + (k - n) →
      second m' (addr x) = H.size (addr x) :=
    fun x hx hxu hxw => (sameOff_size hoff' hx hxw).trans (sameOff_size hoff hx hxu)
  refine ⟨m', ?_, ?_, ?_, ?_, ?_⟩
  · have hsizem : Heap.size { H with mem := m } (addr (lo + total A)) = BitVec.ofNat 32 (k - n) :=
      hsizeu
    rw [allocate, hsize, if_neg hne, hsub]
    simp only [hm, hsizem, addr_add, addr_add_eight]
    rw [hm']
  · refine (hoff.mono (Set.singleton_subset_iff.mpr (hfree _ le_rfl (by omega)))).trans
      (hoff'.mono (Set.singleton_subset_iff.mpr (hfree _ (by omega) (by omega))))
  · have hstarts : starts (blocks true lo (take A B k n)) =
        starts (blocks true lo (A ++ ⟨true, k⟩ :: B)) := by
      simp [blocks_true_take A B hk.le, rest, hk.ne', starts]
    rw [hstarts]
    refine h.circle.congr fun x hx => ?_
    obtain ⟨y, -, rfl⟩ : ∃ y, y ∈ b :: starts (blocks true lo (A ++ ⟨true, k⟩ :: B)) ∧
        addr y = x := List.mem_map.mp hx
    exact (hptr' y).trans (hptr y)
  · rw [hsame b (by omega) (by omega) (by omega)]
    exact h.baseSize
  · intro f c hc
    have hstop := (bounds_of_mem hc).2
    have htotal := total_take A B hk.le
    rw [Block.stop] at hstop
    simp only [total_append, total_cons] at htotal
    rcases mem_blocks_take hk.le hc with hc | ⟨-, -, rfl⟩ | ⟨-, rfl⟩
    · have hside : c.start < lo + total A ∨ lo + total A + k ≤ c.start :=
        hc.imp (fun hc => mem_starts_lt hA (List.mem_map_of_mem hc)) fun hc => (bounds_of_mem hc).1
      rw [hsame _ (by omega) (by omega) (by omega)]
      exact h.sizes f c (mem_blocks_of_around hc)
    · rw [sameOff_size hoff' (by simp only; omega)
        (by rw [Set.mem_singleton_iff]; simp only; omega), hsizeu]
    · exact hsizew

/-- `malloc` takes the end of a free block. -/
theorem Represents.allocate (h : H.Represents b lo (A ++ ⟨true, k⟩ :: B)) (hn : 0 < n)
    (hk : n ≤ k) :
    ∃ m freep, allocate (addr (lastNode b (starts (blocks true lo A)))) (addr (lo + total A))
        (BitVec.ofNat 32 n) H =
          ({ H with mem := m, freep := freep }, addr (lo + total A + (k - n) + 1)) ∧
      Represents { H with mem := m, freep := freep } b lo (take A B k n) ∧
      SameOff (freeUnits b lo (A ++ ⟨true, k⟩ :: B)) H.mem m := by
  have htotal := total_take A B hk
  have hfreep : addr (lastNode b (starts (blocks true lo A))) ∈
      (b :: starts (blocks true lo (take A B k n))).map addr := by
    refine List.mem_map_of_mem ?_
    rw [blocks_true_take A B hk, starts_append, ← List.cons_append]
    exact List.mem_append_left _ (lastNode_mem _ _)
  have hresult : ∃ m, Heap.allocate (addr (lastNode b (starts (blocks true lo A))))
      (addr (lo + total A)) (BitVec.ofNat 32 n) H =
          ({ H with mem := m, freep := addr (lastNode b (starts (blocks true lo A))) },
            addr (lo + total A + (k - n) + 1)) ∧
      SameOff (freeUnits b lo (A ++ ⟨true, k⟩ :: B)) H.mem m ∧
      LeadsBack (first m) (addr b) ((starts (blocks true lo (take A B k n))).map addr) ∧
      second m (addr b) = 0 ∧
      ∀ f, ∀ c ∈ blocks f lo (take A B k n), second m (addr c.start) = BitVec.ofNat 32 c.size := by
    rcases hk.lt_or_eq with hlt | rfl
    · exact h.allocate_part hn hlt _
    · simpa using h.allocate_all
  obtain ⟨m, hm, hoff, hcircle, hbaseSize, hsizes⟩ := hresult
  exact ⟨m, _, hm,
    { base := h.base
      base_pos := h.base_pos
      base_lt := h.base_lt
      sound := h.sound.take hn hk
      bss := by rw [htotal]; exact h.bss
      top := by rw [htotal]; exact h.top
      baseSize := hbaseSize
      sizes := hsizes
      circle := hcircle
      freep := hfreep }, hoff⟩

end Take

end Heap

end KHypervisor
