import KHypervisor.Alloc.Malloc
import KHypervisor.Lib.Arena
import KHypervisor.Lib.Circle

/-!
# The free list of the allocator

The heap from `__begin_heap` to `__malloc_bss` is a sound arena: its free cells are in the circle
of `base`, in the order of their addresses, and every header has the size of its cell. The loop of
`free` comes to the block that precedes the one to be freed, and the loop of `malloc` to the first
free block after `freep` that is big enough, or all the way round.
-/

namespace KHypervisor

open ByteMemory Arena

def addr (u : ℕ) : U32 := BitVec.ofNat 32 (8 * u)

theorem aligned_addr (u : ℕ) : Aligned (addr u) := by
  rw [addr, Aligned, BitVec.toNat_ofNat]
  exact (Nat.dvd_mod_iff ⟨2 ^ 29, rfl⟩).mpr ⟨u, rfl⟩

theorem toNat_addr {u : ℕ} (hu : u < 2 ^ 29) : (addr u).toNat = 8 * u := by
  rw [addr, BitVec.toNat_ofNat, Nat.mod_eq_of_lt (by omega)]

theorem addr_add (u n : ℕ) : addr u + 8 * BitVec.ofNat 32 n = addr (u + n) := by
  rw [addr, addr, Nat.mul_add, BitVec.ofNat_add, BitVec.ofNat_mul 8 n]
  rfl

theorem addr_add_eight (u : ℕ) : addr u + 8 = addr (u + 1) := addr_add u 1

theorem addr_sub_eight (u : ℕ) : addr (u + 1) - 8 = addr u := by
  rw [← addr_add_eight]
  exact add_sub_cancel_right ..

theorem addr_inj {u v : ℕ} (hu : u < 2 ^ 29) (hv : v < 2 ^ 29) : addr u = addr v ↔ u = v := by
  rw [← BitVec.toNat_inj, toNat_addr hu, toNat_addr hv]
  omega

theorem addr_ne_zero {u : ℕ} (hu : u < 2 ^ 29) (hpos : 0 < u) : addr u ≠ 0 := by
  have hzero : addr 0 = 0 := rfl
  rw [← hzero, Ne, addr_inj hu (by decide)]
  omega

theorem addr_lt {u v : ℕ} (hu : u < 2 ^ 29) (hv : v < 2 ^ 29) : addr u < addr v ↔ u < v := by
  rw [BitVec.lt_def, toNat_addr hu, toNat_addr hv]
  omega

theorem addr_le {u v : ℕ} (hu : u < 2 ^ 29) (hv : v < 2 ^ 29) : addr u ≤ addr v ↔ u ≤ v := by
  rw [BitVec.le_def, toNat_addr hu, toNat_addr hv]
  omega

def starts (bs : List Block) : List ℕ := bs.map Block.start

namespace Heap

/-- The blocks at these units are linked to a circle with `base`, in the order of their
addresses. -/
structure Sorted (H : Heap) (b : ℕ) (us : List ℕ) : Prop where
  circle : LeadsBack H.ptr (addr b) (us.map addr)
  sorted : (b :: us).Pairwise (· < ·)
  lt : ∀ x ∈ b :: us, x < 2 ^ 29

section Sorted

variable {H : Heap} {b u z : ℕ} {fuel : ℕ} {us vs xs zs : List ℕ}

theorem Sorted.next_cons (h : H.Sorted b (xs ++ z :: zs)) :
    H.ptr (addr (lastNode b xs)) = addr z := by
  have hcircle := h.circle
  rw [List.map_append, List.map_cons] at hcircle
  rw [← lastNode_map addr]
  exact hcircle.split.2.1

theorem Sorted.next_nil (h : H.Sorted b xs) : H.ptr (addr (lastNode b xs)) = addr b := by
  rw [← lastNode_map addr]
  exact Leads.next_lastNode h.circle

theorem Sorted.lastNode_lt (h : H.Sorted b (xs ++ z :: zs)) : lastNode b xs < z :=
  (List.pairwise_cons.mp (pairwise_lastNode h.sorted)).1 z List.mem_cons_self

theorem Sorted.le_lastNode (h : H.Sorted b (xs ++ zs)) : b ≤ lastNode b xs := by
  rcases List.mem_cons.mp (lastNode_mem b xs) with heq | hmem
  · exact heq.ge
  · exact ((List.pairwise_cons.mp h.sorted).1 _ (List.mem_append_left zs hmem)).le

theorem Sorted.lastNode_lt_top (h : H.Sorted b (xs ++ zs)) : lastNode b xs < 2 ^ 29 :=
  h.lt _ (List.mem_append_left zs (lastNode_mem b xs))

/-! ### The loop of `free` -/

/-- The loop goes on over blocks on the same side of the one to be freed. -/
theorem Sorted.freeScan_walk (h : H.Sorted b (xs ++ (us ++ vs))) (hu : u < 2 ^ 29)
    (hside : (∀ x ∈ us, x < u) ∨ u < lastNode b xs) :
    H.freeScan (addr u) (fuel + us.length) (addr (lastNode b xs)) =
      H.freeScan (addr u) fuel (addr (lastNode b (xs ++ us))) := by
  induction us generalizing xs with
  | nil => rw [List.append_nil, List.length_nil, Nat.add_zero]
  | cons z us ih =>
      have hv := h.lastNode_lt_top
      have hz : z < 2 ^ 29 := h.lt z (by simp)
      have hlt := h.lastNode_lt
      have hzside : z < u ∨ u < lastNode b xs := hside.imp (fun hus => hus z List.mem_cons_self) id
      have hgo : H.freeScan (addr u) (fuel + us.length + 1) (addr (lastNode b xs)) =
          H.freeScan (addr u) (fuel + us.length) (addr z) := by
        rw [freeScan, h.next_cons, if_neg, if_neg]
        · rw [addr_le hz hv]
          omega
        · rw [addr_lt hv hu, addr_lt hu hz]
          omega
      have hmove : xs ++ (z :: us ++ vs) = xs ++ [z] ++ (us ++ vs) := by simp
      have hrest := ih (hmove ▸ h) <| by
        rw [lastNode_append]
        exact hside.imp (fun hus x hx => hus x (List.mem_cons_of_mem z hx)) fun hxs => hxs.trans hlt
      rw [lastNode_append] at hrest
      rw [List.length_cons, ← Nat.add_assoc, hgo]
      simpa using hrest

theorem Sorted.freeScan_stop (h : H.Sorted b (us ++ vs)) (hu : u < 2 ^ 29)
    (hlast : lastNode b us < u) (hvs : ∀ x ∈ vs, u < x) :
    H.freeScan (addr u) (fuel + 1) (addr (lastNode b us)) = some (addr (lastNode b us)) := by
  have hv := h.lastNode_lt_top
  have hvu : addr (lastNode b us) < addr u := (addr_lt hv hu).mpr hlast
  cases vs with
  | nil =>
      have hback : addr b ≤ addr (lastNode b us) :=
        (addr_le (h.lt b List.mem_cons_self) hv).mpr h.le_lastNode
      rw [List.append_nil] at h
      rw [freeScan, h.next_nil, ite_eq_left_iff.mpr fun _ => if_pos ⟨hback, .inl hvu⟩]
  | cons z vs =>
      have huz := (addr_lt hu (h.lt z (by simp))).mpr (hvs z List.mem_cons_self)
      rw [freeScan, h.next_cons, if_pos ⟨hvu, huz⟩]

/-- From the last block of the arena, above the one to be freed, the loop goes on at `base`. -/
theorem Sorted.freeScan_wrap (h : H.Sorted b us) (hbu : b < u) (hlast : u < lastNode b us) :
    H.freeScan (addr u) (fuel + 1) (addr (lastNode b us)) = H.freeScan (addr u) fuel (addr b) := by
  have hv := (List.append_nil us ▸ h).lastNode_lt_top
  have hvu : ¬ addr (lastNode b us) < addr u := by
    rw [addr_lt hv (hlast.trans hv)]
    omega
  have hub : ¬ addr u < addr b := by
    rw [addr_lt (hlast.trans hv) (h.lt b List.mem_cons_self)]
    omega
  rw [freeScan, h.next_nil, if_neg fun h => hvu h.1, if_neg fun h => h.2.elim hvu hub]

/-- The loop of `free` comes to the last free block below the one to be freed. -/
theorem Sorted.freeScan_spec (h : H.Sorted b (us ++ vs)) (hu : u < 2 ^ 29) (hbu : b < u)
    (hus : ∀ x ∈ us, x < u) (hvs : ∀ x ∈ vs, u < x)
    (hfreep : H.freep ∈ (b :: (us ++ vs)).map addr) (hfuel : us.length + vs.length + 2 ≤ fuel) :
    H.freeScan (addr u) fuel H.freep = some (addr (lastNode b us)) := by
  obtain ⟨v, hv, hfreep⟩ := List.mem_map.mp hfreep
  obtain ⟨xs, ys, hsplit, rfl⟩ := exists_split_of_mem hv
  rw [← hfreep]
  have hlast : lastNode b us < u := by
    rcases List.mem_cons.mp (lastNode_mem b us) with heq | hmem
    · rwa [heq]
    · exact hus _ hmem
  have hbelow : ∀ xs zs, us = xs ++ zs → ∀ fuel, zs.length + 1 ≤ fuel →
      H.freeScan (addr u) fuel (addr (lastNode b xs)) = some (addr (lastNode b us)) := by
    rintro xs zs rfl fuel hfuel
    obtain ⟨fuel, rfl⟩ : ∃ k, fuel = k + 1 + zs.length := ⟨fuel - 1 - zs.length, by omega⟩
    have hassoc := h
    rw [List.append_assoc] at hassoc
    rw [hassoc.freeScan_walk hu (.inl fun x hx => hus x (List.mem_append_right xs hx)),
      h.freeScan_stop hu hlast hvs]
  rcases List.append_eq_append_iff.mp hsplit with ⟨zs, rfl, rfl⟩ | ⟨zs, rfl, rfl⟩
  · -- `freep` is above the block, or the last one below it
    rcases List.eq_nil_or_concat' zs with rfl | ⟨zs, z, rfl⟩
    · rw [List.append_nil]
      exact hbelow us [] (List.append_nil us).symm fuel (by simp; omega)
    · have hz : u < z := hvs z (by simp)
      obtain ⟨fuel, rfl⟩ : ∃ k, fuel = k + 1 + ys.length :=
        ⟨fuel - 1 - ys.length, by simp at *; omega⟩
      have hup : u < lastNode b (us ++ (zs ++ [z]) ++ ys) := by
        have hmem : lastNode z ys ∈ zs ++ [z] ++ ys := by
          rw [List.append_assoc]
          exact List.mem_append_right zs (lastNode_mem z ys)
        simpa using hvs _ hmem
      rw [← List.append_assoc] at h
      have hall := h
      rw [← List.append_nil ys] at h
      rw [h.freeScan_walk hu (.inr (by simpa using hz)), hall.freeScan_wrap hbu hup]
      exact hbelow [] us rfl fuel (by simp at hfuel; omega)
  · exact hbelow xs zs rfl fuel (by simp at hfuel; omega)

/-! ### The loop of `malloc` -/

/-- The loop goes on over blocks that are too small, other than `freep`. -/
theorem Sorted.mallocLoop_walk {n : U32} (h : H.Sorted b (xs ++ (us ++ vs))) (fuel : ℕ)
    (hsmall : ∀ x ∈ us, ¬ n ≤ H.size (addr x)) (hfreep : ∀ x ∈ us, addr x ≠ H.freep) :
    mallocLoop n (fuel + us.length) (addr (lastNode b xs)) (H.ptr (addr (lastNode b xs))) H =
      mallocLoop n fuel (addr (lastNode b (xs ++ us))) (H.ptr (addr (lastNode b (xs ++ us))))
        H := by
  induction us generalizing xs with
  | nil => rw [List.append_nil, List.length_nil, Nat.add_zero]
  | cons z us ih =>
      have hmove : xs ++ (z :: us ++ vs) = xs ++ [z] ++ (us ++ vs) := by simp
      have hrest := ih (hmove ▸ h) (fun x hx => hsmall x (List.mem_cons_of_mem z hx))
        fun x hx => hfreep x (List.mem_cons_of_mem z hx)
      rw [List.length_cons, ← Nat.add_assoc, h.next_cons, mallocLoop,
        if_neg (hsmall z List.mem_cons_self), if_neg (hfreep z List.mem_cons_self)]
      simpa using hrest

theorem Sorted.mallocLoop_stop {n : U32} (h : H.Sorted b (xs ++ z :: zs))
    (hbig : n ≤ H.size (addr z)) :
    mallocLoop n (fuel + 1) (addr (lastNode b xs)) (H.ptr (addr (lastNode b xs))) H =
      some (allocate (addr (lastNode b xs)) (addr z) n H) := by
  rw [h.next_cons, mallocLoop, if_pos hbig]

theorem Sorted.addr_ne (h : H.Sorted b (xs ++ zs)) {x y : ℕ} (hx : x ∈ b :: xs) (hy : y ∈ zs) :
    addr x ≠ addr y := by
  have hall : (b :: xs ++ zs).Pairwise (· < ·) := h.sorted
  have hlt := (List.pairwise_append.mp hall).2.2 x hx y hy
  rw [Ne, addr_inj (h.lt x (List.mem_append_left zs hx))
    (h.lt y (List.mem_append_right (b :: xs) hy))]
  omega

/-- The step of the loop at `base`. -/
theorem mallocLoop_base {n : U32} {p : U32} (hbase : ¬ n ≤ H.size (addr b))
    (hne : addr b ≠ H.freep) :
    mallocLoop n (fuel + 1) p (addr b) H = mallocLoop n fuel (addr b) (H.ptr (addr b)) H := by
  rw [mallocLoop, if_neg hbase, if_neg hne]

/-- The loop of `malloc` ends at a block that is big enough, if there is one. -/
theorem Sorted.mallocLoop_found {n : U32} (h : H.Sorted b us) (hbase : ¬ n ≤ H.size (addr b))
    (hmem : H.freep ∈ (b :: us).map addr) (hfuel : us.length + 2 ≤ fuel)
    (hbig : ∃ x ∈ us, n ≤ H.size (addr x)) :
    ∃ xs z zs, us = xs ++ z :: zs ∧ n ≤ H.size (addr z) ∧
      mallocLoop n fuel H.freep (H.ptr H.freep) H =
        some (allocate (addr (lastNode b xs)) (addr z) n H) := by
  obtain ⟨v, hv, hfreep⟩ := List.mem_map.mp hmem
  obtain ⟨xs, ys, rfl, rfl⟩ := exists_split_of_mem hv
  have hne : ∀ x ∈ ys, addr x ≠ H.freep :=
    fun x hx => hfreep ▸ (h.addr_ne (lastNode_mem b xs) hx).symm
  rw [List.length_append] at hfuel
  by_cases hafter : ∃ x ∈ ys, n ≤ H.size (addr x)
  · obtain ⟨ys, z, zs, rfl, hz, hys⟩ := exists_first hafter
    obtain ⟨fuel, rfl⟩ : ∃ k, fuel = k + 1 + ys.length :=
      ⟨fuel - 1 - ys.length, by simp only [List.length_append] at hfuel; omega⟩
    have hsplit := h
    rw [← List.append_assoc] at hsplit
    refine ⟨xs ++ ys, z, zs, by simp, hz, ?_⟩
    rw [← hfreep, h.mallocLoop_walk _ hys fun x hx => hne x (by simp [hx])]
    exact hsplit.mallocLoop_stop hz
  · -- the search goes on at `base`
    have hsmall : ∀ x ∈ ys, ¬ n ≤ H.size (addr x) := fun x hx hle => hafter ⟨x, hx, hle⟩
    have hbefore : ∃ x ∈ xs, n ≤ H.size (addr x) := by
      obtain ⟨x, hx, hle⟩ := hbig
      exact ⟨x, (List.mem_append.mp hx).resolve_right fun hy => hsmall x hy hle, hle⟩
    have hend : H.Sorted b (xs ++ (ys ++ [])) := by rwa [List.append_nil]
    obtain ⟨zs, z, ws, hsplit, hz, hzs⟩ := exists_first hbefore
    have hassoc : H.Sorted b (zs ++ (z :: (ws ++ ys))) := by simpa [hsplit] using h
    have hstart : H.Sorted b ([] ++ (zs ++ (z :: (ws ++ ys)))) := hassoc
    have hlast : ∀ x ∈ b :: zs, addr x ≠ H.freep := by
      intro x hx
      rw [← hfreep, hsplit, lastNode_append, lastNode_cons]
      exact hassoc.addr_ne hx (List.mem_append_left ys (lastNode_mem z ws))
    obtain ⟨fuel, rfl⟩ : ∃ k, fuel = k + 1 + zs.length + 1 + ys.length :=
      ⟨fuel - 1 - zs.length - 1 - ys.length, by simp [hsplit] at hfuel; omega⟩
    refine ⟨zs, z, ws ++ ys, by simp [hsplit], hz, ?_⟩
    rw [← hfreep, hend.mallocLoop_walk _ hsmall hne, h.next_nil,
      mallocLoop_base hbase (hlast b List.mem_cons_self)]
    have hwalk := hstart.mallocLoop_walk (fuel + 1) hzs
      fun x hx => hlast x (List.mem_cons_of_mem b hx)
    rw [lastNode_nil, List.nil_append] at hwalk
    rw [hwalk]
    exact hassoc.mallocLoop_stop hz

/-- If no block is big enough, the loop comes back to `freep`, and asks for more memory. -/
theorem Sorted.mallocLoop_none {n : U32} (h : H.Sorted b us) (hbase : ¬ n ≤ H.size (addr b))
    (hmem : H.freep ∈ (b :: us).map addr) (hsmall : ∀ x ∈ us, ¬ n ≤ H.size (addr x)) :
    mallocLoop n (fuel + 1 + us.length) H.freep (H.ptr H.freep) H =
      (morecore fuel n H).bind fun r =>
        if r.2 = 0 then some r else mallocLoop n fuel r.2 (r.1.ptr r.2) r.1 := by
  obtain ⟨v, hv, hfreep⟩ := List.mem_map.mp hmem
  obtain ⟨xs, ys, rfl, rfl⟩ := exists_split_of_mem hv
  have hne : ∀ x ∈ ys, addr x ≠ H.freep :=
    fun x hx => hfreep ▸ (h.addr_ne (lastNode_mem b xs) hx).symm
  have hend : H.Sorted b (xs ++ (ys ++ [])) := by rwa [List.append_nil]
  have hys : ∀ x ∈ ys, ¬ n ≤ H.size (addr x) := fun x hx => hsmall x (List.mem_append_right xs hx)
  rcases List.eq_nil_or_concat' xs with rfl | ⟨xs, z, rfl⟩
  · have hwalk := hend.mallocLoop_walk (fuel + 1) hys hne
    have hfreep : addr b = H.freep := hfreep
    rw [List.nil_append] at h hwalk ⊢
    rw [h.next_nil, lastNode_nil, hfreep] at hwalk
    rw [hwalk, mallocLoop, if_neg (hfreep ▸ hbase), if_pos rfl]
  · have hsplit : H.Sorted b (xs ++ z :: ys) := by simpa using h
    have hfirst : H.Sorted b ([] ++ (xs ++ z :: ys)) := hsplit
    have hlast : ∀ x ∈ b :: xs, addr x ≠ H.freep := by
      intro x hx
      rw [← hfreep, lastNode_append, lastNode_cons, lastNode_nil]
      exact hsplit.addr_ne hx List.mem_cons_self
    have hz : addr z = H.freep := by simpa using hfreep
    have hback := hend.mallocLoop_walk (fuel + 1 + xs.length + 1) hys hne
    have hwalk := hfirst.mallocLoop_walk (fuel + 1)
      (fun x hx => hsmall x (by simp [hx])) fun x hx => hlast x (List.mem_cons_of_mem b hx)
    rw [h.next_nil, mallocLoop_base hbase (hlast b List.mem_cons_self), hfreep] at hback
    rw [lastNode_nil, List.nil_append] at hwalk
    rw [hwalk, hsplit.next_cons, mallocLoop, if_neg (hsmall z (by simp)), if_pos hz] at hback
    rw [← hback]
    congr 1
    simp only [List.length_append, List.length_singleton]
    omega

end Sorted

/-- The heap consists of these cells, from the unit `lo` on, and `base` is below it. -/
structure Represents (H : Heap) (b lo : ℕ) (cs : List Cell) : Prop where
  base : H.base = addr b
  base_pos : 0 < b
  base_lt : b < lo
  sound : Sound cs
  bss : H.bss = addr (lo + total cs)
  top : 8 * (lo + total cs) ≤ H.top.toNat
  baseSize : H.size (addr b) = 0
  sizes : ∀ f, ∀ c ∈ blocks f lo cs, H.size (addr c.start) = BitVec.ofNat 32 c.size
  circle : LeadsBack H.ptr (addr b) ((starts (blocks true lo cs)).map addr)
  freep : H.freep ∈ (b :: starts (blocks true lo cs)).map addr

section Represents

variable {H : Heap} {b lo n u : ℕ} {cs : List Cell} {fuel : ℕ}

theorem Represents.lt (h : H.Represents b lo cs) : lo + total cs < 2 ^ 29 := by
  have htop := h.top
  have hlt := H.top.isLt
  omega

/-- The free blocks of a sound arena are in the order of their addresses. -/
theorem pairwise_starts (hcs : Sound cs) (hb : b < lo) :
    (b :: starts (blocks true lo cs)).Pairwise (· < ·) := by
  refine List.pairwise_cons.mpr ⟨?_, List.pairwise_map.mpr (hcs.pairwise_start true lo)⟩
  intro v hv
  obtain ⟨c, hc, rfl⟩ := List.mem_map.mp hv
  exact hb.trans_le (bounds_of_mem hc).1

theorem mem_starts_bounds {f : Bool} {x : ℕ} (hx : x ∈ starts (blocks f u cs)) :
    u ≤ x ∧ x ≤ u + total cs := by
  obtain ⟨c, hc, rfl⟩ := List.mem_map.mp hx
  have hbounds := bounds_of_mem hc
  rw [Block.stop] at hbounds
  omega

theorem node_lt {x : ℕ} (hb : b < lo) (hlt : lo + total cs < 2 ^ 29)
    (hx : x ∈ b :: starts (blocks true lo cs)) : x < 2 ^ 29 := by
  rcases List.mem_cons.mp hx with rfl | hx
  · omega
  · have hbounds := mem_starts_bounds hx
    omega

theorem Represents.sorted (h : H.Represents b lo cs) : H.Sorted b (starts (blocks true lo cs)) :=
  ⟨h.circle, pairwise_starts h.sound h.base_lt, fun _ => node_lt h.base_lt h.lt⟩

theorem Represents.freep_ne_zero (h : H.Represents b lo cs) : H.freep ≠ 0 := by
  obtain ⟨x, hx, hfreep⟩ := List.mem_map.mp h.freep
  rw [← hfreep]
  refine addr_ne_zero (node_lt h.base_lt h.lt hx) ?_
  have hpos := h.base_pos
  have hbase := h.base_lt
  rcases List.mem_cons.mp hx with rfl | hmem
  · exact hpos
  · have hlow := mem_starts_bounds hmem
    omega

theorem Represents.length_le (h : H.Represents b lo cs) (f : Bool) :
    (blocks f lo cs).length ≤ total cs := by
  have hcs := h.sound
  clear h
  induction cs generalizing lo with
  | nil => exact Nat.zero_le _
  | cons c cs ih =>
      obtain ⟨-, hrest, hpos, -⟩ := sound_append_cons (A := []) hcs
      have hlen : (blocks f (lo + c.size) cs).length ≤ total cs := ih hrest
      rw [blocks_cons, total_cons]
      split
      · rw [List.length_cons]
        omega
      · omega

end Represents

end Heap

end KHypervisor
