import KHypervisor.Alloc.Refinement
import KHypervisor.Lib.Masks

/-!
# Requests to the allocator

`morecore` extends the arena by a free cell of at least 64 KiB. `malloc` serves a request if a free
cell is big enough or the arena can be extended by one, and returns a null pointer otherwise.
-/

namespace KHypervisor

open ByteMemory Arena

def unitsFor (nbytes : ℕ) : ℕ := (nbytes + 7) / 8 + 1

/-- The units that the arena grows by for a request of `n` units. -/
def growthFor (n : ℕ) : ℕ := (8 * n + 0xFFFF) / 0x10000 * 0x2000

theorem toNat_nunits {nbytes : U32} (h : nbytes.toNat + 7 < 2 ^ 32) :
    (Heap.nunits nbytes).toNat = unitsFor nbytes.toNat := by
  have hsum : (nbytes + 8 - 1).toNat = nbytes.toNat + 7 := by
    rw [add_sub_assoc]
    exact toNat_add_ofNat (k := 7) h
  have hdiv : (nbytes.toNat + 7) / 8 + 1 < 2 ^ 32 := by omega
  have hquot : ((nbytes + 8 - 1) / 8).toNat = (nbytes.toNat + 7) / 8 := by
    rw [BitVec.toNat_udiv, hsum]
    rfl
  rw [Heap.nunits, BitVec.toNat_add, hquot]
  exact Nat.mod_eq_of_lt hdiv

theorem growthFor_pos {n : ℕ} (hn : 0 < n) : 0 < growthFor n := by
  rw [growthFor]
  omega

theorem le_growthFor (n : ℕ) : n ≤ growthFor n := by
  rw [growthFor]
  omega

theorem roundUp_nalloc {n : ℕ} (h : 8 * growthFor n < 2 ^ 32) :
    roundUp (BitVec.ofNat 32 n * 8) nalloc = BitVec.ofNat 32 (8 * growthFor n) := by
  have hsum : 8 * n + (2 ^ 16 - 1) < 2 ^ 32 := by
    rw [growthFor] at h
    omega
  have hbytes : (BitVec.ofNat 32 n * 8).toNat = 8 * n := by
    have hmul : BitVec.ofNat 32 n * 8 = BitVec.ofNat 32 (8 * n) := by
      rw [BitVec.ofNat_mul, mul_comm]
      rfl
    rw [hmul, BitVec.toNat_ofNat, Nat.mod_eq_of_lt (by omega)]
  have hmask : nalloc - 1 = BitVec.ofNat 32 (2 ^ 16 - 1) := rfl
  apply BitVec.eq_of_toNat_eq
  rw [roundUp, hmask, Masks.toNat_round_up _ (by rwa [hbytes]), hbytes, BitVec.toNat_ofNat,
    Nat.mod_eq_of_lt h, growthFor]
  omega

theorem unitsFor_pos (nbytes : ℕ) : 0 < unitsFor nbytes := Nat.succ_pos _

/-- Where the extension of the arena does not wrap, the number of units does not. -/
theorem unitsFor_lt {k : ℕ} {nbytes : U32}
    (h : 8 * (k + growthFor (unitsFor nbytes.toNat)) < 2 ^ 32) :
    unitsFor nbytes.toNat < 2 ^ 29 := by
  have hgrow := le_growthFor (unitsFor nbytes.toNat)
  omega

theorem nunits_eq {nbytes : U32} (h : unitsFor nbytes.toNat < 2 ^ 29) :
    Heap.nunits nbytes = BitVec.ofNat 32 (unitsFor nbytes.toNat) := by
  have hsum : nbytes.toNat + 7 < 2 ^ 32 := by
    rw [unitsFor] at h
    omega
  apply BitVec.eq_of_toNat_eq
  rw [toNat_nunits hsum, BitVec.toNat_ofNat, Nat.mod_eq_of_lt (by omega)]

theorem addr_add_bytes (u k : ℕ) : addr u + BitVec.ofNat 32 (8 * k) = addr (u + k) := by
  rw [← addr_add, BitVec.ofNat_mul]
  rfl

theorem bytes_div_eight {k : ℕ} (h : 8 * k < 2 ^ 32) :
    BitVec.ofNat 32 (8 * k) / 8 = BitVec.ofNat 32 k := by
  apply BitVec.eq_of_toNat_eq
  rw [BitVec.toNat_udiv, BitVec.toNat_ofNat, BitVec.toNat_ofNat, Nat.mod_eq_of_lt h,
    Nat.mod_eq_of_lt (by omega)]
  exact Nat.mul_div_cancel_left k (by decide)

namespace Heap

variable {H : Heap} {b lo n : ℕ} {cs : List Cell} {fuel : ℕ}

/-- The arena is extended by a cell whose size is stored in its header. -/
theorem Represents.extend (h : H.Represents b lo cs) {k : ℕ} (hk : 0 < k)
    (hfit : 8 * (lo + total cs + k) ≤ H.top.toNat) :
    ∃ m, setSize H.bss (BitVec.ofNat 32 k) { H with bss := addr (lo + total cs + k) } =
        { H with mem := m, bss := addr (lo + total cs + k) } ∧
      Represents { H with mem := m, bss := addr (lo + total cs + k) } b lo
        (cs ++ [⟨false, k⟩]) ∧
      SameOff {lo + total cs} H.mem m := by
  have hbase := h.base_lt
  have htop := H.top.isLt
  obtain ⟨m, hm, hptr, hsize, hoff⟩ := exists_setSize (show lo + total cs < 2 ^ 29 by omega)
    { H with bss := addr (lo + total cs + k) } (BitVec.ofNat 32 k)
  have htrue : blocks true lo (cs ++ [⟨false, k⟩]) = blocks true lo cs := by simp
  refine ⟨m, by rw [h.bss]; exact hm, ?_, hoff⟩
  exact
    { base := h.base
      base_pos := h.base_pos
      base_lt := hbase
      sound := h.sound.append_cons ⟨by simp, .nil⟩ hk (fun _ _ => .inr rfl) (by simp)
      bss := by simp [Nat.add_assoc]
      top := by simpa [← Nat.add_assoc] using hfit
      baseSize := (sameOff_size hoff (by omega) (by rw [Set.mem_singleton_iff]; omega)).trans
        h.baseSize
      sizes := by
        intro f c hc
        rw [blocks_append, List.mem_append] at hc
        rcases hc with hc | hc
        · have hlow := mem_starts_lt h.sound (List.mem_map_of_mem hc)
          exact (sameOff_size hoff (by omega) (by rw [Set.mem_singleton_iff]; omega)).trans
            (h.sizes f c hc)
        · rw [blocks_cons] at hc
          split at hc
          · obtain rfl := List.mem_singleton.mp hc
            exact hsize
          · cases hc
      circle := by
        rw [htrue]
        refine h.circle.congr fun x hx => ?_
        obtain ⟨y, -, rfl⟩ : ∃ y, y ∈ b :: starts (blocks true lo cs) ∧ addr y = x :=
          List.mem_map.mp hx
        exact hptr y
      freep := by
        rw [htrue]
        exact h.freep }

/-- `morecore` extends the arena by a free cell. -/
theorem Represents.morecore (h : H.Represents b lo cs) (hn : 0 < n)
    (hfit : 8 * (lo + total cs + growthFor n) ≤ H.top.toNat)
    (hfuel : total cs + growthFor n + 2 ≤ fuel) :
    ∃ m freep, morecore fuel (BitVec.ofNat 32 n) H =
        some ({ H with mem := m, freep := freep, bss := addr (lo + total cs + growthFor n) },
          freep) ∧
      freep ≠ 0 ∧
      Represents { H with mem := m, freep := freep, bss := addr (lo + total cs + growthFor n) } b lo
        (release cs [] (growthFor n)) ∧
      SameOff (freeUnits b lo cs ∪ {lo + total cs}) H.mem m := by
  have htop := H.top.isLt
  have hgrow := growthFor_pos hn
  obtain ⟨m, hm, hrep, hoff⟩ := h.extend hgrow hfit
  obtain ⟨m', freep, hfree, hrep', hoff'⟩ := hrep.free (show _ ≤ fuel by simp; omega)
  have htop' : ¬ H.top < addr (lo + total cs + growthFor n) := by
    rw [BitVec.lt_def, toNat_addr (by omega)]
    omega
  refine ⟨m', freep, ?_, hrep'.freep_ne_zero, hrep', ?_⟩
  · rw [Heap.morecore, roundUp_nalloc (by omega), h.bss, addr_add_bytes, if_neg htop']
    rw [h.bss] at hm
    simp only [bytes_div_eight (show 8 * growthFor n < 2 ^ 32 by omega), hm, addr_add_eight, hfree,
      Option.map_some]
  · refine (hoff.mono (Set.singleton_subset_iff.mpr (.inr rfl))).trans (hoff'.mono ?_)
    rintro x (hx | hx)
    · left
      simpa [freeUnits] using hx
    · exact .inr hx

/-- `morecore` leaves the arena as it is if the heap is too small. -/
theorem Represents.morecore_null (h : H.Represents b lo cs)
    (hfit : H.top.toNat < 8 * (lo + total cs + growthFor n))
    (hwrap : 8 * (lo + total cs + growthFor n) < 2 ^ 32) :
    Heap.morecore fuel (BitVec.ofNat 32 n) H = some (H, 0) := by
  have hlt := h.lt
  have htop : H.top < addr (lo + total cs + growthFor n) := by
    rwa [BitVec.lt_def, toNat_addr (by omega)]
  rw [Heap.morecore, roundUp_nalloc (by omega), h.bss, addr_add_bytes, if_pos htop]

/-! ## Service of a request -/

/-- A request for `n` units is served by a block at the unit `u`: it comes to be used, nothing else
does, and only free cells, `base` and the extension of the arena are written to. -/
structure Serves (H H' : Heap) (b lo n u : ℕ) (cs cs' : List Cell) : Prop where
  represents : H'.Represents b lo cs'
  used : ∀ c, c ∈ blocks false lo cs' ↔ c = ⟨u, n⟩ ∨ c ∈ blocks false lo cs
  fresh : ∀ c ∈ blocks false lo cs, c.start ≠ u
  le : total cs ≤ total cs'
  sameOff : SameOff (freeUnits b lo cs ∪ {x | lo + total cs ≤ x ∧ x < lo + total cs'}) H.mem H'.mem
  base : H'.base = H.base
  top : H'.top = H.top

theorem ofNat_le_ofNat {m n : ℕ} (hm : m < 2 ^ 32) (hn : n < 2 ^ 32) :
    BitVec.ofNat 32 m ≤ BitVec.ofNat 32 n ↔ m ≤ n := by
  rw [BitVec.le_def, BitVec.toNat_ofNat, BitVec.toNat_ofNat, Nat.mod_eq_of_lt hm,
    Nat.mod_eq_of_lt hn]

theorem Represents.size_lt (h : H.Represents b lo cs) {f : Bool} {c : Block}
    (hc : c ∈ blocks f lo cs) : c.size < 2 ^ 29 := by
  have hlt := h.lt
  have hstop := (bounds_of_mem hc).2
  rw [Block.stop] at hstop
  omega

theorem Represents.le_size_iff (h : H.Represents b lo cs) (hn : n < 2 ^ 32) :
    (∃ x ∈ starts (blocks true lo cs), BitVec.ofNat 32 n ≤ H.size (addr x)) ↔
      ∃ c ∈ blocks true lo cs, n ≤ c.size := by
  have hiff : ∀ c ∈ blocks true lo cs, BitVec.ofNat 32 n ≤ H.size (addr c.start) ↔ n ≤ c.size := by
    intro c hc
    have hsize := h.size_lt hc
    rw [h.sizes true c hc, ofNat_le_ofNat hn (by omega)]
  constructor
  · rintro ⟨x, hx, hle⟩
    obtain ⟨c, hc, rfl⟩ := List.mem_map.mp hx
    exact ⟨c, hc, (hiff c hc).mp hle⟩
  · rintro ⟨c, hc, hle⟩
    exact ⟨c.start, List.mem_map_of_mem hc, (hiff c hc).mpr hle⟩

theorem Represents.not_le_base (h : H.Represents b lo cs) (hn : 0 < n) (hn32 : n < 2 ^ 32) :
    ¬ BitVec.ofNat 32 n ≤ H.size (addr b) := by
  rw [h.baseSize, BitVec.le_def, BitVec.toNat_ofNat, Nat.mod_eq_of_lt hn32]
  exact Nat.not_le.mpr hn

theorem Represents.serves_take {A B : List Cell} {k : ℕ}
    (h : H.Represents b lo (A ++ ⟨true, k⟩ :: B)) {m : Memory 32} {freep : U32} (hk : n ≤ k)
    (hrep : Represents { H with mem := m, freep := freep } b lo (take A B k n))
    (hoff : SameOff (freeUnits b lo (A ++ ⟨true, k⟩ :: B)) H.mem m) :
    Serves H { H with mem := m, freep := freep } b lo n (lo + total A + (k - n))
      (A ++ ⟨true, k⟩ :: B) (take A B k n) := by
  have hold : blocks false lo (A ++ ⟨true, k⟩ :: B) =
      blocks false lo A ++ blocks false (lo + total A + k) B := by simp
  refine ⟨hrep, ?_, ?_, (total_take A B hk).ge, hoff.mono Set.subset_union_left, rfl, rfl⟩
  · intro c
    rw [blocks_false_take A B hk, hold]
    simp only [List.mem_append, List.mem_cons]
    tauto
  · intro c hc
    rw [hold, List.mem_append] at hc
    rcases hc with hc | hc
    · have hlow := mem_starts_lt (sound_append_cons h.sound).1 (List.mem_map_of_mem hc)
      omega
    · have hlow := (bounds_of_mem hc).1
      have hpos := hrep.sound.pos ⟨false, n⟩ (by simp [take])
      simp only at hpos
      omega

/-- The loop of `malloc` takes the end of a free cell that is big enough, if there is one. -/
theorem Represents.mallocLoop_serves (h : H.Represents b lo cs) (hn : 0 < n) (hn32 : n < 2 ^ 32)
    (hfuel : total cs + 2 ≤ fuel) (hbig : ∃ c ∈ blocks true lo cs, n ≤ c.size) :
    ∃ H' u cs', mallocLoop (BitVec.ofNat 32 n) fuel H.freep (H.ptr H.freep) H =
      some (H', addr (u + 1)) ∧ Serves H H' b lo n u cs cs' := by
  have hlength := h.length_le true
  obtain ⟨xs, z, zs, hsplit, hz, hloop⟩ := h.sorted.mallocLoop_found
    (h.not_le_base hn hn32) h.freep
    (show _ ≤ fuel by simp only [starts, List.length_map]; omega)
    ((h.le_size_iff hn32).mpr hbig)
  obtain ⟨bs, bs', hblocks, rfl, hrest⟩ := List.map_eq_append_iff.mp hsplit
  obtain ⟨c, cs₂, rfl, rfl, rfl⟩ := List.map_eq_cons_iff.mp hrest
  obtain ⟨A, B, rfl, hstart, hA, -⟩ := exists_cell hblocks
  have hc : c ∈ blocks true lo (A ++ ⟨true, c.size⟩ :: B) := by simp [hblocks]
  have hsize := h.size_lt hc
  rw [h.sizes true c hc, ofNat_le_ofNat hn32 (by omega)] at hz
  obtain ⟨m, freep, halloc, hrep, hoff⟩ := h.allocate hn hz
  refine ⟨_, _, _, ?_, h.serves_take hz hrep hoff⟩
  rw [hloop, hstart, ← hA]
  exact congrArg some halloc

/-- There is a free cell for a request, or there is room for one. -/
def Servable (H : Heap) (lo n : ℕ) (cs : List Cell) : Prop :=
  (∃ c ∈ blocks true lo cs, n ≤ c.size) ∨ 8 * (lo + total cs + growthFor n) ≤ H.top.toNat

/-- The arena after it was extended has a free cell for the request. -/
theorem exists_free_of_growth (lo n : ℕ) (cs : List Cell) :
    ∃ c ∈ blocks true lo (release cs [] (growthFor n)), n ≤ c.size := by
  have hle := le_growthFor n
  rcases release_cases cs [] (growthFor n) with ⟨A, k, rfl, hrel⟩ | ⟨-, hrel⟩
  · refine ⟨⟨lo + total A, k + growthFor n⟩, ?_, by simp only; omega⟩
    rw [hrel]
    simp [absorb]
  · refine ⟨⟨lo + total cs, growthFor n⟩, ?_, hle⟩
    rw [hrel]
    simp [absorb]

/-- The free units of the extended arena are free before, or in the extension. -/
theorem free_of_growth {k x : ℕ} {c : Block} (hc : c ∈ blocks true lo (release cs [] k))
    (hlow : c.start ≤ x) (hhigh : x < c.stop) (hx : x < lo + total cs) :
    ∃ d ∈ blocks true lo cs, d.start ≤ x ∧ x < d.stop := by
  rcases release_cases cs [] k with ⟨A, j, rfl, hrel⟩ | ⟨-, hrel⟩
  · rw [hrel, blocks_append, List.mem_append] at hc
    rcases hc with hc | hc
    · exact ⟨c, by simp [hc], hlow, hhigh⟩
    · obtain rfl : c = ⟨lo + total A, j + k⟩ := by simpa [absorb] using hc
      refine ⟨⟨lo + total A, j⟩, by simp, hlow, ?_⟩
      simpa [Block.stop, Nat.add_assoc] using hx
  · rw [hrel, blocks_append, List.mem_append] at hc
    rcases hc with hc | hc
    · exact ⟨c, hc, hlow, hhigh⟩
    · obtain rfl : c = ⟨lo + total cs, k⟩ := by simpa [absorb] using hc
      simp only at hlow
      omega

theorem Serves.of_growth {H' : Heap} {u : ℕ} {cs' : List Cell} {m : Memory 32} {freep bss : U32}
    {k : ℕ} (hk : 0 < k)
    (hoff : SameOff (freeUnits b lo cs ∪ {lo + total cs}) H.mem m)
    (hserves : Serves { H with mem := m, freep := freep, bss := bss } H' b lo n u
      (release cs [] k) cs') : Serves H H' b lo n u cs cs' := by
  have hused : blocks false lo (release cs [] k) = blocks false lo cs := by
    simp [blocks_false_release]
  have htotal := total_release cs [] k
  rw [total_append, total_cons, total_nil, Nat.add_zero] at htotal
  obtain ⟨hrep, hmem, hfresh, hle, hsame, hbase, htop⟩ := hserves
  rw [hused] at hmem hfresh
  simp only at htotal
  refine ⟨hrep, hmem, hfresh, by omega, (hoff.mono ?_).trans (hsame.mono ?_), hbase, htop⟩
  · rintro x (hx | hx)
    · exact .inl hx
    · obtain rfl : x = lo + total cs := hx
      exact .inr ⟨le_rfl, by omega⟩
  · rintro x ((hx | ⟨c, hc, hlow, hhigh⟩) | ⟨hlow, hhigh⟩)
    · exact .inl (.inl hx)
    · -- a free cell of the extended arena is in the arena or in the extension
      have hstop := (bounds_of_mem hc).2
      by_cases hx : x < lo + total cs
      · exact .inl (.inr (free_of_growth hc hlow hhigh hx))
      · exact .inr ⟨not_lt.mp hx, by omega⟩
    · exact .inr ⟨by omega, hhigh⟩

theorem Represents.start (h : H.Represents b lo cs) : H.start = H := by
  rw [Heap.start, if_neg h.freep_ne_zero]

/-- `malloc` serves a request if it can. -/
theorem Represents.malloc_serves (h : H.Represents b lo cs) {nbytes : U32}
    (hwrap : 8 * (lo + total cs + growthFor (unitsFor nbytes.toNat)) < 2 ^ 32)
    (hfuel : 2 ^ 30 + 2 ≤ fuel) (hservable : H.Servable lo (unitsFor nbytes.toNat) cs) :
    ∃ H' u cs', malloc fuel nbytes H = some (H', addr (u + 1)) ∧
      Serves H H' b lo (unitsFor nbytes.toNat) u cs cs' := by
  have hpos := unitsFor_pos nbytes.toNat
  have hlt := h.lt
  have hn := unitsFor_lt hwrap
  rw [Heap.malloc, h.start, nunits_eq hn]
  generalize unitsFor nbytes.toNat = n at *
  have hn32 : n < 2 ^ 32 := hn.trans (by decide)
  by_cases hbig : ∃ c ∈ blocks true lo cs, n ≤ c.size
  · exact h.mallocLoop_serves hpos hn32 (by omega) hbig
  · -- the arena is extended, and the search goes on
    have hfit := hservable.resolve_left hbig
    have hlength := h.length_le true
    have hnone : ∀ x ∈ starts (blocks true lo cs), ¬ BitVec.ofNat 32 n ≤ H.size (addr x) :=
      fun x hx hle => hbig ((h.le_size_iff hn32).mp ⟨x, hx, hle⟩)
    obtain ⟨fuel, rfl⟩ : ∃ k, fuel = k + 1 + (starts (blocks true lo cs)).length :=
      ⟨fuel - 1 - (starts (blocks true lo cs)).length,
        by simp only [starts, List.length_map]; omega⟩
    simp only [starts, List.length_map] at hfuel
    obtain ⟨m, freep, hmore, hne, hrep, hoff⟩ := h.morecore hpos hfit
      (show _ ≤ fuel by omega)
    have htotal := total_release cs [] (growthFor n)
    rw [total_append, total_cons, total_nil, Nat.add_zero] at htotal
    simp only at htotal
    obtain ⟨H', u, cs', hloop, hserves⟩ := hrep.mallocLoop_serves hpos hn32
      (show _ ≤ fuel by omega) (exists_free_of_growth lo n cs)
    refine ⟨H', u, cs', ?_, Serves.of_growth (growthFor_pos hpos) hoff hserves⟩
    rw [h.sorted.mallocLoop_none (h.not_le_base hpos hn32) h.freep hnone, hmore, Option.bind_some,
      if_neg hne]
    exact hloop

/-- `malloc` returns a null pointer, and changes nothing, if it cannot serve a request. -/
theorem Represents.malloc_null (h : H.Represents b lo cs) {nbytes : U32}
    (hwrap : 8 * (lo + total cs + growthFor (unitsFor nbytes.toNat)) < 2 ^ 32)
    (hfuel : 2 ^ 30 + 2 ≤ fuel) (hservable : ¬ H.Servable lo (unitsFor nbytes.toNat) cs) :
    malloc fuel nbytes H = some (H, 0) := by
  obtain ⟨hbig, hfit⟩ := not_or.mp hservable
  have hpos := unitsFor_pos nbytes.toNat
  have hn32 : unitsFor nbytes.toNat < 2 ^ 32 := (unitsFor_lt hwrap).trans (by decide)
  have hlength := h.length_le true
  have hlt := h.lt
  have hnone : ∀ x ∈ starts (blocks true lo cs),
      ¬ BitVec.ofNat 32 (unitsFor nbytes.toNat) ≤ H.size (addr x) :=
    fun x hx hle => hbig ((h.le_size_iff hn32).mp ⟨x, hx, hle⟩)
  obtain ⟨fuel, rfl⟩ : ∃ k, fuel = k + 1 + (starts (blocks true lo cs)).length :=
    ⟨fuel - 1 - (starts (blocks true lo cs)).length, by simp only [starts, List.length_map]; omega⟩
  rw [Heap.malloc, h.start, nunits_eq (unitsFor_lt hwrap),
    h.sorted.mallocLoop_none (h.not_le_base hpos hn32) h.freep hnone,
    h.morecore_null (not_le.mp hfit) hwrap, Option.bind_some, if_pos rfl]

end Heap

end KHypervisor
