import KHypervisor.Alloc.Growth

/-!
# Blocks of clients

Clients of the allocator have blocks which `malloc` has returned; a block of `aligned_alloc` is a
part of one, behind a pointer to it. The blocks in use of the arena are those that clients have, and
each function of the allocator keeps what the clients have in theirs, and what is outside of the
heap and `base`.
-/

namespace KHypervisor

open ByteMemory Arena

/-- Where the linker scripts put `base`, which is in `.bss`, and the heap. -/
structure HeapLayout where
  base : U32
  beginHeap : U32
  endHeap : U32
  base_aligned : 8 ∣ base.toNat
  begin_aligned : 8 ∣ beginHeap.toNat
  base_pos : 0 < base.toNat
  base_lt : base.toNat < beginHeap.toNat
  begin_le : beginHeap.toNat ≤ endHeap.toNat

/-- A block that a client has: what `malloc` returned and was asked for, and the part of it that the
client got. -/
structure Grant where
  block : U32
  nbytes : U32
  ptr : U32
  len : U32

namespace Grant

def whole (p nbytes : U32) : Grant := ⟨p, nbytes, p, nbytes⟩

def Owns (g : Grant) (a : U32) : Prop :=
  g.block.toNat ≤ a.toNat ∧ a.toNat < g.block.toNat + g.nbytes.toNat

def Inside (g : Grant) (a : U32) : Prop :=
  g.ptr.toNat ≤ a.toNat ∧ a.toNat < g.ptr.toNat + g.len.toNat

instance (g : Grant) (a : U32) : Decidable (g.Inside a) :=
  inferInstanceAs (Decidable (g.ptr.toNat ≤ a.toNat ∧ a.toNat < g.ptr.toNat + g.len.toNat))

structure Fits (g : Grant) : Prop where
  le : g.block.toNat ≤ g.ptr.toNat
  le_end : g.ptr.toNat + g.len.toNat ≤ g.block.toNat + g.nbytes.toNat

theorem fits_whole (p nbytes : U32) : (whole p nbytes).Fits := ⟨le_rfl, le_rfl⟩

theorem Fits.owns {g : Grant} (h : g.Fits) {a : U32} (ha : g.Inside a) : g.Owns a :=
  ⟨h.le.trans ha.1, ha.2.trans_le h.le_end⟩

/-- If the client did not get the block from its start, the word before its part points to it. -/
def Linked (g : Grant) (m : Memory 32) : Prop :=
  g.ptr ≠ g.block → g.block.toNat + 4 ≤ g.ptr.toNat ∧ read32 m (g.ptr - 4) = g.block

theorem linked_whole (p nbytes : U32) (m : Memory 32) : (whole p nbytes).Linked m :=
  fun hne => absurd rfl hne

theorem Linked.owns_before {g : Grant} {m : Memory 32} (h : g.Linked m) (hfits : g.Fits)
    (hne : g.ptr ≠ g.block) {k : ℕ} (hk : k < 4) :
    g.Owns (g.ptr - 4 + BitVec.ofNat 32 k) ∧ ¬ g.Inside (g.ptr - 4 + BitVec.ofNat 32 k) := by
  have hlow := (h hne).1
  have hend := hfits.le_end
  have hlt := g.ptr.isLt
  have hfour : (4 : U32).toNat = 4 := rfl
  have hsub : (g.ptr - 4).toNat = g.ptr.toNat - 4 :=
    BitVec.toNat_sub_of_le (show (4 : U32).toNat ≤ g.ptr.toNat by omega)
  rw [Owns, Inside, toNat_add_ofNat (by omega), hsub]
  omega

theorem Linked.congr {g : Grant} {m m' : Memory 32} (h : g.Linked m) (hfits : g.Fits)
    (hsame : ∀ a, g.Owns a → ¬ g.Inside a → m' a = m a) : g.Linked m' := by
  intro hne
  refine ⟨(h hne).1, ?_⟩
  rw [← (h hne).2]
  refine read32_congr fun k hk => ?_
  obtain ⟨howns, hinside⟩ := h.owns_before hfits hne hk
  exact hsame _ howns hinside

end Grant

/-- The blocks of the clients, and what is outside of the heap and `base`, are not changed. -/
structure Kept (L : HeapLayout) (gs : List Grant) (m m' : Memory 32) : Prop where
  owned : ∀ g ∈ gs, ∀ a, g.Owns a → m' a = m a
  outside : ∀ a : U32, (a.toNat < L.base.toNat ∨ L.base.toNat + 8 ≤ a.toNat) →
    (a.toNat < L.beginHeap.toNat ∨ L.endHeap.toNat ≤ a.toNat) → m' a = m a

section Kept

variable {L : HeapLayout} {gs gs' : List Grant} {m m' m'' : Memory 32}

theorem Kept.refl (L : HeapLayout) (gs : List Grant) (m : Memory 32) : Kept L gs m m :=
  ⟨fun _ _ _ _ => rfl, fun _ _ _ => rfl⟩

theorem Kept.trans (h : Kept L gs m m') (h' : Kept L gs m' m'') : Kept L gs m m'' :=
  ⟨fun g hg a ha => (h'.owned g hg a ha).trans (h.owned g hg a ha),
    fun a hbase hheap => (h'.outside a hbase hheap).trans (h.outside a hbase hheap)⟩

theorem Kept.mono (h : Kept L gs m m') (hsub : gs' ⊆ gs) : Kept L gs' m m' :=
  ⟨fun g hg => h.owned g (hsub hg), h.outside⟩

end Kept

namespace HeapRun

def maxSteps : ℕ := 2 ^ 31

/-- A request so large that the end of the heap would be beyond the address space. -/
def Overflows (H : Heap) (nbytes : U32) : Prop :=
  2 ^ 32 ≤ H.bss.toNat + 8 * growthFor (unitsFor nbytes.toNat)

instance (H : Heap) (nbytes : U32) : Decidable (Overflows H nbytes) :=
  inferInstanceAs (Decidable (_ ≤ _))

/-- The blocks in use are those that clients have, and the heap is as the linker script puts it. -/
structure Inv (L : HeapLayout) (H : Heap) (gs : List Grant) (cs : List Cell) : Prop where
  ready : H.Represents (L.base.toNat / 8) (L.beginHeap.toNat / 8) cs ∨
    H.freep = 0 ∧ cs = [] ∧ H.bss = L.beginHeap
  base : H.base = L.base
  top : H.top = L.endHeap
  used : ∀ c ∈ blocks false (L.beginHeap.toNat / 8) cs,
    ∃ g ∈ gs, g.block = addr (c.start + 1) ∧ c.size = unitsFor g.nbytes.toNat
  live : ∀ g ∈ gs, ∃ u, g.block = addr (u + 1) ∧
    (⟨u, unitsFor g.nbytes.toNat⟩ : Block) ∈ blocks false (L.beginHeap.toNat / 8) cs
  unique : ∀ g ∈ gs, ∀ g' ∈ gs, g.block = g'.block → g = g'
  fits : ∀ g ∈ gs, g.Fits
  linked : ∀ g ∈ gs, g.Linked H.mem

section Inv

variable {L : HeapLayout} {H : Heap} {gs : List Grant} {g g' : Grant} {cs : List Cell} {a : U32}

theorem addr_base (L : HeapLayout) : addr (L.base.toNat / 8) = L.base := by
  apply BitVec.eq_of_toNat_eq
  have hdvd := L.base_aligned
  have hlt := L.base.isLt
  rw [toNat_addr (by omega)]
  omega

theorem addr_beginHeap (L : HeapLayout) : addr (L.beginHeap.toNat / 8) = L.beginHeap := by
  apply BitVec.eq_of_toNat_eq
  have hdvd := L.begin_aligned
  have hlt := L.beginHeap.isLt
  rw [toNat_addr (by omega)]
  omega

theorem inv_init (L : HeapLayout) (mem : Memory 32) :
    Inv L (Heap.mallocInit mem L.base L.beginHeap L.endHeap) [] [] :=
  { ready := .inr ⟨rfl, rfl, rfl⟩
    base := rfl
    top := rfl
    used := by simp
    live := by simp
    unique := by simp
    fits := by simp
    linked := by simp }

/-- The first call of `malloc` makes the free list. -/
theorem Inv.start (h : Inv L H gs cs) :
    ∃ m freep, H.start = { H with mem := m, freep := freep } ∧
      Heap.Represents { H with mem := m, freep := freep } (L.base.toNat / 8)
        (L.beginHeap.toNat / 8) cs ∧
      SameOff {L.base.toNat / 8} H.mem m := by
  rcases h.ready with hrep | ⟨hfreep, rfl, hbss⟩
  · exact ⟨H.mem, H.freep, hrep.start, hrep, .refl _ _⟩
  · have hlt := L.beginHeap.isLt
    have hbase := L.base_lt
    have hpos := L.base_pos
    have hbdvd := L.base_aligned
    have hdvd := L.begin_aligned
    have hle := L.begin_le
    have hu : L.base.toNat / 8 < 2 ^ 29 := by omega
    have hb : addr (L.base.toNat / 8) = H.base := (addr_base L).trans h.base.symm
    obtain ⟨m, hm, hptr, -, hoff⟩ := Heap.exists_setPtr hu { H with freep := H.base } H.base
    obtain ⟨m', hm', hptr', hsize, hoff'⟩ := Heap.exists_setSize hu
      { H with mem := m, freep := H.base } 0
    rw [hb] at hm hptr hm' hsize
    refine ⟨m', H.base, ?_, ?_, hoff.trans hoff'⟩
    · rw [Heap.start, if_pos hfreep, hm, hm']
    · have hself : first m' (addr (L.base.toNat / 8)) = H.base := by
        rw [hptr', hb]
        exact hptr
      exact
        { base := hb.symm
          base_pos := by omega
          base_lt := by omega
          sound := ⟨by simp, .nil⟩
          bss := by rw [total_nil, Nat.add_zero, addr_beginHeap]; exact hbss
          top := by rw [total_nil, h.top]; omega
          baseSize := by rw [hb]; exact hsize
          sizes := by simp
          circle := by
            show first m' (addr (L.base.toNat / 8)) = addr (L.base.toNat / 8)
            rw [hself, hb]
          freep := by simp [starts, hb] }

theorem Inv.bss (h : Inv L H gs cs) :
    H.bss.toNat = L.beginHeap.toNat + 8 * total cs ∧ H.bss.toNat ≤ L.endHeap.toNat := by
  obtain ⟨m, freep, -, hrep, -⟩ := h.start
  have hbss : H.bss = _ := hrep.bss
  have htop : _ ≤ H.top.toNat := hrep.top
  have hdvd := L.begin_aligned
  rw [h.top] at htop
  rw [hbss, toNat_addr hrep.lt]
  omega

theorem Inv.block (h : Inv L H gs cs) (hg : g ∈ gs) :
    ∃ u, g.block = addr (u + 1) ∧ g.block.toNat = 8 * (u + 1) ∧ L.beginHeap.toNat ≤ 8 * u ∧
      8 * (u + unitsFor g.nbytes.toNat) ≤ H.bss.toNat ∧
      (⟨u, unitsFor g.nbytes.toNat⟩ : Block) ∈ blocks false (L.beginHeap.toNat / 8) cs := by
  obtain ⟨u, hu, hmem⟩ := h.live g hg
  obtain ⟨m, freep, -, hrep, -⟩ := h.start
  have hbounds := bounds_of_mem hmem
  have hlt := hrep.lt
  have hpos := unitsFor_pos g.nbytes.toNat
  have hbss := h.bss.1
  have hdvd := L.begin_aligned
  rw [Block.stop] at hbounds
  simp only at hbounds
  refine ⟨u, hu, ?_, by omega, by omega, hmem⟩
  rw [hu, toNat_addr (by omega)]

theorem Inv.represents (h : Inv L H gs cs) (hg : g ∈ gs) :
    H.Represents (L.base.toNat / 8) (L.beginHeap.toNat / 8) cs := by
  refine h.ready.resolve_right fun hnone => ?_
  obtain ⟨u, -, hmem⟩ := h.live g hg
  rw [hnone.2.1] at hmem
  cases hmem

theorem le_unitsFor (n : ℕ) : n + 8 ≤ 8 * unitsFor n := by
  rw [unitsFor]
  omega

theorem Inv.notMem (h : Inv L H gs cs) (hg : g ∈ gs) (ha : g.Owns a) :
    a.toNat / 8 ∉ Heap.freeUnits (L.base.toNat / 8) (L.beginHeap.toNat / 8) cs ∧
      a.toNat / 8 < L.beginHeap.toNat / 8 + total cs ∧
      ∀ f, ∀ c ∈ blocks f (L.beginHeap.toNat / 8) cs, c.start ≠ a.toNat / 8 := by
  obtain ⟨u, -, htoNat, hlow, hhigh, hmem⟩ := h.block hg
  have hrep := h.represents hg
  have hle := le_unitsFor g.nbytes.toNat
  have hbounds := bounds_of_mem hmem
  have hbase := hrep.base_lt
  obtain ⟨hin, hout⟩ := ha
  rw [htoNat] at hin hout
  rw [Block.stop] at hbounds
  simp only at hbounds
  have hother : ∀ f, ∀ c ∈ blocks f (L.beginHeap.toNat / 8) cs, c.start ≠ u →
      c.stop ≤ u ∨ u + unitsFor g.nbytes.toNat ≤ c.start :=
    fun f c hc hne => apart_of_mem hc hmem hne
  refine ⟨?_, by omega, ?_⟩
  · rintro (hx | ⟨c, hc, hstart, hstop⟩)
    · omega
    · have hne := hrep.sound.start_ne hc hmem
      have hside := hother true c hc hne
      omega
  · intro f c hc heq
    by_cases hne : c.start = u
    · omega
    · have hpos := hrep.sound.pos_of_mem hc
      have hside := hother f c hc hne
      rw [Block.stop] at hside
      omega

/-- What is outside of the heap and `base` is not written by the allocator. -/
theorem Inv.outside_notMem (h : Inv L H gs cs)
    (hbase : a.toNat < L.base.toNat ∨ L.base.toNat + 8 ≤ a.toNat)
    (hheap : a.toNat < L.beginHeap.toNat ∨ L.endHeap.toNat ≤ a.toNat) :
    a.toNat / 8 ∉ Heap.freeUnits (L.base.toNat / 8) (L.beginHeap.toNat / 8) cs := by
  have hbdvd := L.base_aligned
  have hdvd := L.begin_aligned
  have hbss := h.bss
  rintro (hx | ⟨c, hc, hstart, hstop⟩)
  · omega
  · have hbounds := bounds_of_mem hc
    omega

theorem Inv.block_ne_zero (h : Inv L H gs cs) (hg : g ∈ gs) : g.block ≠ 0 := by
  obtain ⟨u, -, htoNat, -⟩ := h.block hg
  intro heq
  rw [heq] at htoNat
  exact absurd htoNat (by rw [show (0 : U32).toNat = 0 from rfl]; omega)

theorem Inv.ptr_ne_zero (h : Inv L H gs cs) (hg : g ∈ gs) : g.ptr ≠ 0 := by
  have hle := (h.fits g hg).le
  intro heq
  rw [heq] at hle
  exact h.block_ne_zero hg (BitVec.eq_of_toNat_eq (Nat.le_zero.mp hle))

theorem Inv.addr_start_inj (h : Inv L H gs cs) {f f' : Bool} {c d : Block}
    (hc : c ∈ blocks f (L.beginHeap.toNat / 8) cs) (hd : d ∈ blocks f' (L.beginHeap.toNat / 8) cs) :
    addr (c.start + 1) = addr (d.start + 1) ↔ c.start = d.start := by
  obtain ⟨m, freep, -, hrep, -⟩ := h.start
  have hlt := hrep.lt
  have hcpos := hrep.sound.pos_of_mem hc
  have hdpos := hrep.sound.pos_of_mem hd
  have hcstop := (bounds_of_mem hc).2
  have hdstop := (bounds_of_mem hd).2
  rw [Block.stop] at hcstop hdstop
  rw [addr_inj (by omega) (by omega)]
  omega

theorem Inv.apart (h : Inv L H gs cs) (hg : g ∈ gs) (hg' : g' ∈ gs) (hne : g.block ≠ g'.block) :
    g.block.toNat + 8 * unitsFor g.nbytes.toNat ≤ g'.block.toNat ∨
      g'.block.toNat + 8 * unitsFor g'.nbytes.toNat ≤ g.block.toNat := by
  obtain ⟨u, hu, htoNat, -, -, hmem⟩ := h.block hg
  obtain ⟨u', hu', htoNat', -, -, hmem'⟩ := h.block hg'
  have hstart : u ≠ u' := fun heq => hne (by rw [hu, hu', heq])
  have hsides := apart_of_mem hmem hmem' hstart
  simp only [Block.stop] at hsides
  omega

theorem Inv.eq_of_ptr (h : Inv L H gs cs) (hg : g ∈ gs) (hg' : g' ∈ gs) (hptr : g.ptr = g'.ptr) :
    g = g' := by
  by_contra hne
  have hapart := h.apart hg hg' fun heq => hne (h.unique g hg g' hg' heq)
  have hfits := h.fits g hg
  have hfits' := h.fits g' hg'
  have hle := hfits.le
  have hend := hfits.le_end
  have hle' := hfits'.le
  have hend' := hfits'.le_end
  have hunits := le_unitsFor g.nbytes.toNat
  have hunits' := le_unitsFor g'.nbytes.toNat
  rw [hptr] at hle hend
  omega

theorem Inv.mem_filter_iff (h : Inv L H gs cs) (hg : g ∈ gs) :
    g' ∈ gs.filter (fun e => e.ptr ≠ g.ptr) ↔ g' ∈ gs ∧ g'.block ≠ g.block := by
  rw [List.mem_filter, decide_eq_true_iff]
  refine and_congr_right fun hg' => not_congr ⟨fun heq => ?_, fun heq => ?_⟩
  · rw [h.eq_of_ptr hg' hg heq]
  · rw [h.unique g' hg' g hg heq]

/-! ## Functions of the allocator -/

theorem Inv.kept_write (h : Inv L H gs cs) (hg : g ∈ gs) {m : Memory 32}
    (hm : ∀ a, ¬ g.Owns a → m a = H.mem a) {es : List Grant}
    (hes : ∀ e ∈ es, e ∈ gs ∧ e.block ≠ g.block) : Kept L es H.mem m := by
  obtain ⟨u, -, htoNat, hlow, hhigh, -⟩ := h.block hg
  have hbss := h.bss.2
  have hunits := le_unitsFor g.nbytes.toNat
  refine ⟨fun e he a ha => hm a fun hin => ?_, fun a _ hheap => hm a fun hin => ?_⟩
  · have hapart := h.apart (hes e he).1 hg (hes e he).2
    have hunits' := le_unitsFor e.nbytes.toNat
    obtain ⟨hge, hlt⟩ := ha
    obtain ⟨hge', hlt'⟩ := hin
    omega
  · obtain ⟨hge, hlt⟩ := hin
    omega

theorem Inv.write (h : Inv L H gs cs) (hg : g ∈ gs) {m : Memory 32}
    (hm : ∀ a, ¬ g.Owns a → m a = H.mem a) (hlinked : g.Linked m) :
    Inv L { H with mem := m } gs cs := by
  have hother := (h.kept_write hg hm fun e he => (h.mem_filter_iff hg).mp he).owned
  have hoff : SameOff {x | ∃ a, g.Owns a ∧ a.toNat / 8 = x} H.mem m :=
    fun a ha => hm a fun hin => ha ⟨a, hin, rfl⟩
  refine ⟨h.ready.imp (fun hrep => ?_) id, h.base, h.top, h.used, h.live, h.unique, h.fits, ?_⟩
  · refine hrep.of_sameOff hoff ?_ ?_
    · rintro ⟨a, ha, heq⟩
      exact (h.notMem hg ha).1 (.inl heq)
    · rintro f c hc ⟨a, ha, heq⟩
      exact (h.notMem hg ha).2.2 f c hc heq.symm
  · intro e he
    by_cases heq : e = g
    · exact heq ▸ hlinked
    · have hrest : e ∈ gs.filter (fun e => e.ptr ≠ g.ptr) :=
        (h.mem_filter_iff hg).mpr ⟨he, fun hblock => heq (h.unique e he g hg hblock)⟩
      exact (h.linked e he).congr (h.fits e he) fun a ha _ => hother e hrest a ha

theorem Inv.free (h : Inv L H gs cs) (hg : g ∈ gs) :
    ∃ H' cs', H.free maxSteps g.block = some H' ∧
      Inv L H' (gs.filter fun e => e.ptr ≠ g.ptr) cs' ∧
      Kept L (gs.filter fun e => e.ptr ≠ g.ptr) H.mem H'.mem := by
  have hrest : ∀ e, e ∈ gs.filter (fun e => e.ptr ≠ g.ptr) ↔ e ∈ gs ∧ e.block ≠ g.block :=
    fun _ => h.mem_filter_iff hg
  obtain ⟨u, hu, htoNat, hlow, hhigh, hmem⟩ := h.block hg
  have hrep := h.represents hg
  have hnotMem := fun e (he : e ∈ gs) a (ha : e.Owns a) => h.notMem he ha
  have houtside := fun a hbase hheap => h.outside_notMem (a := a) hbase hheap
  have hbss := h.bss.2
  have hunits := unitsFor_pos g.nbytes.toNat
  have hinj := fun c (hc : c ∈ blocks false (L.beginHeap.toNat / 8) cs) => h.addr_start_inj hc hmem
  obtain ⟨A, B, rfl, hstart⟩ := exists_cell_of_mem hmem
  simp only at hstart
  have hlt : _ + total (A ++ ⟨false, unitsFor g.nbytes.toNat⟩ :: B) < 2 ^ 29 := hrep.lt
  have hfuel : total (A ++ ⟨false, unitsFor g.nbytes.toNat⟩ :: B) + 2 ≤ maxSteps := by
    rw [maxSteps]
    omega
  obtain ⟨m, freep, hfree, hrep', hoff⟩ := hrep.free hfuel
  rw [← hstart, ← hu] at hfree
  rw [← hstart] at hoff
  have hmem' := fun c => hrep.sound.mem_release (b := c) (u := L.beginHeap.toNat / 8)
  have hkept : Kept L (gs.filter fun e => e.ptr ≠ g.ptr) H.mem m := by
    refine ⟨fun e he a ha => ?_, fun a hbase hheap => ?_⟩
    · obtain ⟨hnot, -, hne⟩ := hnotMem e ((hrest e).mp he).1 a ha
      exact hoff a fun hin => hin.elim hnot fun heq => hne false _ hmem heq.symm
    · refine hoff a fun hin => hin.elim (houtside a hbase hheap) fun heq => ?_
      rw [Set.mem_singleton_iff] at heq
      omega
  refine ⟨{ H with mem := m, freep := freep }, _, hfree,
    ⟨.inl hrep', h.base, h.top, ?_, ?_, ?_, ?_, ?_⟩, hkept⟩
  · intro c hc
    rw [hmem', ← hstart] at hc
    obtain ⟨hc, hne⟩ := hc
    obtain ⟨e, he, haddr, hsize⟩ := h.used c hc
    refine ⟨e, (hrest e).mpr ⟨he, ?_⟩, haddr, hsize⟩
    rw [haddr, hu, Ne, hinj c hc]
    simpa using hne
  · intro e he
    obtain ⟨he, hne⟩ := (hrest e).mp he
    obtain ⟨v, hv, hmemv⟩ := h.live e he
    refine ⟨v, hv, (hmem' _).mpr ⟨hmemv, ?_⟩⟩
    rw [← hstart]
    rw [hv, hu, Ne, hinj _ hmemv] at hne
    simpa using hne
  · exact fun e he e' he' =>
      h.unique e ((hrest e).mp he).1 e' ((hrest e').mp he').1
  · exact fun e he => h.fits e ((hrest e).mp he).1
  · exact fun e he => (h.linked e ((hrest e).mp he).1).congr (h.fits e ((hrest e).mp he).1)
      fun a ha _ => hkept.owned e he a ha

theorem Inv.malloc_eq (h : Inv L H gs cs) (fuel : ℕ) (nbytes : U32) :
    H.malloc fuel nbytes = H.start.malloc fuel nbytes := by
  obtain ⟨m, freep, hstart, hrep, -⟩ := h.start
  have htwice : H.start.start = H.start := by
    rw [hstart]
    exact hrep.start
  rw [Heap.malloc, Heap.malloc, htwice]

/-- The size in units of a free cell that serves a request, with its header, does not wrap. -/
theorem Inv.not_wrap (h : Inv L H gs cs) {nbytes : U32} (hfit : ¬ Overflows H nbytes) :
    8 * (L.beginHeap.toNat / 8 + total cs + growthFor (unitsFor nbytes.toNat)) < 2 ^ 32 := by
  have hbss := h.bss.1
  have hdvd := L.begin_aligned
  rw [Overflows] at hfit
  omega

/-- Where `malloc` puts a block. -/
structure Got (L : HeapLayout) (gs : List Grant) (p nbytes : U32) : Prop where
  ne_zero : p ≠ 0
  aligned : 8 ∣ p.toNat
  le : L.beginHeap.toNat ≤ p.toNat
  le_end : p.toNat + nbytes.toNat ≤ L.endHeap.toNat
  fresh : ∀ g ∈ gs, g.block ≠ p

theorem Inv.malloc_serves (h : Inv L H gs cs) {nbytes : U32} (hfit : ¬ Overflows H nbytes)
    (hservable : H.start.Servable (L.beginHeap.toNat / 8) (unitsFor nbytes.toNat) cs) :
    ∃ H' p cs', H.malloc maxSteps nbytes = some (H', p) ∧ Inv L H' (.whole p nbytes :: gs) cs' ∧
      Got L gs p nbytes ∧ Kept L gs H.mem H'.mem := by
  obtain ⟨m, freep, hstart, hrep, hoff⟩ := h.start
  rw [hstart] at hservable
  obtain ⟨H', u, cs', hmalloc, hserves⟩ := hrep.malloc_serves (h.not_wrap hfit)
    (show 2 ^ 30 + 2 ≤ maxSteps by decide) hservable
  have hnew : (⟨u, unitsFor nbytes.toNat⟩ : Block) ∈ blocks false (L.beginHeap.toNat / 8) cs' :=
    (hserves.used _).mpr (.inl rfl)
  have hbounds := bounds_of_mem hnew
  have hlt := hserves.represents.lt
  have hunits := unitsFor_pos nbytes.toNat
  have hbytes := le_unitsFor nbytes.toNat
  have hbase := hrep.base_lt
  have htop : _ ≤ H'.top.toNat := hserves.represents.top
  have hend : H'.top = L.endHeap := hserves.top.trans h.top
  have hdvd := L.begin_aligned
  rw [hend] at htop
  rw [Block.stop] at hbounds
  simp only at hbounds
  have htoNat : (addr (u + 1)).toNat = 8 * (u + 1) := toNat_addr (by omega)
  have hfresh : ∀ g ∈ gs, g.block ≠ addr (u + 1) := by
    intro g hg heq
    obtain ⟨v, -, hv, -, -, hmem⟩ := h.block hg
    have hne := hserves.fresh _ hmem
    rw [heq, htoNat] at hv
    simp only at hne
    omega
  have hsame : SameOff ({L.base.toNat / 8} ∪ (Heap.freeUnits (L.base.toNat / 8)
      (L.beginHeap.toNat / 8) cs ∪ {x | L.beginHeap.toNat / 8 + total cs ≤ x ∧
        x < L.beginHeap.toNat / 8 + total cs'})) H.mem H'.mem :=
    (hoff.mono Set.subset_union_left).trans (hserves.sameOff.mono Set.subset_union_right)
  have hkept : Kept L gs H.mem H'.mem := by
    refine ⟨fun g hg a ha => hsame a ?_, fun a hout hheap => hsame a ?_⟩
    · obtain ⟨hnot, hhigh, -⟩ := h.notMem hg ha
      rintro (hin | hin | ⟨hlow, -⟩)
      · exact hnot (.inl hin)
      · exact hnot hin
      · omega
    · have hnot := h.outside_notMem hout hheap
      rintro (hin | hin | ⟨hlow, hhigh⟩)
      · exact hnot (.inl hin)
      · exact hnot hin
      · omega
  refine ⟨H', addr (u + 1), cs', by rw [h.malloc_eq, hstart, hmalloc],
    ⟨.inl hserves.represents, hserves.base.trans h.base, hend, ?_, ?_, ?_, ?_, ?_⟩,
    ⟨addr_ne_zero (by omega) (by omega), ⟨u + 1, htoNat⟩, by omega, by omega, hfresh⟩, hkept⟩
  · intro c hc
    rcases (hserves.used c).mp hc with rfl | hc
    · exact ⟨_, List.mem_cons_self, rfl, rfl⟩
    · obtain ⟨g, hg, haddr⟩ := h.used c hc
      exact ⟨g, List.mem_cons_of_mem _ hg, haddr⟩
  · intro g hg
    rcases List.mem_cons.mp hg with rfl | hg
    · exact ⟨u, rfl, hnew⟩
    · obtain ⟨v, hv, hmem⟩ := h.live g hg
      exact ⟨v, hv, (hserves.used _).mpr (.inr hmem)⟩
  · intro g hg g' hg' heq
    rcases List.mem_cons.mp hg with rfl | hg <;> rcases List.mem_cons.mp hg' with rfl | hg'
    · rfl
    · exact absurd heq.symm (hfresh g' hg')
    · exact absurd heq (hfresh g hg)
    · exact h.unique g hg g' hg' heq
  · intro g hg
    rcases List.mem_cons.mp hg with rfl | hg
    · exact Grant.fits_whole _ _
    · exact h.fits g hg
  · intro g hg
    rcases List.mem_cons.mp hg with rfl | hg
    · exact Grant.linked_whole _ _ _
    · exact (h.linked g hg).congr (h.fits g hg) fun a ha _ => hkept.owned g hg a ha

/-- A request that is not served: the free list has been made, and nothing else. -/
theorem Inv.malloc_null (h : Inv L H gs cs) {nbytes : U32} (hfit : ¬ Overflows H nbytes)
    (hservable : ¬ H.start.Servable (L.beginHeap.toNat / 8) (unitsFor nbytes.toNat) cs) :
    ∃ H', H.malloc maxSteps nbytes = some (H', 0) ∧ Inv L H' gs cs ∧ Kept L gs H.mem H'.mem := by
  obtain ⟨m, freep, hstart, hrep, hoff⟩ := h.start
  rw [hstart] at hservable
  have hmalloc := hrep.malloc_null (h.not_wrap hfit) (show 2 ^ 30 + 2 ≤ maxSteps by decide)
    hservable
  have hkept : Kept L gs H.mem m :=
    ⟨fun g hg a ha => hoff a fun hin => (h.notMem hg ha).1 (.inl hin),
      fun a hout hheap => hoff a fun hin => h.outside_notMem hout hheap (.inl hin)⟩
  exact ⟨{ H with mem := m, freep := freep }, by rw [h.malloc_eq, hstart, hmalloc],
    ⟨.inl hrep, h.base, h.top, h.used, h.live, h.unique, h.fits,
      fun g hg => (h.linked g hg).congr (h.fits g hg) fun a ha _ => hkept.owned g hg a ha⟩, hkept⟩

theorem Inv.malloc (h : Inv L H gs cs) {nbytes : U32} (hfit : ¬ Overflows H nbytes) :
    ∃ H' p, H.malloc maxSteps nbytes = some (H', p) ∧ Kept L gs H.mem H'.mem ∧
      (p = 0 ∧ Inv L H' gs cs ∨
        Got L gs p nbytes ∧ ∃ cs', Inv L H' (.whole p nbytes :: gs) cs') := by
  by_cases hservable : H.start.Servable (L.beginHeap.toNat / 8) (unitsFor nbytes.toNat) cs
  · obtain ⟨H', p, cs', hmalloc, hinv, hgot, hkept⟩ := h.malloc_serves hfit hservable
    exact ⟨H', p, hmalloc, hkept, .inr ⟨hgot, cs', hinv⟩⟩
  · obtain ⟨H', hmalloc, hinv, hkept⟩ := h.malloc_null hfit hservable
    exact ⟨H', 0, hmalloc, hkept, .inl ⟨rfl, hinv⟩⟩

theorem Inv.part (h : Inv L H (.whole g.block g.nbytes :: gs) cs)
    (hfresh : ∀ e ∈ gs, e.block ≠ g.block) (hfits : g.Fits) (hlinked : g.Linked H.mem) :
    Inv L H (g :: gs) cs := by
  have hmem : ∀ {e : Grant}, e ∈ gs → e ∈ Grant.whole g.block g.nbytes :: gs :=
    fun he => List.mem_cons_of_mem _ he
  refine ⟨h.ready, h.base, h.top, fun c hc => ?_, fun e he => ?_, fun e he e' he' heq => ?_,
    fun e he => ?_, fun e he => ?_⟩
  · obtain ⟨e, he, haddr, hsize⟩ := h.used c hc
    rcases List.mem_cons.mp he with rfl | he
    · exact ⟨g, List.mem_cons_self, haddr, hsize⟩
    · exact ⟨e, List.mem_cons_of_mem _ he, haddr, hsize⟩
  · rcases List.mem_cons.mp he with rfl | he
    · exact h.live (.whole e.block e.nbytes) List.mem_cons_self
    · exact h.live e (hmem he)
  · rcases List.mem_cons.mp he with rfl | hin <;> rcases List.mem_cons.mp he' with rfl | hin'
    · rfl
    · exact absurd heq.symm (hfresh e' hin')
    · exact absurd heq (hfresh e hin)
    · exact h.unique e (hmem hin) e' (hmem hin') heq
  · rcases List.mem_cons.mp he with rfl | he
    · exact hfits
    · exact h.fits e (hmem he)
  · rcases List.mem_cons.mp he with rfl | he
    · exact hlinked
    · exact h.linked e (hmem he)

theorem toNat_payload {n : ℕ} (hpos : 0 < n) (hn : 8 * n < 2 ^ 32) :
    (8 * (BitVec.ofNat 32 n - 1)).toNat = 8 * n - 8 := by
  have htoNat : (BitVec.ofNat 32 n).toNat = n := by
    rw [BitVec.toNat_ofNat, Nat.mod_eq_of_lt (by omega)]
  have hone : (1 : U32).toNat = 1 := rfl
  have height : (8 : U32).toNat = 8 := rfl
  have hle : (1 : U32) ≤ BitVec.ofNat 32 n := by
    rw [BitVec.le_def, htoNat, hone]
    exact hpos
  rw [BitVec.toNat_mul, BitVec.toNat_sub_of_le hle, htoNat, hone, height,
    Nat.mod_eq_of_lt (by omega), Nat.mul_sub]

theorem Inv.size (h : Inv L H gs cs) (hg : g ∈ gs) :
    (8 * (H.size (g.block - 8) - 1)).toNat = 8 * unitsFor g.nbytes.toNat - 8 := by
  obtain ⟨u, hu, htoNat, hlow, hhigh, hmem⟩ := h.block hg
  have hbss := H.bss.isLt
  have hsize := (h.represents hg).sizes false ⟨u, unitsFor g.nbytes.toNat⟩ hmem
  have hpos := unitsFor_pos g.nbytes.toNat
  simp only at hsize
  generalize unitsFor g.nbytes.toNat = n at *
  rw [hu, addr_sub_eight, hsize]
  exact toNat_payload hpos (by omega)

end Inv

end HeapRun

end KHypervisor
