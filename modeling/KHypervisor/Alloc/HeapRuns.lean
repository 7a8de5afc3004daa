import KHypervisor.Alloc.Clients
import KHypervisor.Lib.Run

/-!
# Runs of the allocator

The clients of the allocator call its functions, and store to the blocks that they got. As long as
they free only what they got, and store only to it, blocks do not overlap, keep what was stored to
them, and everything outside of the heap and `base` is left alone; and a request fails only if no
gap between the blocks is big enough.
-/

namespace KHypervisor

open ByteMemory Arena Run

inductive AllocCall
  | malloc (nbytes : U32)
  | calloc (nmemb size : U32)
  | realloc (ap size : U32)
  | alignedAlloc (nbytes alignment : U32)
  | free (ap : U32)
  | alignedFree (p : U32)
  | store (a : U32) (v : U8)

def AllocCall.request : AllocCall → Option (U32 × U32)
  | .malloc nbytes => some (nbytes, 8)
  | .calloc nmemb size => some (nmemb * size, 8)
  | .realloc _ size => some (size, 8)
  | .alignedAlloc nbytes alignment => some (nbytes, alignment)
  | _ => none

/-- The heap, the blocks of the clients, and what the last call returned. -/
structure HeapRun where
  heap : Heap
  live : List Grant
  returned : U32

namespace HeapRun

/-- After `__malloc_init`, on any memory. -/
def init (L : HeapLayout) (mem : Memory 32) : HeapRun :=
  ⟨Heap.mallocInit mem L.base L.beginHeap L.endHeap, [], 0⟩

def grant (s : HeapRun) (gs : List Grant) (g : U32 → Grant) (r : Heap × U32) : HeapRun :=
  ⟨r.1, if r.2 = 0 then s.live else g r.2 :: gs, r.2⟩

def others (s : HeapRun) (ap : U32) : List Grant := s.live.filter fun g => g.ptr ≠ ap

def step (s : HeapRun) : AllocCall → Option HeapRun
  | .malloc nbytes =>
      (s.heap.malloc maxSteps nbytes).map (s.grant s.live fun p => .whole p nbytes)
  | .calloc nmemb size =>
      (s.heap.calloc maxSteps nmemb size).map (s.grant s.live fun p => .whole p (nmemb * size))
  | .realloc ap size =>
      (s.heap.realloc maxSteps ap size).map (s.grant (s.others ap) fun p => .whole p size)
  | .alignedAlloc nbytes alignment =>
      (s.heap.alignedAlloc maxSteps nbytes alignment).map fun r =>
        s.grant s.live
          (fun p => ⟨read32 r.1.mem (p - 4), nbytes + (alignment - 1 + 4), p, nbytes⟩) r
  | .free ap => (s.heap.free maxSteps ap).map fun H => ⟨H, s.others ap, 0⟩
  | .alignedFree p => (s.heap.alignedFree maxSteps p).map fun H => ⟨H, s.others p, 0⟩
  | .store a v => some ⟨{ s.heap with mem := Function.update s.heap.mem a v }, s.live, 0⟩

/-- The pointer is not one that `malloc` has returned to a client. -/
def Foreign (s : HeapRun) (ap : U32) : Prop :=
  ap ≠ 0 ∧ ∀ g ∈ s.live, ¬ (g.ptr = ap ∧ g.block = ap)

instance (s : HeapRun) (ap : U32) : Decidable (s.Foreign ap) :=
  inferInstanceAs (Decidable (ap ≠ 0 ∧ ∀ g ∈ s.live, ¬ (g.ptr = ap ∧ g.block = ap)))

/-- A client frees what it has not got or stores where it has nothing, asks for too much, or for an
alignment that is not a power of two. -/
def Misuse (s : HeapRun) : AllocCall → Prop
  | .malloc nbytes => Overflows s.heap nbytes
  | .calloc nmemb size => Overflows s.heap (nmemb * size)
  | .realloc ap size => s.Foreign ap ∨ Overflows s.heap size
  | .alignedAlloc nbytes alignment => (¬ ∃ k < 32, alignment = BitVec.ofNat 32 (2 ^ k)) ∨
      2 ^ 32 ≤ nbytes.toNat + alignment.toNat + 3 ∨
      Overflows s.heap (nbytes + (alignment - 1 + 4))
  | .free ap => s.Foreign ap
  | .alignedFree p => ∀ g ∈ s.live, ¬ (g.ptr = p ∧ g.block ≠ p)
  | .store a _ => ∀ g ∈ s.live, ¬ g.Inside a

instance (s : HeapRun) : DecidablePred s.Misuse
  | .malloc nbytes => inferInstanceAs (Decidable (Overflows s.heap nbytes))
  | .calloc nmemb size => inferInstanceAs (Decidable (Overflows s.heap (nmemb * size)))
  | .realloc ap size => inferInstanceAs (Decidable (s.Foreign ap ∨ Overflows s.heap size))
  | .alignedAlloc nbytes alignment =>
      inferInstanceAs (Decidable ((¬ ∃ k < 32, alignment = BitVec.ofNat 32 (2 ^ k)) ∨
        2 ^ 32 ≤ nbytes.toNat + alignment.toNat + 3 ∨
        Overflows s.heap (nbytes + (alignment - 1 + 4))))
  | .free ap => inferInstanceAs (Decidable (s.Foreign ap))
  | .alignedFree p => inferInstanceAs (Decidable (∀ g ∈ s.live, ¬ (g.ptr = p ∧ g.block ≠ p)))
  | .store a _ => inferInstanceAs (Decidable (∀ g ∈ s.live, ¬ g.Inside a))

/-- The bytes of a new block are in the heap, aligned, and not in another block. -/
structure Placed (L : HeapLayout) (s : HeapRun) (p nbytes alignment : U32) : Prop where
  aligned : alignment.toNat ∣ p.toNat
  le : L.beginHeap.toNat ≤ p.toNat
  fits : p.toNat + nbytes.toNat ≤ L.endHeap.toNat
  apart : ∀ g ∈ s.live, p.toNat + nbytes.toNat ≤ g.ptr.toNat ∨ g.ptr.toNat + g.len.toNat ≤ p.toNat
  distinct : ∀ g ∈ s.live, g.ptr ≠ p

/-- A new block is placed well, with zeros if `calloc` was called, and with the contents of the old
one if `realloc` was; the bytes of a block change only where a client stores to them; and outside
of the heap and `base` nothing is changed. -/
structure Lawful (L : HeapLayout) (s : HeapRun) (call : AllocCall) (t : HeapRun) : Prop where
  placed : ∀ nbytes alignment, call.request = some (nbytes, alignment) → t.returned ≠ 0 →
    Placed L s t.returned nbytes alignment
  zeroed : ∀ nmemb size, call = .calloc nmemb size → t.returned ≠ 0 →
    ∀ i < (nmemb * size).toNat, t.heap.mem (t.returned + BitVec.ofNat 32 i) = 0
  moved : ∀ ap size, call = .realloc ap size → t.returned ≠ 0 → ∀ g ∈ s.live, g.ptr = ap →
    ∀ i < min g.len.toNat size.toNat,
      t.heap.mem (t.returned + BitVec.ofNat 32 i) = s.heap.mem (ap + BitVec.ofNat 32 i)
  kept : ∀ g ∈ s.live, g ∈ t.live → ∀ a, g.Inside a → (∀ v, call ≠ .store a v) →
    t.heap.mem a = s.heap.mem a
  outside : ∀ a : U32, (a.toNat < L.base.toNat ∨ L.base.toNat + 8 ≤ a.toNat) →
    (a.toNat < L.beginHeap.toNat ∨ L.endHeap.toNat ≤ a.toNat) → t.heap.mem a = s.heap.mem a

section Steps

variable {L : HeapLayout} {s : HeapRun} {g : Grant} {cs : List Cell} {H : Heap} {p : U32}

theorem grant_null (gs : List Grant) (f : U32 → Grant) : s.grant gs f (H, 0) = ⟨H, s.live, 0⟩ :=
  rfl

theorem grant_of_ne (hp : p ≠ 0) (gs : List Grant) (f : U32 → Grant) :
    s.grant gs f (H, p) = ⟨H, f p :: gs, p⟩ := by
  rw [grant, if_neg hp]

def Ready (L : HeapLayout) (s : HeapRun) : Prop := ∃ cs, Inv L s.heap s.live cs

def Works (L : HeapLayout) (s : HeapRun) (call : AllocCall) : Prop :=
  ∃ t, step s call = some t ∧ Lawful L s call t ∧ t.Ready L

theorem lawful_of_kept {gs : List Grant} {call : AllocCall} (h : Inv L s.heap s.live cs)
    (hkept : Kept L gs s.heap.mem H.mem) : Lawful L s call ⟨H, gs, 0⟩ :=
  { placed := fun _ _ _ hne => absurd rfl hne
    zeroed := fun _ _ _ hne => absurd rfl hne
    moved := fun _ _ _ hne => absurd rfl hne
    kept := fun g hg hlive a ha _ => hkept.owned g hlive a ((h.fits g hg).owns ha)
    outside := hkept.outside }

theorem Got.placed {alignment : U32} (hgot : Got L s.live g.block g.nbytes)
    (h : Inv L H (g :: s.live) cs) (halign : alignment.toNat ∣ g.ptr.toNat) :
    Placed L s g.ptr g.len alignment := by
  have hfits := h.fits g List.mem_cons_self
  have hunits := le_unitsFor g.nbytes.toNat
  refine ⟨halign, hgot.le.trans hfits.le, hfits.le_end.trans hgot.le_end, fun e he => ?_,
    fun e he heq => ?_⟩
  · have hmem := List.mem_cons_of_mem g he
    have hapart := h.apart List.mem_cons_self hmem (hgot.fresh e he).symm
    have hunits' := le_unitsFor e.nbytes.toNat
    have hle := hfits.le
    have hend := hfits.le_end
    have hle' := (h.fits e hmem).le
    have hend' := (h.fits e hmem).le_end
    omega
  · rw [h.eq_of_ptr (List.mem_cons_of_mem g he) List.mem_cons_self heq] at he
    exact hgot.fresh g he rfl

theorem Got.owns_iff {nbytes : U32} (hgot : Got L s.live p nbytes) (a : U32) :
    (Grant.whole p nbytes).Owns a ↔ (a - p).toNat < nbytes.toNat :=
  (toNat_sub_lt_iff (hgot.le_end.trans L.endHeap.isLt.le)).symm

theorem Inv.works_malloc (h : Inv L s.heap s.live cs) {nbytes : U32}
    (hcall : ¬ s.Misuse (.malloc nbytes)) : s.Works L (.malloc nbytes) := by
  obtain ⟨H, p, hmalloc, hkept, ⟨rfl, hinv⟩ | ⟨hgot, cs', hinv⟩⟩ := h.malloc hcall
  · exact ⟨⟨H, s.live, 0⟩, by rw [step, hmalloc, Option.map_some, grant_null],
      lawful_of_kept h hkept, cs, hinv⟩
  · refine ⟨⟨H, .whole p nbytes :: s.live, p⟩,
      by rw [step, hmalloc, Option.map_some, grant_of_ne hgot.ne_zero],
      ⟨?_, nofun, nofun, fun e he _ a ha _ => hkept.owned e he a ((h.fits e he).owns ha),
        hkept.outside⟩, cs', hinv⟩
    rintro _ _ ⟨⟩ -
    exact Got.placed (g := .whole p nbytes) hgot hinv hgot.aligned

/-- `calloc` stores zeros to a new block. -/
theorem Inv.works_calloc (h : Inv L s.heap s.live cs) {nmemb size : U32}
    (hcall : ¬ s.Misuse (.calloc nmemb size)) : s.Works L (.calloc nmemb size) := by
  obtain ⟨H, p, hmalloc, hkept, ⟨rfl, hinv⟩ | ⟨hgot, cs', hinv⟩⟩ := h.malloc hcall
  · exact ⟨⟨H, s.live, 0⟩,
      by rw [step, Heap.calloc, hmalloc, Option.map_some, Option.map_some, if_pos rfl, grant_null],
      lawful_of_kept h hkept, cs, hinv⟩
  · obtain ⟨m, hm⟩ : ∃ m, (Libc.memset p 0 (nmemb * size) H.mem).2 = m := ⟨_, rfl⟩
    have hzero := (Libc.memset_apply p 0 (nmemb * size) H.mem).2
    rw [hm] at hzero
    have hout : ∀ a, ¬ (Grant.whole p (nmemb * size)).Owns a → m a = H.mem a := by
      intro a ha
      rw [hzero, if_neg (mt (hgot.owns_iff a).mpr ha)]
    have hkept' := hkept.trans <| hinv.kept_write List.mem_cons_self hout fun e he =>
      ⟨List.mem_cons_of_mem _ he, hgot.fresh e he⟩
    refine ⟨⟨{ H with mem := m }, .whole p (nmemb * size) :: s.live, p⟩,
      by rw [step, Heap.calloc, hmalloc, Option.map_some, Option.map_some, if_neg hgot.ne_zero, hm,
        grant_of_ne hgot.ne_zero],
      ⟨?_, ?_, nofun, fun e he _ a ha _ => hkept'.owned e he a ((h.fits e he).owns ha),
        hkept'.outside⟩, cs', hinv.write List.mem_cons_self hout (Grant.linked_whole _ _ _)⟩
    · rintro _ _ ⟨⟩ -
      exact Got.placed (g := .whole p (nmemb * size)) hgot hinv hgot.aligned
    · rintro _ _ ⟨⟩ - i hi
      have hlt := (nmemb * size).isLt
      show m (p + BitVec.ofNat 32 i) = 0
      rw [hzero, add_sub_cancel_left, BitVec.toNat_ofNat, Nat.mod_eq_of_lt (hi.trans hlt),
        if_pos hi]
      rfl

theorem others_zero (h : Inv L s.heap s.live cs) : s.others 0 = s.live :=
  List.filter_eq_self.mpr fun g hg => by simpa using h.ptr_ne_zero hg

/-- The client that has got a pointer from `malloc`. -/
theorem exists_grant {ap : U32} (hnull : ap ≠ 0) (hap : ¬ s.Foreign ap) :
    ∃ g ∈ s.live, g.ptr = ap ∧ g.block = ap := by
  rw [Foreign] at hap
  by_contra hnone
  exact hap ⟨hnull, fun g hg heq => hnone ⟨g, hg, heq⟩⟩

theorem Inv.works_free (h : Inv L s.heap s.live cs) {ap : U32} (hcall : ¬ s.Misuse (.free ap)) :
    s.Works L (.free ap) := by
  by_cases hnull : ap = 0
  · -- a null pointer is not freed
    subst hnull
    exact ⟨⟨s.heap, s.live, 0⟩, by rw [step, Heap.free, if_pos rfl, Option.map_some, others_zero h],
      lawful_of_kept h (.refl L _ _), cs, h⟩
  · obtain ⟨g, hg, rfl, hblock⟩ := exists_grant hnull hcall
    obtain ⟨H, cs', hfree, hinv, hkept⟩ := h.free hg
    rw [hblock] at hfree
    exact ⟨⟨H, s.others g.ptr, 0⟩, by rw [step, hfree, Option.map_some], lawful_of_kept h hkept,
      cs', hinv⟩

/-- `aligned_free` frees the block that the word before the pointer points to. -/
theorem Inv.works_alignedFree (h : Inv L s.heap s.live cs) {p : U32}
    (hcall : ¬ s.Misuse (.alignedFree p)) : s.Works L (.alignedFree p) := by
  obtain ⟨g, hg, rfl, hne⟩ : ∃ g ∈ s.live, g.ptr = p ∧ g.block ≠ p := by
    simpa [Misuse] using hcall
  obtain ⟨H, cs', hfree, hinv, hkept⟩ := h.free hg
  have hword := (h.linked g hg hne.symm).2
  exact ⟨⟨H, s.others g.ptr, 0⟩, by rw [step, Heap.alignedFree, hword, hfree, Option.map_some],
    lawful_of_kept h hkept, cs', hinv⟩

theorem Inv.works_store (h : Inv L s.heap s.live cs) {a : U32} (v : U8)
    (hcall : ¬ s.Misuse (.store a v)) : s.Works L (.store a v) := by
  obtain ⟨g, hg, hin⟩ : ∃ g ∈ s.live, g.Inside a := by simpa [Misuse] using hcall
  have hother : ∀ x, x ≠ a → Function.update s.heap.mem a v x = s.heap.mem x :=
    fun x hx => Function.update_of_ne hx _ _
  have hout : ∀ x, ¬ g.Owns x → Function.update s.heap.mem a v x = s.heap.mem x :=
    fun x hx => hother x fun heq => hx (heq ▸ (h.fits g hg).owns hin)
  have hlinked := (h.linked g hg).congr (h.fits g hg) fun x _ hx =>
    hother x fun heq => hx (heq ▸ hin)
  have hkept : Kept L [] s.heap.mem (Function.update s.heap.mem a v) :=
    h.kept_write hg hout (by simp)
  refine ⟨_, rfl, ⟨nofun, nofun, nofun, fun e _ _ x _ hne => ?_, hkept.outside⟩, cs,
    h.write hg hout hlinked⟩
  exact hother x fun heq => hne v (by rw [heq])

/-- What `realloc` copies to the new block: the bytes of the old one that both have. -/
theorem copied_apply {size n : U32} (h : Inv L H (.whole p size :: s.live) cs)
    (hgot : Got L s.live p size) (hg : g ∈ s.live)
    (hn : n.toNat = min (8 * unitsFor g.nbytes.toNat - 8) size.toNat) (a : U32) :
    (Libc.memcpy p g.block n H.mem).2 a =
      if (a - p).toNat < n.toNat then H.mem (g.block + (a - p)) else H.mem a := by
  obtain ⟨u, -, htoNat, -, hend, -⟩ := h.block (List.mem_cons_of_mem (.whole p size) hg)
  have hapart := h.apart (g := .whole p size) List.mem_cons_self (List.mem_cons_of_mem _ hg)
    (hgot.fresh g hg).symm
  have hsize := le_unitsFor size.toNat
  have hbss := H.bss.isLt
  have hsides : p.toNat + n.toNat ≤ g.block.toNat ∨ g.block.toNat + n.toNat ≤ p.toNat := by
    simp only [Grant.whole] at hapart
    omega
  rw [Libc.memcpy_eq_copyUp]
  exact copyUp_apply (by decide) H.mem n.isLt.le (.inr (le_toNat_sub (by omega) hsides)) a

theorem toNat_ite_le (x y : U32) : (if x ≤ y then x else y).toNat = min x.toNat y.toNat := by
  split <;> rename_i hle <;> rw [BitVec.le_def] at hle <;> omega

theorem Inv.works_realloc_block (h : Inv L s.heap s.live cs) {size : U32}
    (hfit : ¬ Overflows s.heap size) (hg : g ∈ s.live) (hwhole : g.ptr = g.block) :
    s.Works L (.realloc g.ptr size) := by
  have hnull := h.ptr_ne_zero hg
  obtain ⟨H, p, hmalloc, hkept, ⟨rfl, hinv⟩ | ⟨hgot, cs', hinv⟩⟩ := h.malloc hfit
  · refine ⟨⟨H, s.live, 0⟩, ?_, lawful_of_kept h hkept, cs, hinv⟩
    rw [step, Heap.realloc, if_neg hnull, hmalloc, Option.bind_some, if_pos rfl, Option.map_some,
      grant_null]
  · obtain ⟨n, hn⟩ : ∃ n, (if 8 * (s.heap.size (g.ptr - 8) - 1) ≤ size then
        8 * (s.heap.size (g.ptr - 8) - 1) else size) = n := ⟨_, rfl⟩
    have hnNat : n.toNat = min (8 * unitsFor g.nbytes.toNat - 8) size.toNat := by
      rw [← hn, toNat_ite_le, hwhole, h.size hg]
    obtain ⟨m, hm⟩ : ∃ m, (Libc.memcpy p g.ptr n H.mem).2 = m := ⟨_, rfl⟩
    have hcopy := copied_apply hinv hgot hg hnNat
    rw [← hwhole, hm] at hcopy
    have hout : ∀ a, ¬ (Grant.whole p size).Owns a → m a = H.mem a := by
      intro a ha
      have hle : n.toNat ≤ size.toNat := hnNat.trans_le (min_le_right _ _)
      rw [hcopy, if_neg fun hlt => ha ((hgot.owns_iff a).mpr (hlt.trans_le hle))]
    have hwrite := hinv.write List.mem_cons_self hout (Grant.linked_whole _ _ _)
    obtain ⟨H', cs'', hfree, hinv', hkept'⟩ := hwrite.free (List.mem_cons_of_mem _ hg)
    rw [← hwhole] at hfree
    have hrealloc : s.heap.realloc maxSteps g.ptr size = some (H', p) := by
      rw [Heap.realloc, if_neg hnull, hmalloc, Option.bind_some, if_neg hgot.ne_zero, hn]
      simp only [hm, hfree, Option.map_some]
    have hne : (Grant.whole p size).ptr ≠ g.ptr :=
      fun heq => hgot.fresh g hg (hwhole.symm.trans heq.symm)
    have hlive : (Grant.whole p size :: s.live).filter (fun e => e.ptr ≠ g.ptr) =
        .whole p size :: s.others g.ptr :=
      List.filter_cons_of_pos (decide_eq_true hne)
    rw [hlive] at hinv' hkept'
    have hothers : s.others g.ptr ⊆ s.live := List.filter_sublist.subset
    have hall : Kept L (s.others g.ptr) s.heap.mem H'.mem :=
      (hkept.mono hothers).trans <| (hinv.kept_write List.mem_cons_self hout fun e he =>
        ⟨List.mem_cons_of_mem _ (hothers he), hgot.fresh e (hothers he)⟩).trans <|
        hkept'.mono (List.subset_cons_self _ _)
    refine ⟨⟨H', .whole p size :: s.others g.ptr, p⟩, ?_, ⟨?_, nofun, ?_, ?_, hall.outside⟩,
      cs'', hinv'⟩
    · rw [step, hrealloc, Option.map_some, grant_of_ne hgot.ne_zero]
    · rintro _ _ ⟨⟩ -
      exact Got.placed (g := .whole p size) hgot hinv hgot.aligned
    · rintro _ _ ⟨⟩ - e he heq i hi
      obtain rfl := h.eq_of_ptr he hg heq
      obtain ⟨u, -, htoNat, -, hbss, -⟩ := h.block he
      have hfits := h.fits e he
      have hle := hfits.le
      have hend := hfits.le_end
      have hunits := le_unitsFor e.nbytes.toNat
      have hlt := s.heap.bss.isLt
      have hdist : (p + BitVec.ofNat 32 i - p).toNat = i := by
        rw [add_sub_cancel_left, BitVec.toNat_ofNat, Nat.mod_eq_of_lt (by omega)]
      have hin : e.Inside (e.ptr + BitVec.ofNat 32 i) := by
        rw [Grant.Inside, toNat_add_ofNat (by omega)]
        omega
      calc H'.mem (p + BitVec.ofNat 32 i)
          = m (p + BitVec.ofNat 32 i) :=
            hkept'.owned _ List.mem_cons_self _ ((hgot.owns_iff _).mpr (by omega))
        _ = H.mem (e.ptr + BitVec.ofNat 32 i) := by
            rw [hcopy, hdist, if_pos (by omega), add_sub_cancel_left]
        _ = s.heap.mem (e.ptr + BitVec.ofNat 32 i) := hkept.owned e he _ (hfits.owns hin)
    · intro e he hmem a ha _
      have hrest : e ∈ s.others g.ptr := by
        refine (List.mem_cons.mp hmem).resolve_left fun heq => hgot.fresh e he ?_
        rw [heq]
        rfl
      exact hall.owned e hrest a ((h.fits e he).owns ha)

/-- `realloc` of a null pointer is `malloc`. -/
theorem Inv.works_realloc (h : Inv L s.heap s.live cs) {ap size : U32}
    (hcall : ¬ s.Misuse (.realloc ap size)) : s.Works L (.realloc ap size) := by
  obtain ⟨hforeign, hfit⟩ := not_or.mp hcall
  by_cases hnull : ap = 0
  · subst hnull
    obtain ⟨t, ht, hlawful, hready⟩ := h.works_malloc hfit
    refine ⟨t, ?_, ⟨hlawful.placed, nofun, ?_, ?_, hlawful.outside⟩, hready⟩
    · rw [step, Heap.realloc, if_pos rfl, others_zero h]
      exact ht
    · rintro _ _ ⟨⟩ - g hg heq
      exact absurd heq (h.ptr_ne_zero hg)
    · exact fun g hg hlive a ha _ => hlawful.kept g hg hlive a ha nofun
  · obtain ⟨g, hg, rfl, hblock⟩ := exists_grant hnull hforeign
    exact h.works_realloc_block hfit hg hblock.symm

/-- Where `aligned_alloc` puts the part of the client. -/
theorem fits_aligned {p nbytes alignment : U32} {k : ℕ} (hk : k < 32)
    (halign : alignment = BitVec.ofNat 32 (2 ^ k))
    (hwrap : nbytes.toNat + alignment.toNat + 3 < 2 ^ 32)
    (hend : p.toNat + (nbytes + (alignment - 1 + 4)).toNat < 2 ^ 32) :
    let q := (p + (alignment - 1 + 4)) &&& ~~~(alignment - 1)
    alignment.toNat ∣ q.toNat ∧ p.toNat + 4 ≤ q.toNat ∧
      q.toNat + nbytes.toNat ≤ p.toNat + (nbytes + (alignment - 1 + 4)).toNat := by
  intro q
  have hpow := Nat.two_pow_pos k
  have hlt : 2 ^ k < 2 ^ 32 := Nat.pow_lt_pow_right (by decide) hk
  have htoNat : alignment.toNat = 2 ^ k := by
    rw [halign, BitVec.toNat_ofNat, Nat.mod_eq_of_lt hlt]
  have hone : (1 : U32).toNat = 1 := rfl
  have hfour : (4 : U32).toNat = 4 := rfl
  have hsub : (alignment - 1).toNat = 2 ^ k - 1 := by
    rw [BitVec.toNat_sub_of_le (show (1 : U32).toNat ≤ alignment.toNat by omega), htoNat, hone]
  have hmask : alignment - 1 = BitVec.ofNat 32 (2 ^ k - 1) := by
    apply BitVec.eq_of_toNat_eq
    rw [hsub, BitVec.toNat_ofNat, Nat.mod_eq_of_lt (by omega)]
  have hoffset : (alignment - 1 + 4).toNat = 2 ^ k + 3 := by
    rw [BitVec.toNat_add, hsub, hfour, Nat.mod_eq_of_lt (by omega)]
    omega
  have hsum : (nbytes + (alignment - 1 + 4)).toNat = nbytes.toNat + (2 ^ k + 3) := by
    rw [BitVec.toNat_add, hoffset, Nat.mod_eq_of_lt (by omega)]
  have hq : q.toNat = (p.toNat + (2 ^ k + 3)) / 2 ^ k * 2 ^ k := by
    have hend : (p + (alignment - 1 + 4)).toNat = p.toNat + (2 ^ k + 3) := by
      rw [BitVec.toNat_add, hoffset, Nat.mod_eq_of_lt (by omega)]
    rw [← hend, ← Masks.toNat_and_not_mask, ← hmask]
  have hdiv := Nat.div_mul_le_self (p.toNat + (2 ^ k + 3)) (2 ^ k)
  have hmod := Nat.lt_div_mul_add (a := p.toNat + (2 ^ k + 3)) hpow
  rw [hsum, hq, htoNat]
  exact ⟨Nat.dvd_mul_left _ _, by omega, by omega⟩

/-- `aligned_alloc` takes an aligned part of a larger block. -/
theorem Inv.works_alignedAlloc (h : Inv L s.heap s.live cs) {nbytes alignment : U32}
    (hcall : ¬ s.Misuse (.alignedAlloc nbytes alignment)) :
    s.Works L (.alignedAlloc nbytes alignment) := by
  simp only [Misuse, not_or, not_not, not_le] at hcall
  obtain ⟨⟨k, hk, halign⟩, hwrap, hfit⟩ := hcall
  obtain ⟨H, p, hmalloc, hkept, ⟨rfl, hinv⟩ | ⟨hgot, cs', hinv⟩⟩ := h.malloc hfit
  · refine ⟨⟨H, s.live, 0⟩, ?_, lawful_of_kept h hkept, cs, hinv⟩
    rw [step, Heap.alignedAlloc, hmalloc, Option.map_some, Option.map_some, if_pos rfl, grant_null]
  · obtain ⟨hdvd, hlow, hhigh⟩ := fits_aligned hk halign hwrap
      (hgot.le_end.trans_lt L.endHeap.isLt)
    obtain ⟨q, hq⟩ : ∃ q, (p + (alignment - 1 + 4)) &&& ~~~(alignment - 1) = q := ⟨_, rfl⟩
    rw [hq] at hdvd hlow hhigh
    generalize hN : nbytes + (alignment - 1 + 4) = N at *
    obtain ⟨m, hm⟩ : ∃ m, write32 H.mem (q - 4) p = m := ⟨_, rfl⟩
    have hword : read32 m (q - 4) = p := by
      rw [← hm, read32_write32_same (by decide)]
    have hsub : (q - 4).toNat = q.toNat - 4 :=
      BitVec.toNat_sub_of_le (show (4 : U32).toNat ≤ q.toNat from le_trans (by simp) hlow)
    have hout : ∀ a, ¬ (Grant.whole p N).Owns a → m a = H.mem a := by
      intro a ha
      have hlt := q.isLt
      rw [← hm]
      refine write32_of_far H.mem p (by omega) ?_
      simp only [Grant.Owns, Grant.whole] at ha
      omega
    have hkept' := hkept.trans <| hinv.kept_write List.mem_cons_self hout fun e he =>
      ⟨List.mem_cons_of_mem _ he, hgot.fresh e he⟩
    have hwrite := hinv.write List.mem_cons_self hout (Grant.linked_whole _ _ _)
    have hnew : Inv L { H with mem := m } (⟨p, N, q, nbytes⟩ :: s.live) cs' :=
      Inv.part (g := ⟨p, N, q, nbytes⟩) hwrite hgot.fresh ⟨by simp only; omega, hhigh⟩
        fun _ => ⟨hlow, hword⟩
    have hne : q ≠ 0 := by
      rintro rfl
      simp at hlow
    refine ⟨⟨{ H with mem := m }, ⟨p, N, q, nbytes⟩ :: s.live, q⟩, ?_,
      ⟨?_, ?_, ?_, fun e he _ a ha _ => hkept'.owned e he a ((h.fits e he).owns ha),
        hkept'.outside⟩, cs', hnew⟩
    · have halloc : s.heap.alignedAlloc maxSteps nbytes alignment =
          some ({ H with mem := m }, q) := by
        rw [Heap.alignedAlloc, hN, hmalloc, Option.map_some, if_neg hgot.ne_zero]
        simp only [hq, hm]
      rw [step, halloc, Option.map_some, grant_of_ne hne, hword, hN]
    · rintro _ _ ⟨⟩ -
      exact Got.placed (g := ⟨p, N, q, nbytes⟩) hgot hnew hdvd
    · intro nmemb size hcalloc
      cases hcalloc
    · intro ap size hrealloc
      cases hrealloc

theorem Inv.works (h : Inv L s.heap s.live cs) {call : AllocCall} (hcall : ¬ s.Misuse call) :
    s.Works L call := by
  cases call with
  | malloc nbytes => exact h.works_malloc hcall
  | calloc nmemb size => exact h.works_calloc hcall
  | realloc ap size => exact h.works_realloc hcall
  | alignedAlloc nbytes alignment => exact h.works_alignedAlloc hcall
  | free ap => exact h.works_free hcall
  | alignedFree p => exact h.works_alignedFree hcall
  | store a v => exact h.works_store v hcall

end Steps

/-- As long as clients free and store to only what they have got, and do not ask for more than the
address space has, the loops of the allocator end, blocks do not overlap and keep what is stored to
them, `calloc` stores zeros, `realloc` moves the contents, and nothing outside of the heap and
`base` is written to. -/
theorem malloc_free_safe (L : HeapLayout) (mem : Memory 32) (calls : List AllocCall)
    (hclient : ¬ Happened step Misuse (init L mem) calls) :
    Follows step (Lawful L) (init L mem) calls := by
  apply follows_unless (I := fun _ s => s.Ready L) (n := 0) ⟨[], inv_init L mem⟩ hclient
  rintro _ call u _ _ ⟨cs, hu⟩ hcall
  exact hu.works hcall

/-- A heap of 64 KiB behind `.bss`. -/
def sampleLayout : HeapLayout where
  base := 0x8000
  beginHeap := 0x9000
  endHeap := 0x19000
  base_aligned := by decide
  begin_aligned := by decide
  base_pos := by decide
  base_lt := by decide
  begin_le := by decide

/-- Blocks are got, used and freed, one of them while another is in use. -/
theorem malloc_free_safe_reuse :
    Follows step (Lawful sampleLayout) (init sampleLayout fun _ => 0xAA)
      [.malloc 100, .calloc 2 8, .store 0x18F81 7, .realloc 0x18F80 24, .free 0x18F98,
        .alignedAlloc 24 64, .alignedFree 0x18F00, .free 0, .malloc 0x10000] :=
  malloc_free_safe sampleLayout (fun _ => 0xAA) _ (by decide +kernel)

/-- The states of the clients that use the allocator as they should. -/
theorem exists_inv (L : HeapLayout) (mem : Memory 32) (calls : List AllocCall)
    (hclient : ¬ Happened step Misuse (init L mem) calls) {s : HeapRun}
    (hrun : run step (init L mem) calls = some s) : s.Ready L := by
  obtain ⟨t, ht, hready⟩ := run_total_unless (I := Ready L) calls ⟨[], inv_init L mem⟩ hclient
    fun u call _ ⟨cs, hu⟩ hcall => by
      obtain ⟨t, ht, -, hready⟩ := hu.works hcall
      exact ⟨t, ht, hready⟩
  rw [hrun, Option.some.injEq] at ht
  rwa [ht]

/-- Between the blocks, with their headers, there is room for a block with its header. -/
def Gap (L : HeapLayout) (s : HeapRun) (nbytes : ℕ) : Prop :=
  ∃ a : ℕ, L.beginHeap.toNat ≤ a ∧ a + 8 * unitsFor nbytes ≤ s.heap.bss.toNat ∧
    ∀ g ∈ s.live, a + 8 * unitsFor nbytes + 8 ≤ g.block.toNat ∨
      g.block.toNat + 8 * unitsFor g.nbytes.toNat ≤ a + 8

/-- A gap between the blocks is in a free cell, and every free cell is one. -/
theorem Inv.gap_iff {L : HeapLayout} {s : HeapRun} {cs : List Cell} (h : Inv L s.heap s.live cs)
    (nbytes : ℕ) : s.Gap L nbytes ↔
      ∃ c ∈ blocks true (L.beginHeap.toNat / 8) cs, unitsFor nbytes ≤ c.size := by
  obtain ⟨m, freep, -, hrep, -⟩ := h.start
  have hbss := h.bss.1
  have hdvd := L.begin_aligned
  constructor
  · rintro ⟨a, hlow, hhigh, hgap⟩
    refine hrep.sound.exists_free (v := a / 8) (unitsFor_pos nbytes) (by omega) (by omega)
      fun b hb => ?_
    obtain ⟨g, hg, haddr, hsize⟩ := h.used b hb
    obtain ⟨u, hu, htoNat, -, -, hmem⟩ := h.block hg
    rw [hu, h.addr_start_inj hmem hb] at haddr
    have hsides := hgap g hg
    rw [Block.stop]
    simp only at haddr
    omega
  · rintro ⟨c, hc, hsize⟩
    have hbounds := bounds_of_mem hc
    rw [Block.stop] at hbounds
    refine ⟨8 * c.start, by omega, by omega, fun g hg => ?_⟩
    obtain ⟨u, -, htoNat, -, -, hmem⟩ := h.block hg
    have hsides := apart_of_mem hc hmem (hrep.sound.start_ne hc hmem)
    simp only [Block.stop] at hsides
    omega

/-- A request fails only if no gap between the blocks has room for it and the heap cannot be
extended for it: free memory is never lost between the blocks. -/
theorem malloc_null_iff_no_gap (L : HeapLayout) (mem : Memory 32) (calls : List AllocCall)
    (hclient : ¬ Happened step Misuse (init L mem) calls) {s : HeapRun}
    (hrun : run step (init L mem) calls = some s) {nbytes : U32}
    (hfit : ¬ Overflows s.heap nbytes) :
    ∃ t, step s (.malloc nbytes) = some t ∧ (t.returned = 0 ↔ ¬ s.Gap L nbytes.toNat ∧
      L.endHeap.toNat < s.heap.bss.toNat + 8 * growthFor (unitsFor nbytes.toNat)) := by
  obtain ⟨cs, hinv⟩ := exists_inv L mem calls hclient hrun
  have hiff : s.heap.start.Servable (L.beginHeap.toNat / 8) (unitsFor nbytes.toNat) cs ↔
      s.Gap L nbytes.toNat ∨
        s.heap.bss.toNat + 8 * growthFor (unitsFor nbytes.toNat) ≤ L.endHeap.toNat := by
    obtain ⟨m, freep, hstart, -⟩ := hinv.start
    have hbss := hinv.bss.1
    have hdvd := L.begin_aligned
    have htop : s.heap.start.top = L.endHeap := by
      rw [hstart]
      exact hinv.top
    rw [Heap.Servable, htop, hinv.gap_iff]
    refine or_congr_right ?_
    omega
  by_cases hservable : s.heap.start.Servable (L.beginHeap.toNat / 8) (unitsFor nbytes.toNat) cs
  · obtain ⟨H, p, cs', hmalloc, -, hgot, -⟩ := hinv.malloc_serves hfit hservable
    refine ⟨⟨H, .whole p nbytes :: s.live, p⟩,
      by rw [step, hmalloc, Option.map_some, grant_of_ne hgot.ne_zero],
      iff_of_false hgot.ne_zero fun hnone => ?_⟩
    rcases hiff.mp hservable with hgap | hroom
    · exact hnone.1 hgap
    · exact absurd hnone.2 (not_lt.mpr hroom)
  · obtain ⟨H, hmalloc, -, -⟩ := hinv.malloc_null hfit hservable
    obtain ⟨hgap, hroom⟩ := not_or.mp (mt hiff.mpr hservable)
    exact ⟨⟨H, s.live, 0⟩, by rw [step, hmalloc, Option.map_some, grant_null],
      iff_of_true rfl ⟨hgap, not_le.mp hroom⟩⟩

/-- A block is freed below one in use, and a request for the whole heap fails. -/
theorem malloc_null_iff_no_gap_in_use :
    ∃ s t, run step (init sampleLayout fun _ => 0xAA) [.malloc 100, .malloc 16, .free 0x18F98] =
        some s ∧ step s (.malloc 0xFFF8) = some t ∧
      (t.returned = 0 ↔ ¬ s.Gap sampleLayout 0xFFF8 ∧
        sampleLayout.endHeap.toNat < s.heap.bss.toNat + 8 * growthFor (unitsFor 0xFFF8)) := by
  obtain ⟨s, hrun⟩ := Option.isSome_iff_exists.mp
    (show (run step (init sampleLayout fun _ => 0xAA)
      [.malloc 100, .malloc 16, .free 0x18F98]).isSome by decide)
  have hfit : ∀ s ∈ run step (init sampleLayout fun _ => 0xAA)
      [.malloc 100, .malloc 16, .free 0x18F98], ¬ Overflows s.heap 0xFFF8 := by decide
  obtain ⟨t, ht, hiff⟩ := malloc_null_iff_no_gap sampleLayout (fun _ => 0xAA) _ (by decide) hrun
    (hfit s hrun)
  exact ⟨s, t, hrun, ht, hiff⟩

end HeapRun

end KHypervisor
