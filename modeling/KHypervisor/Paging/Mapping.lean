import KHypervisor.Lib.Run
import KHypervisor.Paging.Walk

/-!
# Sequences of mapping calls

Calls of `paging_add_ipa_mapping` on one table, made one after the other. Whatever the arguments,
such a sequence acts on the memory as the list of its rounds acts on the radix table
(`HoldsTable.mapCalls`), so what a walk finds afterwards is decided by the calls that cover the
page, and by liveness of its block.
-/

namespace KHypervisor

open Run RadixTable

/-- The arguments of a call of `paging_add_ipa_mapping`, but for the table. -/
structure MapCall where
  ipa : U32
  pa : U32
  memAttr : U8
  af : U8
  size : U32
deriving DecidableEq

namespace MapCall

def apply (base : U32) (m : PhysMem) (c : MapCall) : Option PhysMem :=
  pagingAddIpaMapping base c.ipa c.pa c.memAttr c.af c.size m

/-- The page that the round with counter `k * 0x1000` maps. -/
def pageAt (c : MapCall) (k : ℕ) : PageNo := pageNo (c.ipa + BitVec.ofNat 32 (k * 0x1000))

/-- The descriptor that the round with counter `k * 0x1000` stores. -/
def descAt (c : MapCall) (k : ℕ) : Lpae.Page :=
  setEntry (c.pa + BitVec.ofNat 32 (k * 0x1000)) c.memAttr 3 c.af

def Covers (c : MapCall) (p : PageNo) : Prop := ∃ k, k * 0x1000 < c.size.toNat ∧ c.pageAt k = p

def ops (c : MapCall) : List (PageNo × U64) :=
  (List.range (pagesOf c.size)).map fun k => (c.pageAt k, (c.descAt k).raw)

theorem lt_pagesOf {size : U32} {k : ℕ} : k < pagesOf size ↔ k * 0x1000 < size.toNat := by
  rw [pagesOf]
  omega

theorem mem_ops {c : MapCall} {op : PageNo × U64} :
    op ∈ c.ops ↔ ∃ k, k * 0x1000 < c.size.toNat ∧ (c.pageAt k, (c.descAt k).raw) = op := by
  simp only [ops, List.mem_map, List.mem_range, lt_pagesOf]

theorem covers_iff_mem_ops {c : MapCall} {p : PageNo} : c.Covers p ↔ ∃ op ∈ c.ops, op.1 = p := by
  constructor
  · rintro ⟨k, hk, hp⟩
    exact ⟨_, mem_ops.mpr ⟨k, hk, rfl⟩, hp⟩
  · rintro ⟨op, hop, hp⟩
    obtain ⟨k, hk, rfl⟩ := mem_ops.mp hop
    exact ⟨k, hk, hp⟩

instance (c : MapCall) (p : PageNo) : Decidable (c.Covers p) :=
  decidable_of_iff _ covers_iff_mem_ops.symm

theorem covers_of_diverges {c : MapCall} (h : 0xFFFFF000 < c.size.toNat) (p : PageNo) :
    c.Covers p := by
  have hp := p.isLt
  have hc := c.ipa.isLt
  refine ⟨(p.toNat + 2 ^ 20 - c.ipa.toNat / 0x1000) % 2 ^ 20, by omega, ?_⟩
  apply BitVec.eq_of_toNat_eq
  rw [pageAt, pageNo, BitVec.extractLsb'_toNat, BitVec.toNat_add, BitVec.toNat_ofNat,
    Nat.shiftRight_eq_div_pow]
  omega

theorem size_le_of_not_covers {c : MapCall} {p : PageNo} (h : ¬ c.Covers p) :
    c.size.toNat ≤ 0xFFFFF000 := by
  by_contra hlarge
  exact h (covers_of_diverges (by omega) p)

end MapCall

/-- The calls on the table at `base`, one after the other. `none` is a call that never ends. -/
def mapCalls (base : U32) (m : PhysMem) (calls : List MapCall) : Option PhysMem :=
  run (MapCall.apply base) m calls

def callOps (calls : List MapCall) : List (PageNo × U64) := calls.flatMap MapCall.ops

section Holds

variable {base : U32} (hbase : PageAligned base)

include hbase

theorem HoldsTable.mapRounds {s : RadixTable TableNode PageNo U64} {m : PhysMem}
    (h : HoldsTable m base s) (memAttr af : U8) (n : ℕ) (ipa pa : U32) :
    HoldsTable
      (mapRounds (fun ipa pa => KHypervisor.writePgentry base (ipa >>> pageShift) pa memAttr 3 af)
        n ipa pa m) base
      (s.mapAll nodePath ((List.range n).map fun k =>
        (pageNo (ipa + BitVec.ofNat 32 (k * 0x1000)),
          (setEntry (pa + BitVec.ofNat 32 (k * 0x1000)) memAttr 3 af).raw))) := by
  induction n generalizing s m ipa pa with
  | zero => exact h
  | succ n ih =>
      have hround := ih (h.writePgentry hbase (ipa >>> pageShift) pa memAttr 3 af)
        (ipa + 0x1000) (pa + 0x1000)
      have hnext : ∀ (a : U32) (k : ℕ), a + 0x1000 + BitVec.ofNat 32 (k * 0x1000) =
          a + BitVec.ofNat 32 ((k + 1) * 0x1000) := by
        intro a k
        rw [Nat.succ_mul, add_comm (k * 0x1000), BitVec.ofNat_add, add_assoc]
        rfl
      have hfirst : ∀ a : U32, a + BitVec.ofNat 32 (0 * 0x1000) = a := by
        intro a
        rw [Nat.zero_mul]
        exact add_zero a
      rw [List.range_succ_eq_map, List.map_cons, List.map_map, mapAll_cons, hfirst, hfirst,
        ← pageNo_eq]
      simp only [hnext] at hround
      exact hround

theorem HoldsTable.mapCall {s : RadixTable TableNode PageNo U64} {m : PhysMem}
    (h : HoldsTable m base s) {c : MapCall} (hc : c.size.toNat ≤ 0xFFFFF000) :
    ∃ m', c.apply base m = some m' ∧ HoldsTable m' base (s.mapAll nodePath c.ops) :=
  ⟨_, mapLoop_total _ _ _ _ hc, h.mapRounds hbase c.memAttr c.af (pagesOf c.size) c.ipa c.pa⟩

/-- A sequence of calls maps the pages of all its rounds in their order. -/
theorem HoldsTable.mapCalls {s : RadixTable TableNode PageNo U64} {m : PhysMem}
    (h : HoldsTable m base s) {calls : List MapCall}
    (hsize : ∀ c ∈ calls, c.size.toNat ≤ 0xFFFFF000) :
    ∃ m', mapCalls base m calls = some m' ∧
      HoldsTable m' base (s.mapAll nodePath (callOps calls)) := by
  induction calls generalizing s m with
  | nil => exact ⟨m, rfl, h⟩
  | cons c calls ih =>
      obtain ⟨u, hu, hheld⟩ := h.mapCall hbase (hsize c List.mem_cons_self)
      obtain ⟨m', hm', hlast⟩ := ih hheld fun c' hc' => hsize c' (List.mem_cons_of_mem _ hc')
      refine ⟨m', ?_, ?_⟩
      · rw [KHypervisor.mapCalls, run_cons, hu]
        exact hm'
      · rw [callOps, List.flatMap_cons, mapAll_append]
        exact hlast

end Holds

def Touches (calls : List MapCall) (b : BitVec 11) : Prop :=
  ∃ c ∈ calls, ∃ p, c.Covers p ∧ p.block = b

theorem exists_mem_callOps {calls : List MapCall} {P : PageNo → Prop} :
    (∃ op ∈ callOps calls, P op.1) ↔ ∃ c ∈ calls, ∃ p, c.Covers p ∧ P p := by
  constructor
  · rintro ⟨op, hop, hP⟩
    obtain ⟨c, hc, hmem⟩ := List.mem_flatMap.mp hop
    exact ⟨c, hc, op.1, MapCall.covers_iff_mem_ops.mpr ⟨op, hmem, rfl⟩, hP⟩
  · rintro ⟨c, hc, p, hcov, hP⟩
    obtain ⟨op, hop, hpage⟩ := MapCall.covers_iff_mem_ops.mp hcov
    rw [← hpage] at hP
    exact ⟨op, List.mem_flatMap.mpr ⟨c, hc, hop⟩, hP⟩

theorem second_mem_nodePath {b : BitVec 11} {p : PageNo} :
    TableNode.second b ∈ nodePath p ↔ p.block = b := by
  simp [nodePath, eq_comm]

/-- The entry that a page has after the calls, over a memory that held `leaf`. -/
def finalEntry (leaf : PageNo → U64) (calls : List MapCall) (p : PageNo) : U64 :=
  ((blank leaf).mapAll nodePath (callOps calls)).entry p

open Classical in
/-- What a walk finds after `paging_create` and a sequence of calls. -/
theorem walk_mapCalls {base : U32} (hbase : PageAligned base) (m : PhysMem)
    {calls : List MapCall} (hsize : ∀ c ∈ calls, c.size.toNat ≤ 0xFFFFF000) :
    ∃ m', mapCalls base (pagingCreate base m) calls = some m' ∧
      ∀ ipa, walk m'.bytes (physAddr base) ipa =
        .ofEntry (if Touches calls (pageNo ipa).block then
          some (finalEntry (leafWords m base) calls (pageNo ipa)) else none) := by
  obtain ⟨m', hm', hheld⟩ := (holdsTable_pagingCreate hbase m).mapCalls hbase hsize
  refine ⟨m', hm', fun ipa => ?_⟩
  rw [hheld.walk_eq hbase, lookup_mapAll_blank nodePath_lastNode]
  have htouch : (∃ op ∈ callOps calls, TableNode.second (pageNo ipa).block ∈ nodePath op.1) ↔
      Touches calls (pageNo ipa).block := by
    simp only [second_mem_nodePath]
    exact exists_mem_callOps (P := fun p => p.block = (pageNo ipa).block)
  exact congrArg _ (if_congr htouch rfl rfl)

/-- A page that no call covers keeps the word that the memory held. -/
theorem finalEntry_of_not_covers (leaf : PageNo → U64) {calls : List MapCall} {p : PageNo}
    (h : ∀ c ∈ calls, ¬ c.Covers p) : finalEntry leaf calls p = leaf p := by
  rw [finalEntry, entry_mapAll_of_notMem]
  · rfl
  · intro op hop hp
    obtain ⟨c, hc, hmem⟩ := List.mem_flatMap.mp hop
    exact h c hc (MapCall.covers_iff_mem_ops.mpr ⟨op, hmem, hp⟩)

end KHypervisor
