import KHypervisor.Paging.Isolation

/-!
# The last call decides

A page table as a map of pages: the descriptor a walk reaches is the one of the last call that
covers the page. The calls considered are those that stay within the address space. The pages of
such a call are consecutive and each is mapped by one round only, so that the rounds need not be
told apart afterwards.
-/

namespace KHypervisor

open RadixTable Run

/-- Calls on whole pages of the address space whose attributes fit their fields. -/
structure MapCall.WellFormed (c : MapCall) : Prop where
  ipa_aligned : PageAligned c.ipa
  pa_aligned : PageAligned c.pa
  memAttr_lt : c.memAttr.toNat < 16
  af_lt : c.af.toNat < 2
  size_pos : 0 < c.size.toNat
  size_le : c.size.toNat ≤ 0x7FFFF000
  ipa_end : c.ipa.toNat + c.size.toNat ≤ 2 ^ 32
  pa_end : c.pa.toNat + c.size.toNat ≤ 2 ^ 32

/-- The walk of `ipa` reaches the page that `c` maps it to, with the attributes of `c`. -/
def TranslatesBy (bytes : ByteMemory.Memory 40) (ttbr : BitVec 40) (ipa : U32) (c : MapCall) :
    Prop :=
  ∃ desc, walk bytes ttbr ipa = .page desc ∧
    (Lpae.Page.ofRaw desc).valid = 1 ∧ (Lpae.Page.ofRaw desc).type = 1 ∧
    (outputAddr desc ipa).toNat = c.pa.toNat + (ipa.toNat - c.ipa.toNat) ∧
    (Lpae.Page.ofRaw desc).memAttr.toNat = c.memAttr.toNat ∧ (Lpae.Page.ofRaw desc).ap = 3 ∧
    (Lpae.Page.ofRaw desc).af.toNat = c.af.toNat

theorem toNat_pageNo (ipa : U32) : (pageNo ipa).toNat = ipa.toNat / 0x1000 := by
  have hipa := ipa.isLt
  rw [pageNo, BitVec.extractLsb'_toNat, Nat.shiftRight_eq_div_pow, Nat.mod_eq_of_lt (by omega)]

theorem exists_pageNo_offset (p : PageNo) {off : ℕ} (hoff : off < 0x1000) :
    ∃ ipa, pageNo ipa = p ∧ ipa.toNat % 0x1000 = off := by
  have hp := p.isLt
  have hnat : (BitVec.ofNat 32 (p.toNat * 0x1000 + off)).toNat = p.toNat * 0x1000 + off := by
    rw [BitVec.toNat_ofNat]
    omega
  refine ⟨BitVec.ofNat 32 (p.toNat * 0x1000 + off), ?_, ?_⟩
  · apply BitVec.eq_of_toNat_eq
    rw [toNat_pageNo, hnat]
    omega
  · rw [hnat]
    omega

theorem exists_pageNo (p : PageNo) : ∃ ipa, pageNo ipa = p := by
  obtain ⟨ipa, hipa, -⟩ := exists_pageNo_offset p (by omega : 0 < 0x1000)
  exact ⟨ipa, hipa⟩

theorem toNat_add_round {a size : U32} {k : ℕ} (hk : k * 0x1000 < size.toNat)
    (hend : a.toNat + size.toNat ≤ 2 ^ 32) :
    (a + BitVec.ofNat 32 (k * 0x1000)).toNat = a.toNat + k * 0x1000 := by
  rw [BitVec.toNat_add, BitVec.toNat_ofNat]
  omega

theorem MapCall.toNat_outputAddr_descAt (c : MapCall) (k : ℕ) (ipa : U32) :
    (outputAddr (c.descAt k).raw ipa).toNat =
      (c.pa + BitVec.ofNat 32 (k * 0x1000)).toNat / 0x1000 * 0x1000 + ipa.toNat % 0x1000 := by
  have hbase : (c.descAt k).base =
      ((c.pa + BitVec.ofNat 32 (k * 0x1000)) >>> pageShift).setWidth 28 := rfl
  rw [outputAddr, Lpae.Page.ofRaw_raw, hbase, toNat_base_append, BitVec.extractLsb'_toNat,
    Nat.shiftRight_zero]

theorem MapCall.pageAt_injOn {c : MapCall} {k k' : ℕ} (hk : k * 0x1000 < c.size.toNat)
    (hk' : k' * 0x1000 < c.size.toNat) (h : c.pageAt k = c.pageAt k') : k = k' := by
  have hsize := c.size.isLt
  have hnat := congrArg BitVec.toNat h
  simp only [pageAt, toNat_pageNo, BitVec.toNat_add, BitVec.toNat_ofNat] at hnat
  omega

namespace MapCall

variable {c : MapCall} (hc : c.WellFormed)

include hc

theorem WellFormed.toNat_pageAt {k : ℕ} (hk : k * 0x1000 < c.size.toNat) :
    (c.pageAt k).toNat = c.ipa.toNat / 0x1000 + k := by
  rw [pageAt, toNat_pageNo, toNat_add_round hk hc.ipa_end]
  omega

/-- The pages of a call are those that its range of addresses meets. -/
theorem WellFormed.covers_iff (ipa : U32) :
    c.Covers (pageNo ipa) ↔
      c.ipa.toNat ≤ ipa.toNat ∧ ipa.toNat / 0x1000 * 0x1000 < c.ipa.toNat + c.size.toNat := by
  obtain ⟨b, hb⟩ := hc.ipa_aligned
  constructor
  · rintro ⟨k, hk, hp⟩
    have hnat := congrArg BitVec.toNat hp
    rw [hc.toNat_pageAt hk, toNat_pageNo] at hnat
    omega
  · rintro ⟨hlow, hhigh⟩
    have hfirst : b ≤ ipa.toNat / 0x1000 := by omega
    obtain ⟨k, hpage⟩ := Nat.exists_eq_add_of_le hfirst
    rw [hpage, Nat.add_mul, hb, Nat.mul_comm, Nat.add_lt_add_iff_left] at hhigh
    have hk : k * 0x1000 < c.size.toNat := hhigh
    refine ⟨k, hk, ?_⟩
    apply BitVec.eq_of_toNat_eq
    rw [hc.toNat_pageAt hk, toNat_pageNo]
    omega

/-- The descriptor of a round sends the addresses of its page where the call says. -/
theorem WellFormed.toNat_outputAddr {k : ℕ} (hk : k * 0x1000 < c.size.toNat) {ipa : U32}
    (hp : c.pageAt k = pageNo ipa) :
    (outputAddr (c.descAt k).raw ipa).toNat = c.pa.toNat + (ipa.toNat - c.ipa.toNat) := by
  have hnat := congrArg BitVec.toNat hp
  obtain ⟨b, hb⟩ := hc.ipa_aligned
  obtain ⟨d, hd⟩ := hc.pa_aligned
  rw [hc.toNat_pageAt hk, toNat_pageNo] at hnat
  rw [toNat_outputAddr_descAt, toNat_add_round hk hc.pa_end]
  omega

end MapCall

theorem translatesBy_descAt {bytes : ByteMemory.Memory 40} {ttbr : BitVec 40} {ipa : U32}
    {c : MapCall} (hc : c.WellFormed) {k : ℕ} (hk : k * 0x1000 < c.size.toNat)
    (hp : c.pageAt k = pageNo ipa) (hwalk : walk bytes ttbr ipa = .page (c.descAt k).raw) :
    TranslatesBy bytes ttbr ipa c := by
  refine ⟨(c.descAt k).raw, hwalk, ?_, ?_, hc.toNat_outputAddr hk hp, ?_, ?_, ?_⟩
  · rw [Lpae.Page.ofRaw_raw]
    rfl
  · rw [Lpae.Page.ofRaw_raw]
    rfl
  · rw [Lpae.Page.ofRaw_raw]
    exact (BitVec.toNat_setWidth 4 c.memAttr).trans (Nat.mod_eq_of_lt hc.memAttr_lt)
  · rw [Lpae.Page.ofRaw_raw]
    rfl
  · rw [Lpae.Page.ofRaw_raw]
    exact (BitVec.toNat_setWidth 1 c.af).trans (Nat.mod_eq_of_lt hc.af_lt)

theorem getLsbD_setEntry_zero (pa : U32) (memAttr ap af : U8) :
    (setEntry pa memAttr ap af).raw.getLsbD 0 = true := by
  simp only [setEntry, Lpae.Page.raw, BitVec.getLsbD_append]
  rfl

theorem callOps_append (calls calls' : List MapCall) :
    callOps (calls ++ calls') = callOps calls ++ callOps calls' :=
  List.flatMap_append

theorem touches_append {calls calls' : List MapCall} {b : BitVec 11} :
    Touches (calls ++ calls') b ↔ Touches calls b ∨ Touches calls' b := by
  constructor
  · rintro ⟨c, hc, hp⟩
    rcases List.mem_append.mp hc with hc | hc
    · exact Or.inl ⟨c, hc, hp⟩
    · exact Or.inr ⟨c, hc, hp⟩
  · rintro (⟨c, hc, hp⟩ | ⟨c, hc, hp⟩)
    · exact ⟨c, List.mem_append_left _ hc, hp⟩
    · exact ⟨c, List.mem_append_right _ hc, hp⟩

theorem finalEntry_append_of_not_covers (leaf : PageNo → U64) (calls : List MapCall)
    {calls' : List MapCall} {p : PageNo} (h : ∀ c ∈ calls', ¬ c.Covers p) :
    finalEntry leaf (calls ++ calls') p = finalEntry leaf calls p := by
  rw [finalEntry, callOps_append, mapAll_append, entry_mapAll_of_notMem]
  · rfl
  · intro op hop hp
    obtain ⟨c, hc, hmem⟩ := List.mem_flatMap.mp hop
    exact h c hc (MapCall.covers_iff_mem_ops.mpr ⟨op, hmem, hp⟩)

/-- The entry of a page is the one of the last call that covers it. -/
theorem finalEntry_last (leaf : PageNo → U64) (pre : List MapCall) {c : MapCall}
    {post : List MapCall} {k : ℕ} (hk : k * 0x1000 < c.size.toNat)
    (hpost : ∀ c' ∈ post, ¬ c'.Covers (c.pageAt k)) :
    finalEntry leaf (pre ++ c :: post) (c.pageAt k) = (c.descAt k).raw := by
  rw [List.append_cons, finalEntry_append_of_not_covers leaf _ hpost]
  have hsingle : callOps [c] = c.ops := List.append_nil _
  rw [finalEntry, callOps_append, mapAll_append, hsingle]
  apply entry_mapAll_of_forall
  · exact ⟨_, MapCall.mem_ops.mpr ⟨k, hk, rfl⟩, rfl⟩
  · intro op hop hp
    obtain ⟨k', hk', rfl⟩ := MapCall.mem_ops.mp hop
    rw [MapCall.pageAt_injOn hk' hk hp]

/-! ## Sequences of calls -/

/-- A page table as a map: every covered page translates by the last call that covers it, and no
call changes the translation of a page outside its range. -/
structure LastWriterWins (base : U32) (m : PhysMem) (calls : List MapCall) : Prop where
  last : ∀ pre c post, calls = pre ++ c :: post → ∀ ipa, c.Covers (pageNo ipa) →
    (∀ c' ∈ post, ¬ c'.Covers (pageNo ipa)) →
    ∃ m', mapCalls base (pagingCreate base m) calls = some m' ∧
      TranslatesBy m'.bytes (physAddr base) ipa c
  frame : ∀ pre c post, calls = pre ++ c :: post → ∀ ipa, ¬ c.Covers (pageNo ipa) →
    ∃ u v, mapCalls base (pagingCreate base m) pre = some u ∧
      mapCalls base (pagingCreate base m) (pre ++ [c]) = some v ∧
      walk v.bytes (physAddr base) ipa = walk u.bytes (physAddr base) ipa

theorem MapCall.WellFormed.size_le_loop {c : MapCall} (hc : c.WellFormed) :
    c.size.toNat ≤ 0xFFFFF000 :=
  hc.size_le.trans (by omega)

section Calls

variable {base : U32} (hbase : PageAligned base) (m : PhysMem)

include hbase

theorem translatesBy_last (pre : List MapCall) (c : MapCall) (post : List MapCall)
    (hwf : ∀ c' ∈ pre ++ c :: post, c'.WellFormed) {ipa : U32} (hcov : c.Covers (pageNo ipa))
    (hpost : ∀ c' ∈ post, ¬ c'.Covers (pageNo ipa)) :
    ∃ m', mapCalls base (pagingCreate base m) (pre ++ c :: post) = some m' ∧
      TranslatesBy m'.bytes (physAddr base) ipa c := by
  have hmem : c ∈ pre ++ c :: post := List.mem_append_right _ List.mem_cons_self
  have hc := hwf c hmem
  obtain ⟨k, hk, hp⟩ := hcov
  obtain ⟨m', hm', hwalk⟩ := walk_mapCalls hbase m fun c' hc' => (hwf c' hc').size_le_loop
  refine ⟨m', hm', translatesBy_descAt hc hk hp ?_⟩
  rw [← hp] at hpost
  rw [hwalk, if_pos ⟨c, hmem, _, ⟨k, hk, hp⟩, rfl⟩, ← hp, finalEntry_last _ pre hk hpost,
    Translation.ofEntry, if_neg]
  rw [MapCall.descAt, getLsbD_setEntry_zero]
  exact Bool.noConfusion

/-- A call changes the translation of a page that it does not cover exactly if it is the first to
touch the block and the memory happened to hold a valid descriptor for the page. -/
theorem walk_snoc_eq_iff {pre : List MapCall} {c : MapCall}
    (hsize : ∀ c' ∈ pre ++ [c], c'.size.toNat ≤ 0xFFFFF000) {ipa : U32}
    (hnot : ¬ c.Covers (pageNo ipa)) :
    (∃ u v, mapCalls base (pagingCreate base m) pre = some u ∧
      mapCalls base (pagingCreate base m) (pre ++ [c]) = some v ∧
      walk v.bytes (physAddr base) ipa = walk u.bytes (physAddr base) ipa) ↔
      (Touches [c] (pageNo ipa).block → ¬ Touches pre (pageNo ipa).block →
        (leafWords m base (pageNo ipa)).getLsbD 0 = false) := by
  obtain ⟨u, hu, hwalku⟩ := walk_mapCalls hbase m fun c' hc' =>
    hsize c' (List.mem_append_left _ hc')
  obtain ⟨v, hv, hwalkv⟩ := walk_mapCalls hbase m hsize
  have hentry : finalEntry (leafWords m base) (pre ++ [c]) (pageNo ipa) =
      finalEntry (leafWords m base) pre (pageNo ipa) := by
    refine finalEntry_append_of_not_covers _ _ fun c' hc' => ?_
    rw [List.mem_singleton.mp hc']
    exact hnot
  have hsame : (∃ u v, mapCalls base (pagingCreate base m) pre = some u ∧
      mapCalls base (pagingCreate base m) (pre ++ [c]) = some v ∧
      walk v.bytes (physAddr base) ipa = walk u.bytes (physAddr base) ipa) ↔
      walk v.bytes (physAddr base) ipa = walk u.bytes (physAddr base) ipa := by
    constructor
    · rintro ⟨u', v', hu', hv', heq⟩
      rw [hu, Option.some.injEq] at hu'
      rw [hv, Option.some.injEq] at hv'
      rw [hu', hv']
      exact heq
    · exact fun heq => ⟨u, v, hu, hv, heq⟩
  rw [hsame, hwalku, hwalkv, hentry]
  by_cases hpre : Touches pre (pageNo ipa).block
  · rw [if_pos hpre, if_pos (touches_append.mpr (Or.inl hpre))]
    exact iff_of_true rfl fun _ hfresh => absurd hpre hfresh
  · rw [if_neg hpre]
    have hleaf : finalEntry (leafWords m base) pre (pageNo ipa) = leafWords m base (pageNo ipa) :=
      finalEntry_of_not_covers _ fun c' hc' hcov => hpre ⟨c', hc', _, hcov, rfl⟩
    by_cases htouch : Touches [c] (pageNo ipa).block
    · rw [if_pos (touches_append.mpr (Or.inr htouch)), hleaf]
      exact (ofEntry_some_eq_fault _).trans ⟨fun h _ _ => h, fun h => h htouch hpre⟩
    · rw [if_neg fun h => (touches_append.mp h).elim hpre htouch]
      exact iff_of_true rfl fun h => absurd h htouch

/-- The words of the third level that a call makes reachable without covering their pages are
invalid descriptors. -/
def NeighboursInvalid (base : U32) (m : PhysMem) (calls : List MapCall) : Prop :=
  ∀ pre c post, calls = pre ++ c :: post → ∀ p, ¬ c.Covers p → Touches [c] p.block →
    ¬ Touches pre p.block → (leafWords m base p).getLsbD 0 = false

theorem lastWriterWins_iff_neighboursInvalid {calls : List MapCall}
    (hwf : ∀ c ∈ calls, c.WellFormed) :
    LastWriterWins base m calls ↔ NeighboursInvalid base m calls := by
  have hsnoc : ∀ pre c post, calls = pre ++ c :: post → ∀ c' ∈ pre ++ [c],
      c'.size.toNat ≤ 0xFFFFF000 := by
    rintro pre c post rfl c' hc'
    rw [List.append_cons] at hwf
    exact (hwf c' (List.mem_append_left _ hc')).size_le_loop
  constructor
  · intro h pre c post hsplit p hnot htouch hfresh
    obtain ⟨ipa, rfl⟩ := exists_pageNo p
    exact (walk_snoc_eq_iff hbase m (hsnoc pre c post hsplit) hnot).mp
      (h.frame pre c post hsplit ipa hnot) htouch hfresh
  · intro h
    constructor
    · rintro pre c post rfl ipa hcov hpost
      exact translatesBy_last hbase m pre c post hwf hcov hpost
    · intro pre c post hsplit ipa hnot
      exact (walk_snoc_eq_iff hbase m (hsnoc pre c post hsplit) hnot).mpr
        fun htouch hfresh => h pre c post hsplit _ hnot htouch hfresh

end Calls

end KHypervisor
