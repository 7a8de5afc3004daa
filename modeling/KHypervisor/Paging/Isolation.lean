import KHypervisor.Paging.Mapping

/-!
# Unmapped pages

What a walk finds for a page that no mapping call covers. `paging_create` writes the entries of
the first two levels and clears their valid bits, but it leaves the third level as the memory was,
and nothing else clears it: the tables lie outside the range that is zeroed at the start. A call
that maps one page makes the 512 entries of its block reachable, so a page next to it is
translated by whatever word was found there.
-/

namespace KHypervisor

/-- The walk of a page that no call covers: stopped on the way, or sent to the word that the
memory held before the table was created. -/
theorem walk_of_not_covers {base : U32} (hbase : PageAligned base) (m : PhysMem)
    {calls : List MapCall} {ipa : U32} (h : ∀ c ∈ calls, ¬ c.Covers (pageNo ipa)) :
    ∃ m', mapCalls base (pagingCreate base m) calls = some m' ∧
      (Touches calls (pageNo ipa).block →
        walk m'.bytes (physAddr base) ipa = .ofEntry (some (leafWords m base (pageNo ipa)))) ∧
      (¬ Touches calls (pageNo ipa).block → walk m'.bytes (physAddr base) ipa = .fault) := by
  obtain ⟨m', hm', hwalk⟩ :=
    walk_mapCalls hbase m fun c hc => MapCall.size_le_of_not_covers (h c hc)
  refine ⟨m', hm', ?_, ?_⟩
  · intro htouch
    rw [hwalk, if_pos htouch, finalEntry_of_not_covers _ h]
  · intro htouch
    rw [hwalk, if_neg htouch]
    rfl

theorem ofEntry_some_eq_fault (desc : U64) :
    Translation.ofEntry (some desc) = .fault ↔ desc.getLsbD 0 = false := by
  rw [Translation.ofEntry]
  by_cases h : desc.getLsbD 0 = false
  · rw [if_pos h]
    exact iff_of_true rfl h
  · rw [if_neg h]
    exact iff_of_false Translation.noConfusion h

/-- A page that no call covers faults exactly if no call maps a page of its block, or the word of
the third level was an invalid descriptor to begin with. -/
theorem unmapped_faults_iff {base : U32} (hbase : PageAligned base) (m : PhysMem)
    (calls : List MapCall) (ipa : U32) (h : ∀ c ∈ calls, ¬ c.Covers (pageNo ipa)) :
    ∃ m', mapCalls base (pagingCreate base m) calls = some m' ∧
      (walk m'.bytes (physAddr base) ipa = .fault ↔
        (∀ c ∈ calls, ∀ p, c.Covers p → p.block ≠ (pageNo ipa).block) ∨
          (leafWords m base (pageNo ipa)).getLsbD 0 = false) := by
  obtain ⟨m', hm', hlive, hdead⟩ := walk_of_not_covers hbase m h
  refine ⟨m', hm', ?_⟩
  by_cases htouch : Touches calls (pageNo ipa).block
  · rw [hlive htouch, ofEntry_some_eq_fault]
    refine (or_iff_right ?_).symm
    intro hnone
    obtain ⟨c, hc, p, hcov, hp⟩ := htouch
    exact hnone c hc p hcov hp
  · refine iff_of_true (hdead htouch) (Or.inl ?_)
    intro c hc p hcov hp
    exact htouch ⟨c, hc, p, hcov, hp⟩

def onesMem : PhysMem := ⟨fun _ => 0xFF, []⟩

theorem leafWords_onesMem (base : U32) (p : PageNo) :
    (leafWords onesMem base p).getLsbD 0 = true := by
  have hbyte : (0xFF : BitVec 8).getLsbD 0 = true := by decide
  rw [leafWords, read64, ByteMemory.getLsbD_read64 _ _ (by omega : 0 < 64)]
  exact hbyte

def onePage : MapCall := ⟨0, 0, 0xF, 1, 0x1000⟩

theorem onePage_covers {p : PageNo} : onePage.Covers p ↔ p = 0 := by
  constructor
  · rintro ⟨k, hk, hp⟩
    have hsize : onePage.size.toNat = 0x1000 := rfl
    have hzero : k = 0 := by omega
    rw [← hp, hzero]
    rfl
  · rintro rfl
    exact ⟨0, by decide, rfl⟩

/-- After mapping the page at zero over a memory full of ones, the page after it is translated. -/
theorem unmapped_page_translates :
    ¬ ∀ (m : PhysMem) (base : U32) (calls : List MapCall) (ipa : U32), PageAligned base →
      (∀ c ∈ calls, ¬ c.Covers (pageNo ipa)) →
      ∃ m', mapCalls base (pagingCreate base m) calls = some m' ∧
        walk m'.bytes (physAddr base) ipa = .fault := by
  intro h
  have hbase : PageAligned 0x80000000 := by decide
  have hnot : ∀ c ∈ [onePage], ¬ c.Covers (pageNo 0x1000) := by
    intro c hc hcov
    rw [List.mem_singleton.mp hc, onePage_covers] at hcov
    exact absurd hcov (by decide)
  have htouch : Touches [onePage] (pageNo 0x1000).block :=
    ⟨onePage, List.mem_singleton_self _, 0, onePage_covers.mpr rfl, by decide⟩
  obtain ⟨m', hm', hfault⟩ := h onesMem 0x80000000 [onePage] 0x1000 hbase hnot
  obtain ⟨m'', hm'', hlive, -⟩ := walk_of_not_covers hbase onesMem hnot
  obtain rfl : m' = m'' := Option.some_injective _ (hm'.symm.trans hm'')
  rw [hlive htouch, ofEntry_some_eq_fault, leafWords_onesMem] at hfault
  exact Bool.noConfusion hfault

/-- The page at zero mapped, and a page of the next block looked up. -/
theorem unmapped_faults_iff_onePage :
    PageAligned 0x80000000 ∧ (∀ c ∈ [onePage], ¬ c.Covers (pageNo 0x200000)) ∧
      ∃ m', mapCalls 0x80000000 (pagingCreate 0x80000000 onesMem) [onePage] = some m' ∧
        (walk m'.bytes (physAddr 0x80000000) 0x200000 = .fault ↔
          (∀ c ∈ [onePage], ∀ p, c.Covers p → p.block ≠ (pageNo 0x200000).block) ∨
            (leafWords onesMem 0x80000000 (pageNo 0x200000)).getLsbD 0 = false) := by
  have hnot : ∀ c ∈ [onePage], ¬ c.Covers (pageNo 0x200000) := by
    intro c hc hcov
    rw [List.mem_singleton.mp hc, onePage_covers] at hcov
    exact absurd hcov (by decide)
  exact ⟨by decide, hnot, unmapped_faults_iff (by decide) onesMem [onePage] 0x200000 hnot⟩

end KHypervisor
