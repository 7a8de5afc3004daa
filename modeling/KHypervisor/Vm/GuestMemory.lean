import KHypervisor.Vm.PageTables

/-!
# The memory that a guest reaches

What the hardware makes of a store by a guest: with stage-2 translation on, the address goes through
the table that `VTTBR` names, which `vm_create` and `vm_init` have written. Whatever else they do,
such a table leads only to memory that the platform assigns to the machine (`TableHolds.owns`), as
long as nobody writes to the table itself.
-/

namespace KHypervisor

open RadixTable Run

/-! ## The hardware -/

/-- What a store to `ipa` may reach at the end of a walk. A page whose access flag is clear, or that
must not be written to, makes the store fault. The tables map no blocks, and a walk that ends at one
is taken to lead anywhere. -/
def Translation.Admits (ipa : U32) (pa : BitVec 40) : Translation → Prop
  | .fault => False
  | .block _ => True
  | .page desc => (Lpae.Page.ofRaw desc).af = 1 ∧ (Lpae.Page.ofRaw desc).ap.getLsbD 1 = true ∧
      pa = outputAddr desc ipa

instance (ipa : U32) (pa : BitVec 40) : ∀ t : Translation, Decidable (t.Admits ipa pa)
  | .fault => inferInstanceAs (Decidable False)
  | .block _ => inferInstanceAs (Decidable True)
  | .page desc => inferInstanceAs (Decidable ((Lpae.Page.ofRaw desc).af = 1 ∧
      (Lpae.Page.ofRaw desc).ap.getLsbD 1 = true ∧ pa = outputAddr desc ipa))

/-- A store of a guest to `ipa` may reach `pa`. While `HCR.VM` is clear, there is no second stage.
The walk is the one that the value of `VTCR` set by `vmem_init` asks for. -/
def Reaches (bytes : ByteMemory.Memory 40) (regs : Registers) (ipa : U32) (pa : BitVec 40) : Prop :=
  if regs.cp32 .hcr &&& hcrBitVm = 0 then pa = physAddr ipa
  else (walk bytes ((regs.cp64 .vttbr).extractLsb' 0 40) ipa).Admits ipa pa

instance (bytes : ByteMemory.Memory 40) (regs : Registers) (ipa : U32) (pa : BitVec 40) :
    Decidable (Reaches bytes regs ipa pa) :=
  inferInstanceAs (Decidable (if regs.cp32 .hcr &&& hcrBitVm = 0 then pa = physAddr ipa
    else (walk bytes ((regs.cp64 .vttbr).extractLsb' 0 40) ipa).Admits ipa pa))

/-- Stage-2 translation is on, through the table of machine `m`. -/
structure OnTable (p : Platform) (m : VmId) (regs : Registers) : Prop where
  vttbr : regs.cp64 .vttbr = vttbrOf m (tableBase p m)
  hcr : regs.cp32 .hcr &&& hcrBitVm = hcrBitVm

/-! ## The platform -/

/-- The call maps some page to the one that `x` is in. -/
def MapCall.Targets (c : MapCall) (x : BitVec 40) : Prop :=
  c.pa.toNat ≤ x.toNat ∧ x.toNat / 0x1000 * 0x1000 < c.pa.toNat + c.size.toNat

/-- The platform assigns `x` to machine `m`. -/
def Platform.Owns (p : Platform) (m : VmId) (x : BitVec 40) : Prop :=
  ∃ c ∈ p.calls m, c.Targets x

/-- The range of the table of machine `m`. -/
def Platform.InTable (p : Platform) (m : VmId) (x : BitVec 40) : Prop :=
  (tableBase p m).toNat ≤ x.toNat ∧ x.toNat < (tableBase p m).toNat + 0x805000

/-- The configuration is one of `n` machines, whose tables lie in the address space and out of the
memory that is assigned to them. -/
structure Platform.Separated (p : Platform) (n : ℕ) : Prop where
  aligned : PageAligned p.vmPgtable
  count : n ≤ 256
  fits : p.vmPgtable.toNat + 0x805000 * n ≤ 2 ^ 32
  ends : ∀ m < n, ∃ d ∈ p.vmMmap m, d.label = none
  calls : ∀ m < n, ∀ c ∈ p.calls m, c.WellFormed
  apart : ∀ m < n, ∀ c ∈ p.calls m, c.pa.toNat + c.size.toNat ≤ p.vmPgtable.toNat ∨
    p.vmPgtable.toNat + 0x805000 * n ≤ c.pa.toNat

section Tables

variable {p : Platform} {n m m' k : ℕ} {x : BitVec 40}

theorem Platform.Separated.toNat_tableBase (hp : p.Separated n) (hm : m < n) :
    (tableBase p m).toNat = p.vmPgtable.toNat + 0x805000 * m := by
  have hsize : pgtableSize.toNat = 0x805000 := rfl
  have hcount := hp.count
  have hfits := hp.fits
  rw [tableBase, BitVec.toNat_add, BitVec.toNat_mul, hsize, BitVec.toNat_ofNat]
  omega

theorem Platform.Separated.inTable_unique (hp : p.Separated n) (hm : m < n) (hm' : m' < n)
    (h : p.InTable m x) (h' : p.InTable m' x) : m = m' := by
  have hbase := hp.toNat_tableBase hm
  have hbase' := hp.toNat_tableBase hm'
  obtain ⟨hlow, hhigh⟩ := h
  obtain ⟨hlow', hhigh'⟩ := h'
  omega

theorem Platform.Separated.not_inTable (hp : p.Separated n) (hm : m < n) (hm' : m' < n)
    (h : p.Owns m x) : ¬ p.InTable m' x := by
  obtain ⟨c, hc, hlow, hhigh⟩ := h
  have hbase := hp.toNat_tableBase hm'
  have halign := hp.aligned
  rintro ⟨hlow', hhigh'⟩
  rcases hp.apart m hm c hc with hbelow | habove
  · rw [PageAligned] at halign
    omega
  · omega

/-! ## Tables in the memory -/

/-- The table of machine `m` holds the pages of its calls, made `k` times, and nothing else. -/
def TableHolds (p : Platform) (m k : ℕ) (mem : PhysMem) : Prop :=
  ∃ leaf : PageNo → U64, (∀ page, (leaf page).getLsbD 0 = false) ∧
    HoldsTable mem (tableBase p m)
      ((blank leaf).mapAll nodePath (callOps (List.replicate k (p.calls m)).flatten))

/-- The table of machine `m` has not been created, and there are no valid descriptors in the words
of its third level. -/
def TableFresh (p : Platform) (m : ℕ) (mem : PhysMem) : Prop :=
  ∀ page, (leafWords mem (tableBase p m) page).getLsbD 0 = false

def SameTableBytes (p : Platform) (m : ℕ) (mem mem' : PhysMem) : Prop :=
  ∀ x, p.InTable m x → mem'.bytes x = mem.bytes x

theorem SameTableBytes.read64 (hp : p.Separated n) (hm : m < n) {mem mem' : PhysMem}
    (h : SameTableBytes p m mem mem') {j : ℕ} (hj : j < tableWords) :
    read64 (tableWord (tableBase p m) j) mem' = read64 (tableWord (tableBase p m) j) mem := by
  have hbase := hp.toNat_tableBase hm
  have hfits := hp.fits
  have hword : (tableWord (tableBase p m) j).toNat = (tableBase p m).toNat + 8 * j := by
    rw [tableWords] at hj
    rw [toNat_tableWord, Nat.mod_eq_of_lt (by omega)]
  apply ByteMemory.read64_congr
  intro i hi
  apply h
  have hplace : (physAddr (tableWord (tableBase p m) j) + BitVec.ofNat 40 i).toNat =
      (tableBase p m).toNat + 8 * j + i := by
    rw [tableWords] at hj
    rw [BitVec.toNat_add, toNat_physAddr, hword, BitVec.toNat_ofNat]
    omega
  rw [tableWords] at hj
  rw [Platform.InTable, hplace]
  omega

theorem TableHolds.congr (hp : p.Separated n) (hm : m < n) {mem mem' : PhysMem}
    (h : TableHolds p m k mem) (hsame : SameTableBytes p m mem mem') : TableHolds p m k mem' := by
  obtain ⟨leaf, hleaf, hholds⟩ := h
  refine ⟨leaf, hleaf, fun node => ?_, fun page => ?_⟩
  · rw [hsame.read64 hp hm node.word_lt_tableWords]
    exact hholds.node node
  · rw [hsame.read64 hp hm (leafWord_lt page)]
    exact hholds.leaf page

theorem TableFresh.congr (hp : p.Separated n) (hm : m < n) {mem mem' : PhysMem}
    (h : TableFresh p m mem) (hsame : SameTableBytes p m mem mem') : TableFresh p m mem' := by
  intro page
  rw [leafWords, hsame.read64 hp hm (leafWord_lt page)]
  exact h page

theorem writesOnly_bytes (hp : p.Separated n) (hm : m < n) {mem mem' : PhysMem}
    (h : WritesOnly (IsTableWord (tableBase p m)) mem mem') (hx : ¬ p.InTable m x) :
    mem'.bytes x = mem.bytes x := by
  have hbase := hp.toNat_tableBase hm
  have hfits := hp.fits
  refine h.frame x fun a ha => ?_
  obtain ⟨hlow, hhigh⟩ := ha.inTable (by omega)
  have hxlt := x.isLt
  have hout : x.toNat < a.toNat ∨ a.toNat + 8 ≤ x.toNat := by
    by_contra hin
    exact hx ⟨by omega, by omega⟩
  rw [BitVec.toNat_sub, toNat_physAddr]
  omega

theorem sameTableBytes_of_writesOnly (hp : p.Separated n) (hm : m < n) (hm' : m' < n)
    (hne : m' ≠ m) {mem mem' : PhysMem}
    (h : WritesOnly (IsTableWord (tableBase p m)) mem mem') : SameTableBytes p m' mem mem' :=
  fun _ hx => writesOnly_bytes hp hm h fun hx' => hne (hp.inTable_unique hm' hm hx hx')

theorem tableHolds_pagingCreate (hp : p.Separated n) {mem : PhysMem} (h : TableFresh p m mem) :
    TableHolds p m 0 (pagingCreate (tableBase p m) mem) :=
  ⟨leafWords mem (tableBase p m), h,
    holdsTable_pagingCreate (pageAligned_tableBase hp.aligned m) mem⟩

/-- The calls of `vm_init`. -/
theorem TableHolds.mapCalls (hp : p.Separated n) (hm : m < n) {mem mem' : PhysMem}
    (h : TableHolds p m k mem) (hmap : mapCalls (tableBase p m) mem (p.calls m) = some mem') :
    TableHolds p m (k + 1) mem' := by
  obtain ⟨leaf, hleaf, hholds⟩ := h
  obtain ⟨mem'', hmem'', hnext⟩ := hholds.mapCalls (pageAligned_tableBase hp.aligned m)
    fun c hc => (hp.calls m hm c hc).size_le_loop
  obtain rfl := Option.some.inj (hmap.symm.trans hmem'')
  refine ⟨leaf, hleaf, ?_⟩
  rw [List.replicate_succ', List.flatten_concat, callOps_append, mapAll_append]
  exact hnext

theorem writesOnly_mapCalls {base : U32} {mem mem' : PhysMem} {calls : List MapCall}
    (h : mapCalls base mem calls = some mem') : WritesOnly (IsTableWord base) mem mem' :=
  run_invariant (I := WritesOnly (IsTableWord base) mem) h (.refl mem) fun _ c _ _ hu hv =>
    hu.trans (TableOp.writesOnly (show (TableOp.map c).apply base _ = some _ from hv))

/-! ## What a walk finds -/

open Classical in
theorem TableHolds.walk_eq (hp : p.Separated n) {mem : PhysMem} (h : TableHolds p m k mem) :
    ∃ leaf : PageNo → U64, (∀ page, (leaf page).getLsbD 0 = false) ∧
      ∀ ipa, walk mem.bytes (physAddr (tableBase p m)) ipa =
        .ofEntry (if Touches (List.replicate k (p.calls m)).flatten (pageNo ipa).block then
            some (finalEntry leaf (List.replicate k (p.calls m)).flatten (pageNo ipa))
          else none) := by
  obtain ⟨leaf, hleaf, hholds⟩ := h
  refine ⟨leaf, hleaf, fun ipa => ?_⟩
  rw [hholds.walk_eq (pageAligned_tableBase hp.aligned m), lookup_mapAll_blank nodePath_lastNode]
  have htouch : (∃ op ∈ callOps (List.replicate k (p.calls m)).flatten,
      TableNode.second (pageNo ipa).block ∈ nodePath op.1) ↔
      Touches (List.replicate k (p.calls m)).flatten (pageNo ipa).block := by
    simp only [second_mem_nodePath]
    exact exists_mem_callOps (P := fun page => page.block = (pageNo ipa).block)
  exact congrArg _ (if_congr htouch rfl rfl)

theorem TableHolds.walk_fault (hp : p.Separated n) {mem : PhysMem} (h : TableHolds p m k mem)
    {ipa : U32} (hnot : ∀ c ∈ p.calls m, ¬ c.Covers (pageNo ipa)) :
    walk mem.bytes (physAddr (tableBase p m)) ipa = .fault := by
  obtain ⟨leaf, hleaf, hwalk⟩ := h.walk_eq hp
  have hnone : ∀ c ∈ (List.replicate k (p.calls m)).flatten, ¬ c.Covers (pageNo ipa) := by
    intro c hc
    obtain ⟨l, hl, hcl⟩ := List.mem_flatten.mp hc
    rw [List.eq_of_mem_replicate hl] at hcl
    exact hnot c hcl
  rw [hwalk, finalEntry_of_not_covers leaf hnone]
  split
  · rw [ofEntry_some_eq_fault]
    exact hleaf _
  · rfl

theorem exists_last_covers {calls : List MapCall} {page : PageNo}
    (h : ∃ c ∈ calls, c.Covers page) :
    ∃ pre c post, calls = pre ++ c :: post ∧ c.Covers page ∧ ∀ c' ∈ post, ¬ c'.Covers page := by
  induction calls with
  | nil => exact absurd h (by simp)
  | cons c calls ih =>
      by_cases hlater : ∃ c' ∈ calls, c'.Covers page
      · obtain ⟨pre, c', post, rfl, hcov, hpost⟩ := ih hlater
        exact ⟨c :: pre, c', post, rfl, hcov, hpost⟩
      · have hpost : ∀ c' ∈ calls, ¬ c'.Covers page := by simpa using hlater
        have hcov : c.Covers page := by simpa [hlater] using h
        exact ⟨[], c, calls, rfl, hcov, hpost⟩

/-- A page of a machine that has been initialised is where the last call that covers it maps it. -/
theorem TableHolds.translates (hp : p.Separated n) (hm : m < n) {mem : PhysMem}
    (h : TableHolds p m (k + 1) mem) {pre post : List MapCall} {c : MapCall}
    (hcalls : p.calls m = pre ++ c :: post) {ipa : U32} (hcov : c.Covers (pageNo ipa))
    (hpost : ∀ c' ∈ post, ¬ c'.Covers (pageNo ipa)) :
    TranslatesBy mem.bytes (physAddr (tableBase p m)) ipa c := by
  obtain ⟨leaf, -, hwalk⟩ := h.walk_eq hp
  have hall : (List.replicate (k + 1) (p.calls m)).flatten =
      ((List.replicate k (p.calls m)).flatten ++ pre) ++ c :: post := by
    rw [List.replicate_succ', List.flatten_concat, List.append_assoc, ← hcalls]
  have hmem : c ∈ p.calls m := by simp [hcalls]
  obtain ⟨j, hj, hpage⟩ := hcov
  refine translatesBy_descAt (hp.calls m hm c hmem) hj hpage ?_
  rw [← hpage] at hpost
  rw [hwalk, hall, if_pos ⟨c, by simp, _, ⟨j, hj, hpage⟩, rfl⟩, ← hpage,
    finalEntry_last leaf _ hj hpost, Translation.ofEntry, if_neg]
  rw [MapCall.descAt, getLsbD_setEntry_zero]
  exact Bool.noConfusion

theorem MapCall.WellFormed.targets {c : MapCall} (hc : c.WellFormed) {ipa : U32} {desc : U64}
    (hcov : c.Covers (pageNo ipa))
    (hout : (outputAddr desc ipa).toNat = c.pa.toNat + (ipa.toNat - c.ipa.toNat)) :
    c.Targets (outputAddr desc ipa) := by
  obtain ⟨hlow, hhigh⟩ := (hc.covers_iff ipa).mp hcov
  obtain ⟨i, hi⟩ := hc.ipa_aligned
  obtain ⟨j, hj⟩ := hc.pa_aligned
  rw [Targets, hout]
  omega

/-- Through the table of a machine a guest reaches only what the platform assigns to the machine. -/
theorem TableHolds.owns (hp : p.Separated n) (hm : m < n) {mem : PhysMem} (h : TableHolds p m k mem)
    {regs : Registers} (hregs : OnTable p m regs) {ipa : U32}
    (hreaches : Reaches mem.bytes regs ipa x) : p.Owns m x := by
  have hbit : hcrBitVm ≠ 0 := by decide
  rw [Reaches, hregs.hcr, if_neg hbit, hregs.vttbr, vttbrOf_baddr] at hreaches
  cases k with
  | zero =>
      obtain ⟨leaf, -, hwalk⟩ := h.walk_eq hp
      have hnone : ¬ Touches [] (pageNo ipa).block := by
        rintro ⟨c, hc, -⟩
        exact absurd hc List.not_mem_nil
      rw [hwalk, List.replicate_zero, List.flatten_nil, if_neg hnone] at hreaches
      exact hreaches.elim
  | succ k =>
      by_cases hcov : ∃ c ∈ p.calls m, c.Covers (pageNo ipa)
      · obtain ⟨pre, c, post, hcalls, hcov, hpost⟩ := exists_last_covers hcov
        obtain ⟨desc, hwalk, -, -, hout, -⟩ := h.translates hp hm hcalls hcov hpost
        have hmem : c ∈ p.calls m := by simp [hcalls]
        rw [hwalk] at hreaches
        obtain ⟨-, -, rfl⟩ := hreaches
        exact ⟨c, hmem, (hp.calls m hm c hmem).targets hcov hout⟩
      · rw [h.walk_fault hp fun c hc hcovers => hcov ⟨c, hc, hcovers⟩] at hreaches
        exact hreaches.elim

end Tables

end KHypervisor
