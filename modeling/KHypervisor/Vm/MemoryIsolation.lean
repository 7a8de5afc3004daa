import KHypervisor.Vm.GuestTables

/-!
# Guests and the memory of others

A byte is only changed by a guest that the platform assigns it to, by the hypervisor in a table that
no guest reaches, or by the controller that copies the memory of a machine to the backup that a
snapshot was taken for: `memory_isolated`.
-/

namespace KHypervisor

open Run Hypervisor

variable {gPolicy : PcpuId → PolicyName} {conf : HvConf} {H H' : Hypervisor gPolicy} {n : ℕ}

/-! ## Stores -/

theorem ResidenceInv.store (h : ResidenceInv conf H) (mem : PhysMem) :
    ResidenceInv conf { H with mem := mem } :=
  h.move (.same ⟨⟨fun _ => rfl, fun _ => rfl, fun _ => rfl, fun _ => rfl, rfl, rfl, rfl⟩, rfl⟩)

/-- A store to memory that is assigned to a machine leaves the tables alone. -/
theorem MemoryInv.store (hp : conf.platform.Separated n) (h : MemoryInv conf n H) {m : VmId}
    (hm : m < n) {pa : BitVec 40} (howns : conf.platform.Owns m pa) (value : U8) :
    MemoryInv conf n
      { H with mem := { H.mem with bytes := Function.update H.mem.bytes pa value } } := by
  have hsame : ∀ m' < n, SameTableBytes conf.platform m' H.mem
      { H.mem with bytes := Function.update H.mem.bytes pa value } := by
    intro m' hm' x hx
    refine Function.update_of_ne ?_ ..
    rintro rfl
    exact hp.not_inTable hm hm' howns hx
  exact h.setMem (fun m' hm' k hholds => ⟨k, hholds.congr hp hm' (hsame m' hm')⟩)
    fun m' hm' _ hfresh => hfresh.congr hp hm' (hsame m' hm')

/-- The guest on a processor reaches only memory of the current machine. -/
theorem MemoryInv.reaches (hp : conf.platform.Separated n) (h : MemoryInv conf n H) {cpu : PcpuId}
    (hvalid : (H.sys.sched cpu).currentVcpuid ≠ vcpuidInvalid) :
    ∃ m < n, (H.sys.sched cpu).currentVm = some m ∧ ∀ ipa pa,
      Reaches H.mem.bytes (H.sys.hw cpu).regs ipa pa → conf.platform.Owns m pa := by
  obtain ⟨m, hm, hcurrent, hon, k, htable⟩ := h.running cpu hvalid
  exact ⟨m, hm, hcurrent, fun ipa pa hreaches => htable.owns hp hm hon hreaches⟩

/-! ## Copies -/

/-- The transfer is from memory of machine `m` to memory of machine `k`. -/
def Transfer.Between (p : Platform) (m k : VmId) (t : Transfer) : Prop :=
  ∀ i < t.byteCount.toNat, p.Owns m (t.source i) ∧ p.Owns k (t.target i)

/-- The transfer is between two machines of a snapshot that was taken. -/
def Transfer.OfSnapshot (p : Platform) (n : ℕ) (taken : VmId → VmId → Prop) (t : Transfer) : Prop :=
  ∃ m < n, ∃ k < n, taken m k ∧ t.Between p m k

/-- All transfers that wait or were started are of snapshots. -/
structure CopyInv (p : Platform) (n : ℕ) (taken : VmId → VmId → Prop) (d : Dma) : Prop where
  waiting : ∃ xs, d.transQueue.Holds xs ∧ ∀ x ∈ xs, x.transfer.OfSnapshot p n taken
  started : ∀ t ∈ d.dmac.started, t.OfSnapshot p n taken

section

variable {p : Platform} {taken taken' : VmId → VmId → Prop} {m k : VmId} {d : Dma}

theorem Transfer.OfSnapshot.mono {t : Transfer} (h : t.OfSnapshot p n taken)
    (htaken : ∀ m k, taken m k → taken' m k) : t.OfSnapshot p n taken' := by
  obtain ⟨m, hm, k, hk, hmk, hbetween⟩ := h
  exact ⟨m, hm, k, hk, htaken m k hmk, hbetween⟩

theorem CopyInv.mono (h : CopyInv p n taken d) (htaken : ∀ m k, taken m k → taken' m k) :
    CopyInv p n taken' d := by
  obtain ⟨xs, hholds, hxs⟩ := h.waiting
  exact ⟨⟨xs, hholds, fun x hx => (hxs x hx).mono htaken⟩, fun t ht => (h.started t ht).mono htaken⟩

theorem CopyInv.start {d' : Dma} {x : DmaWait} {xs : List DmaWait} (h : CopyInv p n taken d)
    (hall : ∀ y ∈ x :: xs, y.transfer.OfSnapshot p n taken) (hholds : d'.transQueue.Holds xs)
    (hstarted : d'.dmac.started = d.dmac.started ++ [x.transfer]) : CopyInv p n taken d' := by
  obtain ⟨hx, hxs⟩ := List.forall_mem_cons.mp hall
  refine ⟨⟨xs, hholds, hxs⟩, fun t ht => ?_⟩
  rw [hstarted] at ht
  rcases List.mem_append.mp ht with ht | ht
  · exact h.started t ht
  · rwa [List.mem_singleton.mp ht]

theorem Platform.Separated.owns_dram (hp : p.Separated n) (hm : m < n) {i : ℕ}
    (hi : i < (p.vmConf m).vaOffsets.toNat) :
    p.Owns m (physAddr ((p.vmConf m).paStart + BitVec.ofNat 32 i)) := by
  have hmem : p.dramCall m ∈ p.calls m := List.mem_append_right _ (List.mem_singleton_self _)
  have hend := (hp.calls m hm _ hmem).pa_end
  change (p.vmConf m).paStart.toNat + (p.vmConf m).vaOffsets.toNat ≤ 2 ^ 32 at hend
  have haddr : (physAddr ((p.vmConf m).paStart + BitVec.ofNat 32 i)).toNat =
      (p.vmConf m).paStart.toNat + i := by
    rw [physAddr, BitVec.toNat_setWidth, BitVec.toNat_add, BitVec.toNat_ofNat]
    omega
  refine ⟨p.dramCall m, hmem, ?_⟩
  change (p.vmConf m).paStart.toNat ≤ _ ∧ _ < (p.vmConf m).paStart.toNat +
    (p.vmConf m).vaOffsets.toNat
  rw [haddr]
  omega

/-- The pieces of a memory go to the memory of a machine that is as large. -/
theorem between_wholePieces (hp : p.Separated n) (hm : m < n) (hk : k < n) (hcan : p.CanCopy m k)
    {x : DmaWait} (hx : x ∈ wholePieces (p.vmConf m).paStart (p.vmConf k).paStart 0
      ((p.vmConf m).vaOffsets.toNat / 4096)) : x.transfer.Between p m k := by
  obtain ⟨j, hj, rfl⟩ := List.mem_map.mp hx
  rw [List.mem_range] at hj
  obtain ⟨-, hroom⟩ := hcan
  have hcount : (BitVec.ofInt 32 sz4k).toNat = 4096 := rfl
  intro i hi
  have hi : i < 4096 := by rwa [DmaWait.transfer, dmaWaitAt, hcount] at hi
  have hlt : 0 + 4096 * j + i < (p.vmConf m).vaOffsets.toNat := by omega
  have haddr : ∀ a : U32, a + BitVec.ofNat 32 (0 + 4096 * j) + BitVec.ofNat 32 i =
      a + BitVec.ofNat 32 (0 + 4096 * j + i) := fun a => by
    rw [BitVec.ofNat_add (0 + 4096 * j), BitVec.add_assoc]
  constructor
  · rw [Transfer.source, DmaWait.transfer, dmaWaitAt, haddr]
    exact hp.owns_dram hm hlt
  · rw [Transfer.target, DmaWait.transfer, dmaWaitAt, haddr]
    exact hp.owns_dram hk (hlt.trans_le hroom)

end

theorem MemoryInv.kmusSnapshot (hp : conf.platform.Separated n) (h : MemoryInv conf n H)
    {taken : VmId → VmId → Prop} (hcopies : CopyInv conf.platform n taken H.dma) {cpu : PcpuId}
    {m k : VmId} {regs : CoreRegs} (htaken : taken m k) (hcan : conf.platform.CanCopy m k)
    (hstep : kmusSnapshot conf cpu m k regs H = some H') :
    MemoryInv conf n H' ∧ H'.mem = H.mem ∧ CopyInv conf.platform n taken H'.dma := by
  have hquiet := quiet_kmusSnapshot hstep
  have hinv := h.quiet hquiet
  refine ⟨⟨hinv.count, hinv.machine, hinv.fresh, hinv.running⟩, hquiet.mem, ?_⟩
  obtain ⟨vmem, -, hstep⟩ := Option.bind_eq_some_iff.mp hstep
  obtain ⟨J, hJ, hstep⟩ := Option.bind_eq_some_iff.mp hstep
  have hsaved := quiet_snapshotVcpus hJ
  have hinvJ := h.quiet hsaved
  rcases vmCopy_cases hstep with ⟨rfl, -⟩ | ⟨vmemSrc, vmemDst, K, dma, hsrc, hdst, hK, hcopy, rfl⟩
  · rwa [hsaved.dma]
  · obtain ⟨hm, hofSrc, -⟩ := hinvJ.machine m vmemSrc hsrc
    obtain ⟨hk, hofDst, -⟩ := hinvJ.machine k vmemDst hdst
    have hm : m < n := hm.trans_le hinvJ.count
    have hk : k < n := hk.trans_le hinvJ.count
    obtain ⟨hpa, hsize⟩ := hofSrc.dram
    obtain ⟨hpa', -⟩ := hofDst.dram
    have hcall := hp.calls m hm (conf.platform.dramCall m)
      (List.mem_append_right _ (List.mem_singleton_self _))
    have hpos : 0 < (conf.platform.vmConf m).vaOffsets.toNat := hcall.size_pos
    have hle : (conf.platform.vmConf m).vaOffsets.toNat ≤ 0x7FFFF000 := hcall.size_le
    obtain ⟨x, xs, hpieces, hholds, hstarted⟩ := vmemCopy_whole (by rwa [hsize])
      (by rw [hsize]; omega) (by rw [hsize]; exact hcan.1) hcopy
    rw [hpa, hpa', hsize] at hpieces
    have hdma : K.dma = H.dma := (copyVcpus_quiet hK).1.dma.trans hsaved.dma
    rw [hdma] at hstarted
    refine hcopies.start (fun y hy => ?_) hholds hstarted
    rw [← hpieces] at hy
    exact ⟨m, hm, k, hk, htaken, between_wholePieces hp hm hk hcan hy⟩

/-! ## Every step -/

/-- A snapshot of machine `m` was taken for machine `k`. -/
def SnapshotTaken (es : List MemEvent) (m k : VmId) : Prop :=
  ∃ cpu regs, MemEvent.call (.kmusSnapshot cpu m k regs) ∈ es

/-- What a guest reaches belongs to its machine. A byte that changes is one of a table that no
guest reaches, one that a guest has stored to, or one that the controller copies for a snapshot. -/
structure Isolated (conf : HvConf) (n : ℕ) (es : List MemEvent) (H : Hypervisor gPolicy)
    (e : MemEvent) (H' : Hypervisor gPolicy) : Prop where
  reaches : ∀ cpu, (H.sys.sched cpu).currentVcpuid ≠ vcpuidInvalid →
    ∃ m < n, (H.sys.sched cpu).currentVm = some m ∧ ∀ ipa pa,
      Reaches H.mem.bytes (H.sys.hw cpu).regs ipa pa → conf.platform.Owns m pa
  changes : ∀ x, H'.mem.bytes x ≠ H.mem.bytes x →
    (∃ call, e = .call call ∧ (∃ m < n, conf.platform.InTable m x) ∧
      ∀ m < n, ¬ conf.platform.Owns m x) ∨
    (∃ cpu ipa value m, e = .store cpu ipa x value ∧ m < n ∧
      (H.sys.sched cpu).currentVm = some m ∧ conf.platform.Owns m x) ∨
    ∃ t i m k, e = .copy t i ∧ m < n ∧ k < n ∧ SnapshotTaken es m k ∧
      conf.platform.Owns m (t.source i) ∧ x = t.target i ∧ conf.platform.Owns k x

/-- The invariants of the schedulers, of the memory and of the copies. -/
structure GuestInv (conf : HvConf) (n : ℕ) (es : List MemEvent) (H : Hypervisor gPolicy) : Prop
    extends ResidenceInv conf H, MemoryInv conf n H where
  copies : CopyInv conf.platform n (SnapshotTaken es) H.dma

theorem isolated_of_tables {es : List MemEvent} {e : HvEvent} (hp : conf.platform.Separated n)
    (hreaches : ∀ cpu, (H.sys.sched cpu).currentVcpuid ≠ vcpuidInvalid →
      ∃ m < n, (H.sys.sched cpu).currentVm = some m ∧ ∀ ipa pa,
        Reaches H.mem.bytes (H.sys.hw cpu).regs ipa pa → conf.platform.Owns m pa)
    (htables : ∀ x, H'.mem.bytes x ≠ H.mem.bytes x → ∃ m < n, conf.platform.InTable m x) :
    Isolated conf n es H (.call e) H' := by
  refine ⟨hreaches, fun x hx => ?_⟩
  obtain ⟨m, hm, hin⟩ := htables x hx
  exact .inl ⟨e, rfl, ⟨m, hm, hin⟩, fun m' hm' howns => hp.not_inTable hm' hm howns hin⟩

theorem GuestInv.copies_concat {es : List MemEvent} (h : GuestInv conf n es H) (e : MemEvent) :
    CopyInv conf.platform n (SnapshotTaken (es ++ [e])) H.dma :=
  h.copies.mono fun _ _ ⟨cpu, regs, hmem⟩ => ⟨cpu, regs, List.mem_append_left _ hmem⟩

theorem GuestInv.call (hp : conf.platform.Separated n) {es : List MemEvent}
    (h : GuestInv conf n es H) {e : HvEvent} (hgood : ¬ Oversteps conf.platform n H (.call e))
    (hstep : hvStep conf H e = some H') :
    GuestInv conf n (es ++ [.call e]) H' ∧ Isolated conf n es H (.call e) H' := by
  have hreaches := fun cpu (hvalid : (H.sys.sched cpu).currentVcpuid ≠ vcpuidInvalid) =>
    h.toMemoryInv.reaches hp hvalid
  have hcopies := h.copies_concat (.call e)
  have hres := h.toResidenceInv.step hstep
  by_cases hsnapshot : ∃ cpu m k regs, e = .kmusSnapshot cpu m k regs
  · obtain ⟨cpu, m, k, regs, rfl⟩ := hsnapshot
    obtain ⟨hmemory, hmem, hcopies'⟩ := h.toMemoryInv.kmusSnapshot hp hcopies
      ⟨cpu, regs, List.mem_append_right _ (List.mem_singleton_self _)⟩ (not_not.mp hgood)
      (hvCall_of_hvStep hstep)
    exact ⟨⟨hres, hmemory, hcopies'⟩,
      isolated_of_tables hp hreaches fun x hx => absurd (by rw [hmem]) hx⟩
  · obtain ⟨hmemory, htables⟩ := h.toMemoryInv.call hp h.toResidenceInv hgood
      (fun cpu m k regs heq => hsnapshot ⟨cpu, m, k, regs, heq⟩) hstep
    exact ⟨⟨hres, hmemory, htables.dma ▸ hcopies⟩, isolated_of_tables hp hreaches htables.bytes⟩

theorem eq_of_update_ne {α β : Type*} [DecidableEq α] {f : α → β} {a x : α} {v : β}
    (h : Function.update f a v x ≠ f x) : x = a := by
  by_contra hne
  exact h (Function.update_of_ne hne ..)

theorem GuestInv.step (hp : conf.platform.Separated n) {es : List MemEvent}
    (h : GuestInv conf n es H) {e : MemEvent} (hgood : ¬ Oversteps conf.platform n H e)
    (hstep : memStep conf H e = some H') :
    GuestInv conf n (es ++ [e]) H' ∧ Isolated conf n es H e H' := by
  have hreaches := fun cpu (hvalid : (H.sys.sched cpu).currentVcpuid ≠ vcpuidInvalid) =>
    h.toMemoryInv.reaches hp hvalid
  have hcopies := h.copies_concat e
  cases e with
  | call call => exact h.call hp hgood hstep
  | store cpu ipa pa value =>
      obtain ⟨⟨hvalid, hreach⟩, hstep⟩ := Option.ite_none_right_eq_some.mp hstep
      obtain ⟨m, hm, hcurrent, howns⟩ := hreaches cpu hvalid
      rw [← Option.some.inj hstep]
      refine ⟨⟨h.toResidenceInv.store _, h.toMemoryInv.store hp hm (howns ipa pa hreach) value,
        hcopies⟩, hreaches, fun x hx => .inr (.inl ?_)⟩
      obtain rfl : x = pa := eq_of_update_ne hx
      exact ⟨cpu, ipa, value, m, rfl, hm, hcurrent, howns ipa x hreach⟩
  | copy t i =>
      obtain ⟨⟨hstarted, hi⟩, hstep⟩ := Option.ite_none_right_eq_some.mp hstep
      obtain ⟨m, hm, k, hk, htaken, hbetween⟩ := h.copies.started t hstarted
      obtain ⟨hsource, htarget⟩ := hbetween i hi
      rw [← Option.some.inj hstep]
      refine ⟨⟨h.toResidenceInv.store _, h.toMemoryInv.store hp hk htarget _, hcopies⟩, hreaches,
        fun x hx => .inr (.inr ?_)⟩
      obtain rfl : x = t.target i := eq_of_update_ne hx
      exact ⟨t, i, m, k, rfl, hm, hk, htaken, hsource, rfl, htarget⟩
  | dmaIrq =>
      obtain ⟨r, hr, rfl⟩ := Option.map_eq_some_iff.mp hstep
      obtain ⟨xs, hholds, hxs⟩ := hcopies.waiting
      obtain ⟨x, xs', rfl, hsched, hholds', hstarted⟩ :=
        dmaIrqHandler_holds hholds (Bool.eq_false_iff.mpr hgood) hr
      have hsame : { H.setSched 0 r.2 with dma := r.1 } = { H with dma := r.1 } := by
        rw [hsched, setSched, System.setSched, Function.update_eq_self]
      rw [hsame]
      exact ⟨⟨h.toResidenceInv.move (.same (sameFrame_setDma r.1)),
        ⟨h.count, h.machine, h.fresh, h.running⟩, hcopies.start hxs hholds' hstarted⟩, hreaches,
        fun x hx => absurd rfl hx⟩

end KHypervisor
