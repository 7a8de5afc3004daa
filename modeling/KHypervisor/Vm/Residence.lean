import KHypervisor.Vm.Ownership

/-!
# Where a virtual processor runs

The entries of a scheduler are for virtual processors of its own physical processor, and so is the
current one, whatever has been deleted since. A virtual processor is therefore the current one of
one physical processor at most, `current_unique`, and its state is saved and restored by nobody
else.
-/

namespace KHypervisor

open Run Hypervisor

/-! ## One scheduler -/

section Scheduler

variable {ED SD : Type} {policy : SchedPolicy ED SD} {refs : SD → List EntryRef}
  {s s' : Scheduler ED SD} {P P' : VcpuId → Prop} {Of Of' : VmId → VcpuId → Prop} {v : VcpuId}
  {i : EntryRef}

/-- All entries are for virtual processors with property `P`, and the current one is one of those,
with its machine. -/
structure ResidentSched (refs : SD → List EntryRef) (P : VcpuId → Prop)
    (Of : VmId → VcpuId → Prop) (s : Scheduler ED SD) : Prop where
  entry : ∀ i < s.nrEntries, P (s.entry i).vcpuid
  known : ∀ i ∈ refs s.sd, i < s.nrEntries
  current : s.currentVcpuid ≠ vcpuidInvalid → P s.currentVcpuid ∧
    s.currentVcpu = some s.currentVcpuid ∧ ∃ m, s.currentVm = some m ∧ Of m s.currentVcpuid

theorem ResidentSched.mono (h : ResidentSched refs P Of s) (hP : ∀ v, P v → P' v)
    (hOf : ∀ m v, P v → Of m v → Of' m v) : ResidentSched refs P' Of' s := by
  refine ⟨fun i hi => hP _ (h.entry i hi), h.known, fun hvalid => ?_⟩
  obtain ⟨hcurrent, hvcpu, m, hm, hof⟩ := h.current hvalid
  exact ⟨hP _ hcurrent, hvcpu, m, hm, hOf m _ hcurrent hof⟩

/-- The scheduler has no further entries, and nobody else is current. -/
theorem ResidentSched.of_same (h : ResidentSched refs P Of s) (hnr : s'.nrEntries = s.nrEntries)
    (hvcpuid : ∀ j, (s'.entry j).vcpuid = (s.entry j).vcpuid)
    (hknown : ∀ j ∈ refs s'.sd, j < s.nrEntries)
    (hid : s'.currentVcpuid = s.currentVcpuid ∨ s'.currentVcpuid = vcpuidInvalid)
    (hvcpu : s'.currentVcpu = s.currentVcpu) (hvm : s'.currentVm = s.currentVm) :
    ResidentSched refs P Of s' := by
  refine ⟨fun j hj => ?_, fun j hj => ?_, fun hvalid => ?_⟩
  · rw [hvcpuid]
    exact h.entry j (hnr ▸ hj)
  · rw [hnr]
    exact hknown j hj
  · have hsame := hid.resolve_right hvalid
    rw [hsame] at hvalid ⊢
    rw [hvcpu, hvm]
    exact h.current hvalid

theorem ResidentSched.register (h : ResidentSched refs P Of s) (policy : SchedPolicy ED SD)
    (hv : P v) : ResidentSched refs P Of (schedVcpuRegister policy v s) := by
  refine ⟨fun i hi => ?_, fun i hi => Nat.lt_succ_of_lt (h.known i hi), h.current⟩
  rcases Nat.lt_succ_iff_lt_or_eq.mp hi with hlt | rfl
  · rw [schedVcpuRegister_entry_of_lt policy v s hlt]
    exact h.entry i hlt
  · rw [schedVcpuRegister_entry_self]
    exact hv

theorem ResidentSched.attach (hpolicy : PolicySpec policy refs) (h : ResidentSched refs P Of s)
    (hentries : EntriesInv s) (hfind : findEntry s v = some i) (hattach : Attaches policy i s s')
    (hcurrent : SameCurrent s s') : ResidentSched refs P Of s' := by
  refine h.of_same hattach.nrEntries hattach.vcpuid (fun j hj => ?_) (.inl hcurrent.currentVcpuid)
    hcurrent.currentVcpu hcurrent.currentVm
  rw [hattach.sd, hpolicy.mem_attach] at hj
  rcases hj with hj | rfl
  · exact h.known j hj
  · exact hentries.standby j (findEntry_some hfind).1

theorem ResidentSched.detach (h : ResidentSched refs P Of s) (hdetach : Detaches refs i s s') :
    ResidentSched refs P Of s' :=
  h.of_same hdetach.nrEntries hdetach.vcpuid (fun j hj => h.known j (hdetach.known j hj))
    hdetach.currentVcpuid hdetach.currentVcpu hdetach.currentVm

theorem ResidentSched.reschedule {vmidOf : VcpuId → Option VmId} (h : ResidentSched refs P Of s)
    (hOf : ∀ m v, P v → vmidOf v = some m → Of m v) (hsched : Reschedules refs vmidOf s s') :
    ResidentSched refs P Of s' := by
  have hknown : ∀ j ∈ refs s'.sd, j < s.nrEntries := fun j hj => h.known j (hsched.known j hj)
  rcases hsched.current with hsame | ⟨i, hi, m, hm, hswitched⟩
  · exact h.of_same hsched.nrEntries hsched.vcpuid hknown (.inl hsame.currentVcpuid)
      hsame.currentVcpu hsame.currentVm
  · refine ⟨fun j hj => ?_, fun j hj => ?_, fun _ => ?_⟩
    · rw [hsched.vcpuid]
      exact h.entry j (hsched.nrEntries ▸ hj)
    · rw [hsched.nrEntries]
      exact hknown j hj
    · rw [hswitched.currentVcpuid, hswitched.currentVcpu, hswitched.currentVm]
      have hentry := h.entry i (h.known i hi)
      exact ⟨hentry, rfl, m, rfl, hOf m _ hentry hm⟩

theorem ResidentSched.unlist {vs : List VcpuId} (h : ResidentSched refs P Of s)
    (hunlists : Unlists vs s s') : ResidentSched refs P Of s' := by
  refine h.of_same hunlists.nrEntries (fun j => by rw [hunlists.entry]) (fun j hj => ?_)
    (.inl hunlists.currentVcpuid) hunlists.currentVcpu hunlists.currentVm
  rw [hunlists.sd] at hj
  exact h.known j hj

theorem residentSched_schedInit (hpolicy : PolicySpec policy refs) (pcpu : PcpuId)
    (block : Scheduler ED SD) : ResidentSched refs P Of (schedInit policy pcpu block) := by
  have hrefs : refs (schedInit policy pcpu block).sd = [] := hpolicy.init block
  refine ⟨fun i hi => absurd hi (Nat.not_lt_zero i), fun i hi => ?_,
    fun hvalid => absurd rfl hvalid⟩
  rw [hrefs] at hi
  exact absurd hi List.not_mem_nil

end Scheduler

/-! ## All of them -/

variable {gPolicy : PcpuId → PolicyName} {conf : HvConf} {H H' : Hypervisor gPolicy}

/-- Numbers are given out once: what is there now under an old number was there before. -/
structure Ages (H H' : Hypervisor gPolicy) : Prop where
  nrVcpus : H.nrVcpus ≤ H'.nrVcpus
  vmCount : H.vmCount ≤ H'.vmCount
  vcpus : ∀ v < H.nrVcpus, ∀ vcpu', H'.sys.vcpus v = some vcpu' →
    ∃ vcpu, H.sys.vcpus v = some vcpu ∧ vcpu.vmid = vcpu'.vmid
  vms : ∀ m < H.vmCount, (H'.sys.vms m).isSome = true →
    (H.sys.vms m).isSome = true ∧ (H'.vmcb m).vcpu = (H.vmcb m).vcpu

theorem SameTables.ages (h : SameTables H H') : Ages H H' := by
  refine ⟨h.nrVcpus.ge, h.vmCount.ge, fun v _ vcpu' hv => ?_, fun m _ hm => ?_⟩
  · have hplace := h.place v
    rw [hv, Option.map_some] at hplace
    obtain ⟨vcpu, hvcpu, heq⟩ := Option.map_eq_some_iff.mp hplace.symm
    exact ⟨vcpu, hvcpu, congrArg Prod.snd heq⟩
  · exact ⟨(h.vms m).symm.trans hm, h.array m⟩

theorem Creates.ages (h : Creates H H') : Ages H H' := by
  refine ⟨h.nrVcpus, h.vmCount, fun v hv vcpu' hvcpu => ?_, fun m hm hsome => ?_⟩
  · rw [(h.old v (.inl hv)).1] at hvcpu
    exact ⟨vcpu', hvcpu, rfl⟩
  · rcases h.vms with ⟨hvms, hvmcb⟩ | ⟨-, vmem, vm, hvms, hvmcb, -, -⟩
    · rw [hvms] at hsome
      exact ⟨hsome, by rw [hvmcb]⟩
    · rw [hvms, Function.update_of_ne hm.ne] at hsome
      exact ⟨hsome, by rw [hvmcb, Function.update_of_ne hm.ne]⟩

theorem Deletes.ages {m : VmId} (h : Deletes m H H') : Ages H H' := by
  refine ⟨h.nrVcpus.ge, h.vmCount.ge, fun v _ vcpu' hv => ?_, fun m' _ hm' => ?_⟩
  · by_cases hmem : v ∈ (H.vmcb m).vcpu
    · rw [h.gone v hmem] at hv
      exact absurd hv.symm (Option.some_ne_none _)
    · rw [h.other v hmem] at hv
      exact ⟨vcpu', hv, rfl⟩
  · rw [h.vms] at hm'
    by_cases hne : m' = m
    · rw [hne, Function.update_self] at hm'
      exact Bool.noConfusion hm'
    · rw [Function.update_of_ne hne] at hm'
      exact ⟨hm', by rw [h.vmcb]⟩

theorem ages_of_eq (hvcpus : H'.sys.vcpus = H.sys.vcpus) (hvms : H'.sys.vms = H.sys.vms)
    (hvmcb : H'.vmcb = H.vmcb) (hnr : H'.nrVcpus = H.nrVcpus) (hcount : H'.vmCount = H.vmCount) :
    Ages H H' := by
  refine ⟨hnr.ge, hcount.ge, fun v _ vcpu hv => ⟨vcpu, by rwa [← hvcpus], rfl⟩, fun m _ hm => ?_⟩
  rw [hvms] at hm
  exact ⟨hm, by rw [hvmcb]⟩

theorem Move.ages (h : Move conf H H') : Ages H H' := by
  cases h with
  | same hsame => exact hsame.ages
  | timers => exact ages_of_eq rfl rfl rfl rfl rfl
  | registerTimer => exact ages_of_eq rfl rfl rfl rfl rfl
  | create hcreates => exact hcreates.ages
  | @register v m vcpu vcpu' life hv howns hplace hstate =>
      refine ⟨Nat.le_refl _, Nat.le_refl _, fun w _ wcpu hw => ?_, fun _ _ hm => ⟨hm, rfl⟩⟩
      have hvcpus : (H.setVcpu v vcpu').sys.vcpus w = some wcpu := hw
      rw [setVcpu_vcpus] at hvcpus
      by_cases hwv : w = v
      · rw [if_pos hwv] at hvcpus
        rw [hwv, ← Option.some.inj hvcpus]
        exact ⟨vcpu, hv, (congrArg Prod.snd hplace).symm⟩
      · rw [if_neg hwv] at hvcpus
        exact ⟨wcpu, hvcpus, rfl⟩
  | attach => exact ages_of_eq rfl rfl rfl rfl rfl
  | detach => exact ages_of_eq rfl rfl rfl rfl rfl
  | schedule hsched => exact hsched.ages

/-- The virtual processor belongs to physical processor `p`, and to its machine as long as both are
there. -/
structure Resident (conf : HvConf) (H : Hypervisor gPolicy) (p : PcpuId) (v : VcpuId) : Prop where
  lt : v < H.nrVcpus
  place : conf.vcpuToPcpu v = p
  vm : ∀ vcpu, H.sys.vcpus v = some vcpu → vcpu.vmid < H.vmCount ∧
    ((H.sys.vms vcpu.vmid).isSome = true → v ∈ (H.vmcb vcpu.vmid).vcpu)

/-- What is there under number `v` belongs to machine `m`. -/
structure Hypervisor.BelongsTo (H : Hypervisor gPolicy) (m : VmId) (v : VcpuId) : Prop where
  lt : m < H.vmCount
  vmid : ∀ vcpu, H.sys.vcpus v = some vcpu → vcpu.vmid = m
  owned : (H.sys.vms m).isSome = true → v ∈ (H.vmcb m).vcpu

theorem Resident.age {p : PcpuId} {v : VcpuId} (h : Resident conf H p v) (hages : Ages H H') :
    Resident conf H' p v := by
  refine ⟨h.lt.trans_le hages.nrVcpus, h.place, fun vcpu' hv => ?_⟩
  obtain ⟨vcpu, hvcpu, hvmid⟩ := hages.vcpus v h.lt vcpu' hv
  obtain ⟨hlt, hmem⟩ := h.vm vcpu hvcpu
  rw [hvmid] at hlt hmem
  refine ⟨hlt.trans_le hages.vmCount, fun hsome => ?_⟩
  obtain ⟨hold, harray⟩ := hages.vms _ hlt hsome
  rw [harray]
  exact hmem hold

theorem Hypervisor.BelongsTo.age {m : VmId} {v : VcpuId} (h : H.BelongsTo m v)
    (hv : v < H.nrVcpus) (hages : Ages H H') : H'.BelongsTo m v := by
  refine ⟨h.lt.trans_le hages.vmCount, fun vcpu' hvcpu' => ?_, fun hsome => ?_⟩
  · obtain ⟨vcpu, hvcpu, hvmid⟩ := hages.vcpus v hv vcpu' hvcpu'
    exact hvmid.symm.trans (h.vmid vcpu hvcpu)
  · obtain ⟨hold, harray⟩ := hages.vms m h.lt hsome
    rw [harray]
    exact h.owned hold

theorem Resident.belongsTo {p : PcpuId} {m : VmId} {v : VcpuId} (h : Resident conf H p v)
    (hm : H.sys.vmidOf v = some m) : H.BelongsTo m v := by
  obtain ⟨vcpu, hvcpu, rfl⟩ := Option.map_eq_some_iff.mp hm
  obtain ⟨hlt, howned⟩ := h.vm vcpu hvcpu
  refine ⟨hlt, fun vcpu' hvcpu' => ?_, howned⟩
  rw [Option.some.inj (hvcpu'.symm.trans hvcpu)]

/-- The tables agree, and every scheduler has virtual processors of its own processor only. -/
structure ResidenceInv (conf : HvConf) (H : Hypervisor gPolicy) : Prop extends LifeInv conf H where
  resident : ∀ p, ResidentSched (gPolicy p).refs (Resident conf H p) H.BelongsTo (H.sys.sched p)

theorem ResidentSched.age {p : PcpuId} {s : Scheduler (gPolicy p).EntryData (gPolicy p).SchedData}
    (h : ResidentSched (gPolicy p).refs (Resident conf H p) H.BelongsTo s) (hages : Ages H H') :
    ResidentSched (gPolicy p).refs (Resident conf H' p) H'.BelongsTo s :=
  h.mono (fun _ hv => hv.age hages) fun _ _ hv hof => hof.age hv.lt hages

theorem residentSched_setSched {J : Hypervisor gPolicy}
    (h : ∀ p, ResidentSched (gPolicy p).refs (Resident conf J p) J.BelongsTo (H.sys.sched p))
    {p : PcpuId} {s : Scheduler (gPolicy p).EntryData (gPolicy p).SchedData}
    (hs : ResidentSched (gPolicy p).refs (Resident conf J p) J.BelongsTo s) (q : PcpuId) :
    ResidentSched (gPolicy q).refs (Resident conf J q) J.BelongsTo
      ((H.setSched p s).sys.sched q) :=
  H.forall_setSched
    (P := fun q t => ResidentSched (gPolicy q).refs (Resident conf J q) J.BelongsTo t) hs
    (fun q _ => h q) q

theorem ResidenceInv.move (h : ResidenceInv conf H) (hmove : Move conf H H') :
    ResidenceInv conf H' := by
  have hages := hmove.ages
  have haged := fun p => (h.resident p).age hages
  refine ⟨h.toLifeInv.move hmove, fun p => ?_⟩
  cases hmove with
  | same hsame =>
      rw [hsame.sched]
      exact haged p
  | timers => exact haged p
  | registerTimer => exact haged p
  | create hcreates =>
      rw [hcreates.sched]
      exact haged p
  | @register v m vcpu vcpu' life hv howns hplace hstate =>
      refine residentSched_setSched haged ((haged _).register _ ?_) p
      have hresident : Resident conf H (conf.vcpuToPcpu v) v := by
        refine ⟨h.vcpus v (by rw [hv, Option.isSome_some]), rfl, fun wcpu hw => ?_⟩
        obtain ⟨ucpu, hu, hvmid⟩ := h.owns m v howns
        rw [Option.some.inj (hw.symm.trans hu), hvmid]
        exact ⟨h.vms m howns.1, fun _ => howns.2⟩
      exact hresident.age hages
  | @attach v m vcpu q hv howns hp =>
      rcases ((gPolicy q).spec conf.sched).attach_cases v q (H.sys.sched q) with
        ⟨hsame, -⟩ | ⟨i, hi, hattach, hcurrent⟩
      · refine residentSched_setSched haged ?_ p
        rw [hsame]
        exact haged q
      · exact residentSched_setSched haged ((haged q).attach ((gPolicy q).spec conf.sched)
          (h.entries q) hi hattach hcurrent) p
  | @detach v current s hs =>
      obtain ⟨i, -, hdetach⟩ := ((gPolicy _).spec conf.sched).detach_spec hs
      exact residentSched_setSched haged ((haged _).detach hdetach) p
  | schedule hsched =>
      rename_i cpu
      by_cases hp : p = cpu
      · subst hp
        exact ((h.resident p).reschedule (fun _ _ hv hm => hv.belongsTo hm)
          hsched.reschedules).age hsched.ages
      · rw [hsched.others p hp]
        exact haged p

theorem ResidenceInv.moves (h : ResidenceInv conf H) (hmoves : Moves conf H H') :
    ResidenceInv conf H' := by
  induction hmoves with
  | refl => exact h
  | tail _ hmove ih => exact ih.move hmove

theorem ResidenceInv.step (h : ResidenceInv conf H) {e : HvEvent}
    (hstep : hvStep conf H e = some H') : ResidenceInv conf H' := by
  by_cases hdelete : ∃ m, e = .vmDelete m
  · obtain ⟨m, rfl⟩ := hdelete
    obtain ⟨r, hr, rfl⟩ := vmDelete_of_hvStep hstep
    rcases vmDelete_spec hr with ⟨-, hsame⟩ | ⟨hm, -, hdeletes⟩
    · rwa [hsame]
    · exact ⟨h.toLifeInv.delete hm hdeletes, fun p =>
        ((h.resident p).unlist (hdeletes.sched p)).age hdeletes.ages⟩
  · exact h.moves (hvStep_moves (fun m hm => hdelete ⟨m, hm⟩) hstep)

theorem residenceInv_init (conf : HvConf) (blank : Blank gPolicy) :
    ResidenceInv conf (init conf blank) :=
  ⟨lifeInv_init conf blank, fun p =>
    residentSched_schedInit ((gPolicy p).spec conf.sched) p (blank.block p)⟩

theorem ResidenceInv.reachable {blank : Blank gPolicy} {es : List HvEvent}
    (hrun : run (hvStep conf) (init conf blank) es = some H) : ResidenceInv conf H :=
  run_invariant hrun (residenceInv_init conf blank) fun _ _ _ _ h hstep => h.step hstep

/-- In every reachable state a virtual processor is the current one of one physical processor at
most, and that is the one that it was created for. -/
theorem current_unique (conf : HvConf) (blank : Blank gPolicy) {es : List HvEvent}
    (hrun : run (hvStep conf) (init conf blank) es = some H) {p : PcpuId}
    (hp : (H.sys.sched p).currentVcpuid ≠ vcpuidInvalid) :
    p = conf.vcpuToPcpu (H.sys.sched p).currentVcpuid ∧
      ∀ q, (H.sys.sched q).currentVcpuid = (H.sys.sched p).currentVcpuid → q = p := by
  have hinv := ResidenceInv.reachable hrun
  have hplace : ∀ q, (H.sys.sched q).currentVcpuid ≠ vcpuidInvalid →
      conf.vcpuToPcpu (H.sys.sched q).currentVcpuid = q := fun q hq =>
    ((hinv.resident q).current hq).1.place
  refine ⟨(hplace p hp).symm, fun q hq => ?_⟩
  rw [← hplace q (hq ▸ hp), hq, hplace p hp]

/-- Processor 0 has been started on a machine with one virtual processor. -/
theorem current_unique_started :
    ∃ H, run (hvStep sampleConf) (init sampleConf sampleBlank) (handOver.take 6) = some H ∧
      (H.sys.sched 0).currentVcpuid ≠ vcpuidInvalid ∧
      0 = sampleConf.vcpuToPcpu (H.sys.sched 0).currentVcpuid ∧
      ∀ q, (H.sys.sched q).currentVcpuid = (H.sys.sched 0).currentVcpuid → q = 0 := by
  obtain ⟨H, hrun, hcurrent⟩ : ∃ H,
      run (hvStep sampleConf) (init sampleConf sampleBlank) (handOver.take 6) = some H ∧
        (H.sys.sched 0).currentVcpuid = 0 := ⟨_, rfl, rfl⟩
  have hvalid : (H.sys.sched 0).currentVcpuid ≠ vcpuidInvalid := by
    rw [hcurrent]
    decide
  exact ⟨H, hrun, hvalid, current_unique sampleConf sampleBlank hrun hvalid⟩

end KHypervisor
