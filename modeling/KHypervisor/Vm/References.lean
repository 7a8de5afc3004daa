import KHypervisor.Vm.Ownership

/-!
# References to deleted machines

The schedulers keep numbers of virtual processors in their entries and point to the current virtual
processor and its machine, and `vm_delete` looks at none of this. What becomes of the references is
decided by whether a machine is deleted that is still referred to, `noDangling_iff`.
-/

namespace KHypervisor

open Run Hypervisor

/-! ## One scheduler -/

section Scheduler

variable {ED SD : Type} {policy : SchedPolicy ED SD} {refs : SD → List EntryRef}
  {s s' : Scheduler ED SD} {owns : VmId → VcpuId → Prop} {v : VcpuId} {i : EntryRef}

/-- The entry is in flight, or the policy knows of it: it is in its run queue, or it is the one that
was taken out of that last. -/
def Scheduler.Knows (refs : SD → List EntryRef) (s : Scheduler ED SD) (i : EntryRef) : Prop :=
  i ∈ s.inflightEntries ∨ i ∈ refs s.sd

/-- Whatever the scheduler refers to is registered, and owned by some machine. -/
structure RefsOwned (refs : SD → List EntryRef) (owns : VmId → VcpuId → Prop)
    (s : Scheduler ED SD) : Prop where
  known : ∀ i, s.Knows refs i → i ∈ s.standbyEntries ∧ ∃ m, owns m (s.entry i).vcpuid
  currentVcpuid : s.currentVcpuid = vcpuidInvalid ∨ s.currentVcpu = some s.currentVcpuid
  current : (s.currentVcpu = none ∧ s.currentVm = none) ∨
    ∃ m v, owns m v ∧ s.currentVcpu = some v ∧ s.currentVm = some m

/-- What the scheduler has after an operation that changes no numbers, it had before. -/
theorem RefsOwned.of_same (h : RefsOwned refs owns s)
    (hstandby : s'.standbyEntries = s.standbyEntries)
    (hvcpuid : ∀ j, (s'.entry j).vcpuid = (s.entry j).vcpuid)
    (hknown : ∀ j, s'.Knows refs j → s.Knows refs j)
    (hid : s'.currentVcpuid = s.currentVcpuid ∨ s'.currentVcpuid = vcpuidInvalid)
    (hvcpu : s'.currentVcpu = s.currentVcpu) (hvm : s'.currentVm = s.currentVm) :
    RefsOwned refs owns s' := by
  refine ⟨fun j hj => ?_, ?_, ?_⟩
  · rw [hstandby, hvcpuid]
    exact h.known j (hknown j hj)
  · rcases hid with hid | hid
    · rw [hid, hvcpu]
      exact h.currentVcpuid
    · exact .inl hid
  · rw [hvcpu, hvm]
    exact h.current

theorem RefsOwned.register (h : RefsOwned refs owns s) (hentries : EntriesInv s)
    (policy : SchedPolicy ED SD) (v : VcpuId) :
    RefsOwned refs owns (schedVcpuRegister policy v s) := by
  refine ⟨fun i hi => ?_, h.currentVcpuid, h.current⟩
  obtain ⟨hmem, howns⟩ := h.known i hi
  rw [schedVcpuRegister_entry_of_lt policy v s (hentries.standby i hmem)]
  exact ⟨List.mem_append_left _ hmem, howns⟩

theorem RefsOwned.attach (hpolicy : PolicySpec policy refs) (h : RefsOwned refs owns s)
    (hfind : findEntry s v = some i) {m : VmId} (howns : owns m v)
    (hattach : Attaches policy i s s') (hcurrent : SameCurrent s s') : RefsOwned refs owns s' := by
  refine ⟨fun j hj => ?_, ?_, ?_⟩
  · have hbefore : s.Knows refs j ∨ j = i := by
      rw [Scheduler.Knows, hattach.inflight, hattach.sd, hpolicy.mem_attach, List.mem_append,
        List.mem_singleton] at hj
      rcases hj with (hj | hj) | (hj | hj)
      · exact .inl (.inl hj)
      · exact .inr hj
      · exact .inl (.inr hj)
      · exact .inr hj
    rw [hattach.keepsEntries.standby, hattach.vcpuid]
    rcases hbefore with hbefore | rfl
    · exact h.known j hbefore
    · obtain ⟨hmem, hv⟩ := findEntry_some hfind
      exact ⟨hmem, m, by rwa [hv]⟩
  · rw [hcurrent.currentVcpuid, hcurrent.currentVcpu]
    exact h.currentVcpuid
  · rw [hcurrent.currentVcpu, hcurrent.currentVm]
    exact h.current

theorem RefsOwned.detach (h : RefsOwned refs owns s) (hdetach : Detaches refs i s s') :
    RefsOwned refs owns s' := by
  refine h.of_same hdetach.keepsEntries.standby hdetach.vcpuid (fun j hj => ?_)
    hdetach.currentVcpuid hdetach.currentVcpu hdetach.currentVm
  rw [Scheduler.Knows, hdetach.inflight] at hj
  exact hj.imp List.mem_of_mem_erase (hdetach.known j)

theorem RefsOwned.reschedule {vmidOf : VcpuId → Option VmId} (h : RefsOwned refs owns s)
    (hvmidOf : ∀ m v, owns m v → vmidOf v = some m) (hsched : Reschedules refs vmidOf s s') :
    RefsOwned refs owns s' := by
  have hknown : ∀ j, s'.Knows refs j → s.Knows refs j := fun j hj => by
    rw [Scheduler.Knows, hsched.inflight] at hj
    exact hj.imp_right (hsched.known j)
  rcases hsched.current with hsame | ⟨i, hi, vmid, hvmid, hswitched⟩
  · exact h.of_same hsched.standby hsched.vcpuid hknown (.inl hsame.currentVcpuid)
      hsame.currentVcpu hsame.currentVm
  · obtain ⟨-, m, hm⟩ := h.known i (.inr hi)
    have heq : vmid = m := Option.some.inj (hvmid.symm.trans (hvmidOf m _ hm))
    refine ⟨fun j hj => ?_, .inr ?_, .inr ⟨m, _, hm, hswitched.currentVcpu, ?_⟩⟩
    · rw [hsched.standby, hsched.vcpuid]
      exact h.known j (hknown j hj)
    · rw [hswitched.currentVcpuid, hswitched.currentVcpu]
    · rw [hswitched.currentVm, heq]

theorem RefsOwned.unlist {owns' : VmId → VcpuId → Prop} {vs : List VcpuId}
    (h : RefsOwned refs owns s) (hunlists : Unlists vs s s')
    (hspared : ∀ i, s.Knows refs i → (s.entry i).vcpuid ∉ vs)
    (hknown : ∀ i m, s.Knows refs i → owns m (s.entry i).vcpuid → owns' m (s.entry i).vcpuid)
    (hcurrent : ∀ m v, s.currentVm = some m → owns m v → owns' m v) : RefsOwned refs owns' s' := by
  refine ⟨fun i hi => ?_, ?_, ?_⟩
  · rw [Scheduler.Knows, hunlists.inflight, hunlists.sd] at hi
    obtain ⟨hmem, m, hm⟩ := h.known i hi
    rw [hunlists.entry]
    exact ⟨hunlists.kept i hmem (hspared i hi), m, hknown i m hi hm⟩
  · rw [hunlists.currentVcpuid, hunlists.currentVcpu]
    exact h.currentVcpuid
  · rw [hunlists.currentVcpu, hunlists.currentVm]
    exact h.current.imp_right fun ⟨m, v, hm, hvcpu, hvm⟩ =>
      ⟨m, v, hcurrent m v hvm hm, hvcpu, hvm⟩

theorem RefsOwned.mono {owns' : VmId → VcpuId → Prop} (h : RefsOwned refs owns s)
    (howns : ∀ m v, owns m v → owns' m v) : RefsOwned refs owns' s :=
  h.unlist (.refl [] s) (fun _ _ => List.not_mem_nil) (fun _ m _ => howns m _) fun m v _ =>
    howns m v

theorem RefsOwned.queuesFreed (h : RefsOwned refs owns s) (policy : SchedPolicy ED SD) :
    queuesFreed policy refs s = false := by
  rw [KHypervisor.queuesFreed, List.any_eq_false]
  intro i hi
  have hmem : s.standbyEntries.contains i = true :=
    List.contains_iff_mem.mpr (h.known i (.inr hi)).1
  rw [freed, hmem]
  exact Bool.false_ne_true

theorem refsOwned_schedInit (hpolicy : PolicySpec policy refs) (pcpu : PcpuId)
    (block : Scheduler ED SD) : RefsOwned refs owns (schedInit policy pcpu block) := by
  have hrefs : refs (schedInit policy pcpu block).sd = [] := hpolicy.init block
  refine ⟨fun i hi => ?_, .inl rfl, .inl ⟨rfl, rfl⟩⟩
  rw [Scheduler.Knows, hrefs] at hi
  exact absurd hi (by simp [schedInit])

end Scheduler

/-! ## All of them -/

variable {gPolicy : PcpuId → PolicyName}

/-- Nothing in the schedulers refers to a virtual processor or a machine that has been freed, and
no policy chooses one. -/
structure NoDangling (conf : HvConf) (H : Hypervisor gPolicy) : Prop where
  inflight : ∀ p, ∀ i ∈ (H.sys.sched p).inflightEntries,
    (H.sys.vcpus ((H.sys.sched p).entry i).vcpuid).isSome = true
  queue : ∀ p, ∀ i ∈ (gPolicy p).refs (H.sys.sched p).sd,
    (H.sys.vcpus ((H.sys.sched p).entry i).vcpuid).isSome = true
  currentVcpuid : ∀ p, (H.sys.sched p).currentVcpuid = vcpuidInvalid ∨
    (H.sys.vcpus (H.sys.sched p).currentVcpuid).isSome = true
  currentVcpu : ∀ p v, (H.sys.sched p).currentVcpu = some v → (H.sys.vcpus v).isSome = true
  currentVm : ∀ p m, (H.sys.sched p).currentVm = some m → (H.sys.vms m).isSome = true
  chosen : ∀ p now expiration r,
    ((gPolicy p).policy conf.sched).doSchedule now expiration (H.sys.sched p) = some r →
      r.2.1 = vcpuidInvalid ∨ (H.sys.vcpus r.2.1).isSome = true

/-- A scheduler refers to the machine: it is the current one there, or an entry for one of its
virtual processors is in flight or known to the policy. -/
def Hypervisor.Referenced (H : Hypervisor gPolicy) (m : VmId) : Prop :=
  ∃ p, (H.sys.sched p).currentVm = some m ∨
    ∃ i, (H.sys.sched p).Knows (gPolicy p).refs i ∧
      ((H.sys.sched p).entry i).vcpuid ∈ (H.vmcb m).vcpu

/-- The event deletes a machine that is there, whose virtual processors are all registered and which
is still referred to. -/
def DeletesReferenced (conf : HvConf) (H : Hypervisor gPolicy) (e : HvEvent) : Prop :=
  ∃ m, e = .vmDelete m ∧ (H.sys.vms m).isSome = true ∧ H.AllRegistered conf m ∧ H.Referenced m

/-- The tables agree, and everything that the schedulers refer to is owned by some machine. -/
structure ReferencesInv (conf : HvConf) (H : Hypervisor gPolicy) : Prop extends LifeInv conf H where
  refs : ∀ p, RefsOwned (gPolicy p).refs H.Owns (H.sys.sched p)

/-- So they do, and no timer that has been freed is linked. -/
structure SparedInv (conf : HvConf) (H : Hypervisor gPolicy) : Prop extends
    ReferencesInv conf H where
  timers : H.sparesFreedTimers = true

variable {conf : HvConf} {H H' : Hypervisor gPolicy}

theorem ReferencesInv.noDangling (h : ReferencesInv conf H) : NoDangling conf H := by
  have hknown : ∀ p i, (H.sys.sched p).Knows (gPolicy p).refs i →
      (H.sys.vcpus ((H.sys.sched p).entry i).vcpuid).isSome = true := fun p i hi => by
    obtain ⟨-, m, hm⟩ := (h.refs p).known i hi
    exact h.live_of_owns hm
  have hcurrent : ∀ p v, (H.sys.sched p).currentVcpu = some v →
      (H.sys.vcpus v).isSome = true := fun p v hv => by
    rcases (h.refs p).current with ⟨hnone, -⟩ | ⟨m, w, hm, hw, -⟩
    · exact absurd (hnone.symm.trans hv) (Option.some_ne_none v).symm
    · rw [Option.some.inj (hv.symm.trans hw)]
      exact h.live_of_owns hm
  refine ⟨fun p i hi => hknown p i (.inl hi), fun p i hi => hknown p i (.inr hi), fun p => ?_,
    hcurrent, fun p m hm => ?_, fun p now expiration r hr => ?_⟩
  · exact (h.refs p).currentVcpuid.imp_right (hcurrent p _)
  · rcases (h.refs p).current with ⟨-, hnone⟩ | ⟨m', w, hm', -, hvm⟩
    · exact absurd (hnone.symm.trans hm) (Option.some_ne_none m).symm
    · rw [Option.some.inj (hm.symm.trans hvm)]
      exact hm'.1
  · rcases (gPolicy p).picks conf.sched hr with hinvalid | ⟨i, hi, hpick⟩
    · exact .inl hinvalid
    · rw [hpick]
      exact .inr (hknown p i (.inr hi))

theorem refsOwned_setSched (h : ∀ p, RefsOwned (gPolicy p).refs H.Owns (H.sys.sched p)) {p : PcpuId}
    {s : Scheduler (gPolicy p).EntryData (gPolicy p).SchedData}
    (hs : RefsOwned (gPolicy p).refs H.Owns s) (q : PcpuId) :
    RefsOwned (gPolicy q).refs H.Owns ((H.setSched p s).sys.sched q) :=
  H.forall_setSched (P := fun q t => RefsOwned (gPolicy q).refs H.Owns t) hs (fun q _ => h q) q

theorem Creates.owns (hcreates : Creates H H') (hvms : ∀ m, (H.sys.vms m).isSome = true →
    m < H.vmCount) {m : VmId} {v : VcpuId} (hm : H.Owns m v) : H'.Owns m v := by
  rcases hcreates.vms with ⟨hvms', hvmcb⟩ | ⟨-, vmem, vm, hvms', hvmcb, -, -⟩
  · rwa [Owns, hvms', hvmcb]
  · have hne : m ≠ H.vmCount := Nat.ne_of_lt (hvms m hm.1)
    rwa [Owns, hvms', hvmcb, Function.update_of_ne hne, Function.update_of_ne hne]

theorem ReferencesInv.move (h : ReferencesInv conf H) (hmove : Move conf H H') :
    ReferencesInv conf H' := by
  refine ⟨h.toLifeInv.move hmove, fun p => ?_⟩
  cases hmove with
  | same hsame =>
      rw [hsame.sched]
      exact (h.refs p).mono fun m v => hsame.owns.mpr
  | timers => exact h.refs p
  | registerTimer => exact h.refs p
  | create hcreates =>
      rw [hcreates.sched]
      exact (h.refs p).mono fun m v => hcreates.owns h.vms
  | register => exact refsOwned_setSched h.refs ((h.refs _).register (h.entries _) _ _) p
  | @attach v m vcpu q hv howns hp =>
      rcases ((gPolicy q).spec conf.sched).attach_cases v q (H.sys.sched q) with
        ⟨hsame, -⟩ | ⟨i, hi, hattach, hcurrent⟩
      · refine refsOwned_setSched h.refs ?_ p
        rw [hsame]
        exact h.refs q
      · exact refsOwned_setSched h.refs ((h.refs q).attach ((gPolicy q).spec conf.sched)
          hi howns hattach hcurrent) p
  | @detach v current s hs =>
      obtain ⟨i, -, hdetach⟩ := ((gPolicy _).spec conf.sched).detach_spec hs
      exact refsOwned_setSched h.refs ((h.refs _).detach hdetach) p
  | schedule hsched =>
      rename_i cpu
      have howns : ∀ m v, H.Owns m v → H'.Owns m v := fun m v => hsched.owns.mpr
      by_cases hp : p = cpu
      · subst hp
        exact ((h.refs p).reschedule (fun m v hm => h.vmidOf_of_owns hm) hsched.reschedules).mono
          howns
      · rw [hsched.others p hp]
        exact (h.refs p).mono howns

theorem ReferencesInv.moves (h : ReferencesInv conf H) (hmoves : Moves conf H H') :
    ReferencesInv conf H' := by
  induction hmoves with
  | refl => exact h
  | tail _ hmove ih => exact ih.move hmove

theorem ReferencesInv.delete (h : ReferencesInv conf H) {m : VmId}
    (hm : (H.sys.vms m).isSome = true) (hunreferenced : ¬ H.Referenced m)
    (hdeletes : Deletes m H H') : ReferencesInv conf H' := by
  have hkept : ∀ m' v, m' ≠ m → H.Owns m' v → H'.Owns m' v := fun m' v hne howns => by
    rwa [Owns, hdeletes.vms, hdeletes.vmcb, Function.update_of_ne hne]
  refine ⟨h.toLifeInv.delete hm hdeletes, fun p => ?_⟩
  refine (h.refs p).unlist (hdeletes.sched p)
    (fun i hi hmem => hunreferenced ⟨p, .inr ⟨i, hi, hmem⟩⟩) (fun i m' hi howns => ?_)
    fun m' v hm' => ?_
  · refine hkept m' _ ?_ howns
    rintro rfl
    exact hunreferenced ⟨p, .inr ⟨i, hi, howns.2⟩⟩
  · refine hkept m' v ?_
    rintro rfl
    exact hunreferenced ⟨p, .inl hm'⟩

theorem sparesFreedTimers_delete {m : VmId} (hspared : H.sparesFreedTimers = true)
    (hdeletes : Deletes m H H') : H'.sparesFreedTimers = true := by
  rw [sparesFreedTimers, List.all_eq_true, hdeletes.nrVcpus]
  intro v hv
  rw [hdeletes.timers]
  by_cases hmem : v ∈ (H.vmcb m).vcpu
  · rw [isLinked_freeAll_of_mem (List.mem_map_of_mem hmem)]
    exact Bool.or_true _
  · have hnot : TimerRef.vtimer v ∉ (H.vmcb m).vcpu.map .vtimer := by simpa using hmem
    rw [isLinked_freeAll_of_not_mem hnot, hdeletes.other v hmem]
    exact List.all_eq_true.mp hspared v hv

theorem SparedInv.step (h : SparedInv conf H) {e : HvEvent}
    (he : ¬ DeletesReferenced conf H e) (hstep : hvStep conf H e = some H') :
    SparedInv conf H' := by
  refine ⟨?_, (hvStep_eq_some.mp hstep).2.2⟩
  by_cases hdelete : ∃ m, e = .vmDelete m
  · obtain ⟨m, rfl⟩ := hdelete
    obtain ⟨r, hr, rfl⟩ := vmDelete_of_hvStep hstep
    rcases vmDelete_spec hr with ⟨-, hsame⟩ | ⟨hm, hregistered, hdeletes⟩
    · rw [hsame]
      exact h.toReferencesInv
    · exact h.toReferencesInv.delete hm (fun href => he ⟨m, rfl, hm, hregistered, href⟩) hdeletes
  · exact h.moves (hvStep_moves (fun m hm => hdelete ⟨m, hm⟩) hstep)

/-- A machine that something refers to can be deleted as well, and leaves the reference behind. -/
theorem SparedInv.dangling (h : SparedInv conf H) {e : HvEvent}
    (he : DeletesReferenced conf H e) : ∃ H', hvStep conf H e = some H' ∧ ¬ NoDangling conf H' := by
  obtain ⟨m, rfl, hm, hregistered, p, href⟩ := he
  obtain ⟨r, hr⟩ :=
    vmDelete_some hm (h.nodup m hm) (fun v hv => h.live_of_owns ⟨hm, hv⟩) hregistered
  rcases vmDelete_spec hr with ⟨hnone, -⟩ | ⟨-, -, hdeletes⟩
  · rw [hnone] at hm
    exact Bool.noConfusion hm
  have hentries : H.sparesFreedEntries conf = true := by
    rw [sparesFreedEntries, List.all_eq_true]
    intro v _
    rw [(h.refs _).queuesFreed]
    rfl
  refine ⟨r.1, hvStep_eq_some.mpr ⟨hentries, Option.map_eq_some_iff.mpr ⟨r, hr, rfl⟩,
    sparesFreedTimers_delete h.timers hdeletes⟩, fun hlive => ?_⟩
  have hsched := hdeletes.sched p
  rcases href with hcurrent | ⟨i, hi, hmem⟩
  · have hvm := hlive.currentVm p m (hsched.currentVm.trans hcurrent)
    rw [hdeletes.vms, Function.update_self] at hvm
    exact Bool.noConfusion hvm
  · have hvcpu : (r.1.sys.vcpus ((r.1.sys.sched p).entry i).vcpuid).isSome = true := by
      rcases hi with hi | hi
      · exact hlive.inflight p i (by rwa [hsched.inflight])
      · exact hlive.queue p i (by rwa [hsched.sd])
    rw [hsched.entry, hdeletes.gone _ hmem] at hvcpu
    exact Bool.noConfusion hvcpu

theorem sparedInv_init (conf : HvConf) (blank : Blank gPolicy) :
    SparedInv conf (init conf blank) :=
  ⟨⟨lifeInv_init conf blank, fun p =>
    refsOwned_schedInit ((gPolicy p).spec conf.sched) p (blank.block p)⟩, rfl⟩

/-- In all states of a run nothing refers to what has been freed, unless a machine is deleted that a
scheduler refers to; and if that happens, the reference is left behind. -/
theorem noDangling_iff (conf : HvConf) (blank : Blank gPolicy) (es : List HvEvent) :
    Always (hvStep conf) (NoDangling conf) (init conf blank) es ↔
      ¬ Happened (hvStep conf) (DeletesReferenced conf) (init conf blank) es :=
  always_iff_not_happened (sparedInv_init conf blank) (fun _ h => h.noDangling)
    (fun _ _ _ _ h he hstep => h.step he hstep) fun _ _ _ h he => h.dangling he

/-- After the hand-over the current virtual processor and the current machine are those that have
been deleted. -/
theorem handOver_leaves_current :
    (∃ H, run (hvStep sampleConf) (init sampleConf sampleBlank) handOver = some H ∧
      (H.sys.sched 0).currentVcpu = some 0 ∧ H.sys.vcpus 0 = none ∧
      (H.sys.sched 0).currentVm = some 0 ∧ (H.sys.vms 0).isSome = false) ∧
    ¬ Always (hvStep sampleConf) (NoDangling sampleConf) (init sampleConf sampleBlank)
      handOver := by
  obtain ⟨H, hH, hvcpu, hfreed, hvm, hdeleted⟩ : ∃ H,
      run (hvStep sampleConf) (init sampleConf sampleBlank) handOver = some H ∧
        (H.sys.sched 0).currentVcpu = some 0 ∧ H.sys.vcpus 0 = none ∧
        (H.sys.sched 0).currentVm = some 0 ∧ (H.sys.vms 0).isSome = false :=
    ⟨_, rfl, rfl, rfl, rfl, rfl⟩
  refine ⟨⟨H, hH, hvcpu, hfreed, hvm, hdeleted⟩, fun hall => ?_⟩
  have hlive := (hall.last hH).currentVm 0 0 hvm
  rw [hdeleted] at hlive
  exact Bool.noConfusion hlive

end KHypervisor
