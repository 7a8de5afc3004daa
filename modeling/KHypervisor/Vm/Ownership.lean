import KHypervisor.Sched.Entries
import KHypervisor.Vm.Moves

/-!
# Who owns what

Every virtual processor belongs to one machine, which is there as long as it is, and has its
entries with the scheduler of one physical processor. This holds in every reachable state, whatever
is deleted and when (`LifeInv.reachable`).
-/

namespace KHypervisor

open Run Hypervisor

variable {gPolicy : PcpuId → PolicyName}

/-- The life cycle's tables agree with one another and with the schedulers. -/
structure LifeInv (conf : HvConf) (H : Hypervisor gPolicy) : Prop where
  vcpus : ∀ v, (H.sys.vcpus v).isSome = true → v < H.nrVcpus
  vms : ∀ m, (H.sys.vms m).isSome = true → m < H.vmCount
  owns : ∀ m v, H.Owns m v → ∃ vcpu, H.sys.vcpus v = some vcpu ∧ vcpu.vmid = m
  nodup : ∀ m, (H.sys.vms m).isSome = true → (H.vmcb m).vcpu.Nodup
  entries : ∀ p, EntriesInv (H.sys.sched p)
  standby : ∀ p, ∀ i ∈ (H.sys.sched p).standbyEntries,
    ((H.sys.sched p).entry i).vcpuid < H.nrVcpus ∧
      p = conf.vcpuToPcpu ((H.sys.sched p).entry i).vcpuid
  pcpuid : ∀ v vcpu i, H.sys.vcpus v = some vcpu →
    findEntry (H.sys.sched (conf.vcpuToPcpu v)) v = some i → vcpu.pcpuid = conf.vcpuToPcpu v
  activated : ∀ v i, (H.sys.vcpus v).isSome = true → (H.life v).state = .activated →
    findEntry (H.sys.sched (conf.vcpuToPcpu v)) v = some i →
    ((H.sys.sched (conf.vcpuToPcpu v)).entry i).state ≠ .detached

variable {conf : HvConf} {H H' : Hypervisor gPolicy}

/-! ## What follows -/

theorem LifeInv.owner_unique (h : LifeInv conf H) {m m' : VmId} {v : VcpuId} (hm : H.Owns m v)
    (hm' : H.Owns m' v) : m = m' := by
  obtain ⟨vcpu, hvcpu, rfl⟩ := h.owns m v hm
  obtain ⟨vcpu', hvcpu', rfl⟩ := h.owns m' v hm'
  rw [Option.some.inj (hvcpu.symm.trans hvcpu')]

theorem LifeInv.live_of_owns (h : LifeInv conf H) {m : VmId} {v : VcpuId} (hm : H.Owns m v) :
    (H.sys.vcpus v).isSome = true := by
  obtain ⟨vcpu, hvcpu, -⟩ := h.owns m v hm
  rw [hvcpu, Option.isSome_some]

theorem LifeInv.vmidOf_of_owns (h : LifeInv conf H) {m : VmId} {v : VcpuId} (hm : H.Owns m v) :
    H.sys.vmidOf v = some m := by
  obtain ⟨vcpu, hvcpu, rfl⟩ := h.owns m v hm
  rw [System.vmidOf, hvcpu, Option.map_some]

/-- Nobody is found by another scheduler than that of its processor. -/
theorem LifeInv.eq_of_findEntry (h : LifeInv conf H) {p : PcpuId} {v : VcpuId} {i : EntryRef}
    (hi : findEntry (H.sys.sched p) v = some i) : v < H.nrVcpus ∧ p = conf.vcpuToPcpu v := by
  obtain ⟨hmem, hv⟩ := findEntry_some hi
  have hstandby := h.standby p i hmem
  rwa [hv] at hstandby

/-! ## Moves -/

theorem LifeInv.sameTables (h : LifeInv conf H) (hsame : SameTables H H')
    (hkeeps : ∀ p, KeepsEntries (H.sys.sched p) (H'.sys.sched p))
    (hentries : ∀ p, EntriesInv (H'.sys.sched p)) : LifeInv conf H' := by
  have hplace : ∀ v vcpu, H'.sys.vcpus v = some vcpu →
      ∃ vcpu', H.sys.vcpus v = some vcpu' ∧ vcpu'.place = vcpu.place := fun v vcpu hv => by
    have hmap := hsame.place v
    rw [hv, Option.map_some] at hmap
    exact Option.map_eq_some_iff.mp hmap.symm
  refine ⟨fun v hv => ?_, fun m hm => ?_, fun m v hm => ?_, fun m hm => ?_, hentries,
    fun p i hi => ?_, fun v vcpu i hv hi => ?_, fun v i hv hstate hi => ?_⟩
  · rw [hsame.nrVcpus]
    exact h.vcpus v (by rwa [← hsame.live])
  · rw [hsame.vmCount]
    exact h.vms m (by rwa [← hsame.vms])
  · obtain ⟨vcpu, hvcpu, hvmid⟩ := h.owns m v (hsame.owns.mp hm)
    obtain ⟨vcpu', hvcpu'⟩ := Option.isSome_iff_exists.mp
      ((hsame.live v).trans (by rw [hvcpu, Option.isSome_some]))
    obtain ⟨vcpu'', hvcpu'', heq⟩ := hplace v vcpu' hvcpu'
    obtain rfl := Option.some.inj (hvcpu.symm.trans hvcpu'')
    exact ⟨vcpu', hvcpu', (congrArg Prod.snd heq).symm.trans hvmid⟩
  · rw [hsame.array]
    exact h.nodup m (by rwa [← hsame.vms])
  · rw [(hkeeps p).vcpuid, hsame.nrVcpus]
    exact h.standby p i ((hkeeps p).standby ▸ hi)
  · obtain ⟨vcpu', hvcpu', heq⟩ := hplace v vcpu hv
    rw [(hkeeps _).findEntry] at hi
    exact (congrArg Prod.fst heq).symm.trans (h.pcpuid v vcpu' i hvcpu' hi)
  · rw [(hkeeps _).findEntry] at hi
    rw [hsame.live] at hv
    rw [hsame.state] at hstate
    exact (hkeeps _).state i (h.activated v i hv hstate hi)

theorem LifeInv.setSched (h : LifeInv conf H) {p : PcpuId}
    {s : Scheduler (gPolicy p).EntryData (gPolicy p).SchedData}
    (hkeeps : KeepsEntries (H.sys.sched p) s) (hentries : EntriesInv s) :
    LifeInv conf (H.setSched p s) :=
  h.sameTables ⟨fun _ => rfl, fun _ => rfl, fun _ => rfl, fun _ => rfl, rfl, rfl, rfl⟩
    (H.forall_setSched (P := fun q t => KeepsEntries (H.sys.sched q) t) hkeeps fun _ _ => .refl _)
    (H.forall_setSched (P := fun _ t => EntriesInv t) hentries fun q _ => h.entries q)

theorem LifeInv.setState (h : LifeInv conf H) {v : VcpuId} {state : VcpuState}
    (hstate : state = .activated → ∀ i, (H.sys.vcpus v).isSome = true →
      findEntry (H.sys.sched (conf.vcpuToPcpu v)) v = some i →
      ((H.sys.sched (conf.vcpuToPcpu v)).entry i).state ≠ .detached) :
    LifeInv conf (H.setState v state) := by
  refine { h with activated := fun w i hw hactivated hi => ?_ }
  rw [setState_state] at hactivated
  by_cases hwv : w = v
  · subst hwv
    rw [if_pos rfl] at hactivated
    exact hstate hactivated i hw hi
  · rw [if_neg hwv] at hactivated
    exact h.activated w i hw hactivated hi

theorem LifeInv.attach (h : LifeInv conf H) {v : VcpuId} {vcpu : Vcpu} {p : PcpuId}
    (hv : H.sys.vcpus v = some vcpu) (hp : p = conf.vcpuToPcpu v ∨ p = vcpu.pcpuid) :
    LifeInv conf ((H.attach conf v p).setState v .activated) := by
  have hcases := ((gPolicy p).spec conf.sched).attach_cases v p (H.sys.sched p)
  have hkept : LifeInv conf (H.attach conf v p) := by
    rcases hcases with ⟨hsame, -⟩ | ⟨i, hi, hattach, -⟩
    · rw [Hypervisor.attach, hsame]
      exact h.setSched (.refl _) (h.entries p)
    · exact h.setSched hattach.keepsEntries ((h.entries p).attach hi hattach)
  refine hkept.setState fun _ i _ hi => ?_
  have hplace : p = conf.vcpuToPcpu v := by
    by_contra hne
    have hfind : findEntry (H.sys.sched (conf.vcpuToPcpu v)) v = some i := by
      rwa [Hypervisor.attach, setSched_of_ne H (Ne.symm hne)] at hi
    exact hne (hp.elim id fun hpcpuid => hpcpuid.trans (h.pcpuid v vcpu i hv hfind))
  subst hplace
  rw [Hypervisor.attach, setSched_self] at hi ⊢
  rcases hcases with ⟨hsame, hstate⟩ | ⟨j, hj, hattach, -⟩
  · rw [hsame] at hi ⊢
    exact hstate i hi
  · rw [hattach.findEntry, hj] at hi
    rw [← Option.some.inj hi, hattach.state, if_pos rfl]
    decide

theorem LifeInv.detach (h : LifeInv conf H) {v : VcpuId} {p : PcpuId} {current : Option VcpuId}
    {s : Scheduler (gPolicy p).EntryData (gPolicy p).SchedData}
    (hs : schedVcpuDetach ((gPolicy p).policy conf.sched) current v (H.sys.sched p) = some s) :
    LifeInv conf ((H.setSched p s).setState v .registered) := by
  obtain ⟨i, -, hdetach⟩ := ((gPolicy p).spec conf.sched).detach_spec hs
  refine (h.setSched hdetach.keepsEntries ((h.entries p).detach hdetach)).setState fun hne => ?_
  exact VcpuState.noConfusion hne

theorem LifeInv.register (h : LifeInv conf H) {v : VcpuId} {vcpu vcpu' : Vcpu} {life : VcpuLife}
    (hv : H.sys.vcpus v = some vcpu) (hplace : vcpu'.place = (conf.vcpuToPcpu v, vcpu.vmid))
    (hstate : life.state = .registered) :
    LifeInv conf (((H.setVcpu v vcpu').setSched (conf.vcpuToPcpu v)
      (schedVcpuRegister ((gPolicy (conf.vcpuToPcpu v)).policy conf.sched) v
        (H.sys.sched (conf.vcpuToPcpu v)))).setLife v life) := by
  set q := conf.vcpuToPcpu v with hq
  set s := schedVcpuRegister ((gPolicy q).policy conf.sched) v (H.sys.sched q) with hs
  set J := ((H.setVcpu v vcpu').setSched q s).setLife v life with hJ
  have hvlt : v < H.nrVcpus := h.vcpus v (by rw [hv, Option.isSome_some])
  have hvcpus : ∀ w, J.sys.vcpus w = if w = v then some vcpu' else H.sys.vcpus w :=
    fun w => setVcpu_vcpus H v w vcpu'
  have hothers : ∀ p, p ≠ q → J.sys.sched p = H.sys.sched p := fun p hp =>
    setSched_of_ne (H.setVcpu v vcpu') hp s
  have hlive : ∀ w, (J.sys.vcpus w).isSome = (H.sys.vcpus w).isSome := fun w => by
    rw [hvcpus]
    by_cases hw : w = v
    · rw [if_pos hw, hw, hv]
      rfl
    · rw [if_neg hw]
  have hadds : ∀ p, AddsEntry v (H.sys.sched p) (J.sys.sched p) :=
    (H.setVcpu v vcpu').forall_setSched (P := fun p t => AddsEntry v (H.sys.sched p) t)
      ((h.entries q).addsEntry _ v) fun _ _ => .refl v _
  have hentries : ∀ p, EntriesInv (J.sys.sched p) :=
    (H.setVcpu v vcpu').forall_setSched (P := fun _ t => EntriesInv t)
      ((h.entries q).register _ v) fun p _ => h.entries p
  refine ⟨fun w hw => h.vcpus w (by rwa [← hlive]), h.vms, fun m w hw => ?_, h.nodup, hentries,
    fun p i hi => ?_, fun w wcpu i hw hi => ?_, fun w i hw hactivated hi => ?_⟩
  · obtain ⟨wcpu, hwcpu, hvmid⟩ := h.owns m w hw
    rw [hvcpus]
    by_cases hwv : w = v
    · rw [if_pos hwv]
      rw [hwv, hv, Option.some.injEq] at hwcpu
      exact ⟨vcpu', rfl, (congrArg Prod.snd hplace).trans (hwcpu ▸ hvmid)⟩
    · rw [if_neg hwv]
      exact ⟨wcpu, hwcpu, hvmid⟩
  · rcases (hadds p).standby i hi with hold | hnew
    · rw [(hadds p).entry i hold]
      exact h.standby p i hold
    · by_cases hp : p = q
      · rw [hnew]
        exact ⟨hvlt, hp⟩
      · rw [hothers p hp] at hi ⊢
        exact h.standby p i hi
  · rw [hvcpus] at hw
    by_cases hwv : w = v
    · rw [if_pos hwv] at hw
      rw [← Option.some.inj hw, hwv]
      exact congrArg Prod.fst hplace
    · rw [if_neg hwv] at hw
      rw [(hadds _).found w hwv] at hi
      exact h.pcpuid w wcpu i hw hi
  · rw [hlive] at hw
    have hlife : J.life w = if w = v then life else H.life w := setLife_life _ v w life
    rw [hlife] at hactivated
    by_cases hwv : w = v
    · rw [if_pos hwv, hstate] at hactivated
      exact VcpuState.noConfusion hactivated
    · rw [if_neg hwv] at hactivated
      rw [(hadds _).found w hwv] at hi
      rw [(hadds _).entry i (findEntry_some hi).1]
      exact h.activated w i hw hactivated hi

theorem LifeInv.create (h : LifeInv conf H) (hcreates : Creates H H') : LifeInv conf H' := by
  have hold : ∀ v, v < H.nrVcpus →
      H'.sys.vcpus v = H.sys.vcpus v ∧ H'.life v = H.life v := fun v hv => hcreates.old v (.inl hv)
  refine ⟨fun v hv => ?_, fun m hm => ?_, fun m v hm => ?_, fun m hm => ?_, fun p => ?_,
    fun p i hi => ?_, fun v vcpu i hv hi => ?_, fun v i hv hstate hi => ?_⟩
  · by_contra hle
    rw [(hcreates.old v (.inr (Nat.le_of_not_lt hle))).1] at hv
    exact hle (Nat.lt_of_lt_of_le (h.vcpus v hv) hcreates.nrVcpus)
  · rcases hcreates.vms with ⟨hvms, -⟩ | ⟨hlt, vmem, vm, hvms, -, -, -⟩
    · rw [hvms] at hm
      exact Nat.lt_of_lt_of_le (h.vms m hm) hcreates.vmCount
    · by_cases hmc : m = H.vmCount
      · rwa [hmc]
      · rw [hvms, Function.update_of_ne hmc] at hm
        exact Nat.lt_trans (h.vms m hm) hlt
  · have hbefore : H.Owns m v → ∃ vcpu, H'.sys.vcpus v = some vcpu ∧ vcpu.vmid = m := fun hm => by
      obtain ⟨vcpu, hvcpu, hvmid⟩ := h.owns m v hm
      exact ⟨vcpu, (hold v (h.vcpus v (h.live_of_owns hm))).1.trans hvcpu, hvmid⟩
    rcases hcreates.vms with ⟨hvms, hvmcb⟩ | ⟨-, vmem, vm, hvms, hvmcb, -, hnew⟩
    · rw [Owns, hvms, hvmcb] at hm
      exact hbefore hm
    · rw [Owns, hvms, hvmcb] at hm
      by_cases hmc : m = H.vmCount
      · subst hmc
        rw [Function.update_self, Function.update_self] at hm
        obtain ⟨hle, hlt⟩ := hnew v hm.2
        exact (hcreates.new v hle hlt).1
      · rw [Function.update_of_ne hmc, Function.update_of_ne hmc] at hm
        exact hbefore hm
  · rcases hcreates.vms with ⟨hvms, hvmcb⟩ | ⟨-, vmem, vm, hvms, hvmcb, hnodup, -⟩
    · rw [hvms] at hm
      rw [hvmcb]
      exact h.nodup m hm
    · rw [hvmcb]
      by_cases hmc : m = H.vmCount
      · rwa [hmc, Function.update_self]
      · rw [hvms, Function.update_of_ne hmc] at hm
        rw [Function.update_of_ne hmc]
        exact h.nodup m hm
  · rw [hcreates.sched]
    exact h.entries p
  · rw [hcreates.sched] at hi ⊢
    exact ⟨Nat.lt_of_lt_of_le (h.standby p i hi).1 hcreates.nrVcpus, (h.standby p i hi).2⟩
  · rw [hcreates.sched] at hi
    rw [(hold v (h.eq_of_findEntry hi).1).1] at hv
    exact h.pcpuid v vcpu i hv hi
  · rw [hcreates.sched] at hi ⊢
    obtain ⟨hvcpu, hlife⟩ := hold v (h.eq_of_findEntry hi).1
    rw [hvcpu] at hv
    rw [hlife] at hstate
    exact h.activated v i hv hstate hi

/-- What a call of the policy and the switch after it do to a scheduler. -/
theorem Schedules.reschedules {cpu : PcpuId} (h : Schedules conf cpu H H') :
    Reschedules (gPolicy cpu).refs H.sys.vmidOf (H.sys.sched cpu) (H'.sys.sched cpu) := by
  obtain ⟨now, expiration, r, hr, hentries, hcurrent⟩ := h.chosen
  exact (gPolicy cpu).reschedules conf.sched hr hentries hcurrent

theorem LifeInv.schedule (h : LifeInv conf H) {cpu : PcpuId} (hsched : Schedules conf cpu H H') :
    LifeInv conf H' := by
  have hresched := hsched.reschedules
  refine h.sameTables hsched.toSameTables (fun p => ?_) fun p => ?_
  · by_cases hp : p = cpu
    · rw [hp]
      exact hresched.keepsEntries
    · rw [hsched.others p hp]
      exact .refl _
  · by_cases hp : p = cpu
    · rw [hp]
      exact (h.entries cpu).reschedule hresched
    · rw [hsched.others p hp]
      exact h.entries p

theorem LifeInv.same (h : LifeInv conf H) (hsame : SameFrame H H') : LifeInv conf H' := by
  refine h.sameTables hsame.toSameTables (fun p => ?_) fun p => ?_
  · rw [hsame.sched]
    exact .refl _
  · rw [hsame.sched]
    exact h.entries p

theorem LifeInv.move (h : LifeInv conf H) (hmove : Move conf H H') : LifeInv conf H' := by
  cases hmove with
  | same hsame => exact h.same hsame
  | timers => exact { h with }
  | registerTimer => exact { h with }
  | create hcreates => exact h.create hcreates
  | register hv _ hplace hstate => exact h.register hv hplace hstate
  | attach hv _ hp => exact h.attach hv hp
  | detach hs => exact h.detach hs
  | schedule hsched => exact h.schedule hsched

theorem LifeInv.moves (h : LifeInv conf H) (hmoves : Moves conf H H') : LifeInv conf H' := by
  induction hmoves with
  | refl => exact h
  | tail _ hmove ih => exact ih.move hmove

/-! ## Deletion -/

theorem LifeInv.delete (h : LifeInv conf H) {m : VmId} (hm : (H.sys.vms m).isSome = true)
    (hdeletes : Deletes m H H') : LifeInv conf H' := by
  have hleft : ∀ v, (H'.sys.vcpus v).isSome = true →
      v ∉ (H.vmcb m).vcpu ∧ H'.sys.vcpus v = H.sys.vcpus v := fun v hv => by
    have hmem : v ∉ (H.vmcb m).vcpu := fun hmem => by
      rw [hdeletes.gone v hmem] at hv
      exact Bool.noConfusion hv
    exact ⟨hmem, hdeletes.other v hmem⟩
  have hvms : ∀ m', (H'.sys.vms m').isSome = true →
      m' ≠ m ∧ (H.sys.vms m').isSome = true := fun m' hm' => by
    rw [hdeletes.vms] at hm'
    by_cases hne : m' = m
    · rw [hne, Function.update_self] at hm'
      exact Bool.noConfusion hm'
    · rw [Function.update_of_ne hne] at hm'
      exact ⟨hne, hm'⟩
  refine ⟨fun v hv => ?_, fun m' hm' => ?_, fun m' v hm' => ?_, fun m' hm' => ?_,
    fun p => (h.entries p).unlist (hdeletes.sched p), fun p i hi => ?_, fun v vcpu i hv hi => ?_,
    fun v i hv hstate hi => ?_⟩
  · rw [hdeletes.nrVcpus]
    exact h.vcpus v (by rwa [← (hleft v hv).2])
  · rw [hdeletes.vmCount]
    exact h.vms m' (hvms m' hm').2
  · obtain ⟨hne, hlive⟩ := hvms m' hm'.1
    have hbefore : H.Owns m' v := ⟨hlive, by rw [← hdeletes.vmcb]; exact hm'.2⟩
    have hmem : v ∉ (H.vmcb m).vcpu := fun hmem => hne (h.owner_unique hbefore ⟨hm, hmem⟩)
    rw [hdeletes.other v hmem]
    exact h.owns m' v hbefore
  · rw [hdeletes.vmcb]
    exact h.nodup m' (hvms m' hm').2
  · rw [(hdeletes.sched p).entry, hdeletes.nrVcpus]
    exact h.standby p i ((hdeletes.sched p).standby i hi)
  · obtain ⟨hmem, hsame⟩ := hleft v (by rw [hv, Option.isSome_some])
    rw [(hdeletes.sched _).findEntry v hmem] at hi
    exact h.pcpuid v vcpu i (hsame.symm.trans hv) hi
  · obtain ⟨hmem, hsame⟩ := hleft v hv
    rw [(hdeletes.sched _).findEntry v hmem] at hi
    rw [hdeletes.life] at hstate
    rw [(hdeletes.sched _).entry]
    exact h.activated v i (by rwa [← hsame]) hstate hi

/-! ## Runs -/

theorem LifeInv.step (h : LifeInv conf H) {e : HvEvent} (hstep : hvStep conf H e = some H') :
    LifeInv conf H' := by
  by_cases hdelete : ∃ m, e = .vmDelete m
  · obtain ⟨m, rfl⟩ := hdelete
    obtain ⟨r, hr, rfl⟩ := vmDelete_of_hvStep hstep
    rcases vmDelete_spec hr with ⟨-, hsame⟩ | ⟨hm, -, hdeletes⟩
    · rwa [hsame]
    · exact h.delete hm hdeletes
  · exact h.moves (hvStep_moves (fun m hm => hdelete ⟨m, hm⟩) hstep)

theorem lifeInv_init (conf : HvConf) (blank : Blank gPolicy) : LifeInv conf (init conf blank) where
  vcpus _ hv := Bool.noConfusion hv
  vms _ hm := Bool.noConfusion hm
  owns _ _ hm := Bool.noConfusion hm.1
  nodup _ hm := Bool.noConfusion hm
  entries p := entriesInv_schedInit ((gPolicy p).policy conf.sched) p (blank.block p)
  standby _ _ hi := absurd hi List.not_mem_nil
  pcpuid _ _ _ hv := absurd hv.symm (Option.some_ne_none _)
  activated _ _ hv := Bool.noConfusion hv

theorem LifeInv.reachable {blank : Blank gPolicy} {es : List HvEvent}
    (hrun : run (hvStep conf) (init conf blank) es = some H) : LifeInv conf H :=
  run_invariant hrun (lifeInv_init conf blank) fun _ _ _ _ h hstep => h.step hstep

end KHypervisor
