import KHypervisor.Vm.Moves

/-!
# The timers of deleted virtual processors

The software timer of a virtual processor is linked into the lists of the processor that initialises
or sets it, and nothing ever takes it out of them for good. As long as no machine is deleted whose
virtual processors have been initialised, the lists lead to virtual processors that are there:
`noDanglingTimers_unless`.
-/

namespace KHypervisor

open Run Hypervisor Links

variable {gPolicy : PcpuId → PolicyName}

/-- The timers that are met in a list, and those that the interrupt handler visits, are timers of
virtual processors that are there, or of schedulers. -/
structure NoDanglingTimers (H : Hypervisor gPolicy) : Prop where
  active : ∀ p v, H.timers.active.OnList p (.vtimer v) → (H.sys.vcpus v).isSome = true
  inactive : ∀ p v, H.timers.inactive.OnList p (.vtimer v) → (H.sys.vcpus v).isSome = true
  visited : ∀ fuel p ts, H.timers.active.entries fuel p = some ts →
    ∀ v, .vtimer v ∈ ts → (H.sys.vcpus v).isSome = true

/-- The links of the timer of a virtual processor have been initialised, which `vcpu_init` does. -/
def Hypervisor.TimerRegistered (H : Hypervisor gPolicy) (v : VcpuId) : Prop :=
  (H.timers.active.prev (.item (.vtimer v))).isSome = true

/-- The event deletes a machine with a virtual processor whose timer has been registered. -/
def DeletesRegistered (H : Hypervisor gPolicy) (e : HvEvent) : Prop :=
  ∃ m, e = .vmDelete m ∧ (H.sys.vms m).isSome = true ∧ ∃ v ∈ (H.vmcb m).vcpu, H.TimerRegistered v

/-- All links lie within the timers of schedulers and of virtual processors that are there. -/
def TimersLive (H : Hypervisor gPolicy) : Prop :=
  ∃ R, TimersWithin R H.timers ∧ ∀ v, .vtimer v ∈ R → (H.sys.vcpus v).isSome = true

variable {conf : HvConf} {H H' : Hypervisor gPolicy}

theorem TimersLive.noDanglingTimers (h : TimersLive H) : NoDanglingTimers H := by
  obtain ⟨R, hwithin, hlive⟩ := h
  refine ⟨fun p v hv => hlive v (hwithin.active.onList_mem hv),
    fun p v hv => hlive v (hwithin.inactive.onList_mem hv), fun fuel p ts hts v hv => ?_⟩
  exact hlive v (hwithin.active.onList_mem (onList_of_mem_entries hts _ hv))

theorem timersLive_init (conf : HvConf) (blank : Blank gPolicy) :
    TimersLive (init conf blank) :=
  ⟨∅, ⟨closed_empty, closed_empty⟩, fun _ hv => absurd hv (Set.notMem_empty _)⟩

theorem TimersLive.mono (h : TimersLive H) (htimers : H'.timers = H.timers)
    (hlive : ∀ v, (H.sys.vcpus v).isSome = true → (H'.sys.vcpus v).isSome = true) :
    TimersLive H' := by
  obtain ⟨R, hwithin, hR⟩ := h
  exact ⟨R, by rwa [htimers], fun v hv => hlive v (hR v hv)⟩

theorem TimersLive.sameTables (h : TimersLive H) (hsame : SameTables H H') : TimersLive H' :=
  h.mono hsame.timers fun v hv => by rwa [hsame.live]

theorem Creates.live (h : Creates H H') (v : VcpuId) (hv : (H.sys.vcpus v).isSome = true) :
    (H'.sys.vcpus v).isSome = true := by
  by_cases hold : v < H.nrVcpus ∨ H'.nrVcpus ≤ v
  · rw [(h.old v hold).1, hv]
  · obtain ⟨hle, hlt⟩ := not_or.mp hold
    obtain ⟨⟨vcpu, hvcpu, -⟩, -⟩ := h.new v (Nat.le_of_not_lt hle) (Nat.lt_of_not_le hlt)
    rw [hvcpu, Option.isSome_some]

theorem TimersLive.move (h : TimersLive H) (hmove : Move conf H H') : TimersLive H' := by
  cases hmove with
  | same hsame => exact h.sameTables hsame.toSameTables
  | timers hT =>
      obtain ⟨R, hwithin, hR⟩ := h
      exact ⟨R, hT R hwithin, hR⟩
  | registerTimer hT hlive =>
      obtain ⟨R, hwithin, hR⟩ := h
      refine ⟨_, hwithin.register hT, fun v hv => ?_⟩
      rcases Set.mem_insert_iff.mp hv with hv | hv
      · exact hlive v hv.symm
      · exact hR v hv
  | create hcreates => exact h.mono hcreates.timers hcreates.live
  | register => exact h.mono rfl fun w hw => isSome_setVcpu H _ _ hw
  | attach => exact h.mono rfl fun _ hv => hv
  | detach => exact h.mono rfl fun _ hv => hv
  | schedule hsched => exact h.sameTables hsched.toSameTables

theorem TimersLive.moves (h : TimersLive H) (hmoves : Moves conf H H') : TimersLive H' := by
  induction hmoves with
  | refl => exact h
  | tail _ hmove ih => exact ih.move hmove

/-- A machine whose virtual processors have no linked timers can be deleted. -/
theorem TimersLive.delete (h : TimersLive H) {m : VmId}
    (hunlinked : ∀ v ∈ (H.vmcb m).vcpu, ¬ H.TimerRegistered v) (hdeletes : Deletes m H H') :
    TimersLive H' := by
  obtain ⟨R, hwithin, hR⟩ := h
  have hother : ∀ v, .vtimer v ∈ R → v ∉ (H.vmcb m).vcpu := fun v hv hmem => by
    obtain ⟨y, hy, -⟩ := hwithin.active.prev (.item (.vtimer v)) hv
    exact hunlinked v hmem (by rw [TimerRegistered, hy, Option.isSome_some])
  refine ⟨R, ?_, fun v hv => ?_⟩
  · rw [hdeletes.timers]
    refine hwithin.freeAll fun t ht htR => ?_
    obtain ⟨v, hv, rfl⟩ := List.mem_map.mp ht
    exact hother v htR hv
  · rw [hdeletes.other v (hother v hv)]
    exact hR v hv

theorem TimersLive.step (h : TimersLive H) {e : HvEvent} (he : ¬ DeletesRegistered H e)
    (hstep : hvStep conf H e = some H') : TimersLive H' := by
  by_cases hdelete : ∃ m, e = .vmDelete m
  · obtain ⟨m, rfl⟩ := hdelete
    obtain ⟨r, hr, rfl⟩ := vmDelete_of_hvStep hstep
    rcases vmDelete_spec hr with ⟨-, hsame⟩ | ⟨hm, -, hdeletes⟩
    · rwa [hsame]
    · exact h.delete (fun v hv hlinked => he ⟨m, rfl, hm, v, hv, hlinked⟩) hdeletes
  · exact h.moves (hvStep_moves (fun m hm => hdelete ⟨m, hm⟩) hstep)

/-- In every run in which no machine is deleted that has a virtual processor whose timer has been
registered, no list of timers ever leads to the timer of a virtual processor that has been freed,
and the interrupt handler visits none. -/
theorem noDanglingTimers_unless (conf : HvConf) (blank : Blank gPolicy) {es : List HvEvent}
    (hes : ¬ Happened (hvStep conf) DeletesRegistered (init conf blank) es) :
    Always (hvStep conf) NoDanglingTimers (init conf blank) es :=
  always_unless (timersLive_init conf blank) (fun _ hu => hu.noDanglingTimers) hes
    fun _ _ _ _ hu he hstep => hu.step he hstep

/-- A machine that is started, whose guest sets its timer, and that is suspended. -/
def useTimer : List HvEvent :=
  [.vmCreate 1 .normal allAlloc, .vmInit 0 (fun _ => 0) 0, .vmStart 0, .schedStart 0 0 0,
    .timerAccess32 0 0 false Cp32.cntpTval.code 5, .timerIrq 0 9 (fun _ => 9) (some default),
    .vmSuspend 0 0 (some default)]

theorem noDanglingTimers_unless_useTimer :
    (∃ H, run (hvStep sampleConf) (init sampleConf sampleBlank) useTimer = some H) ∧
      Always (hvStep sampleConf) NoDanglingTimers (init sampleConf sampleBlank) useTimer :=
  ⟨⟨_, rfl⟩, noDanglingTimers_unless sampleConf sampleBlank
    (by simp [useTimer, Happened, DeletesRegistered])⟩

/-- After the hand-over the list of inactive timers still contains the timer of the virtual
processor that has been freed. -/
theorem handOver_leaves_timer :
    (∃ H, run (hvStep sampleConf) (init sampleConf sampleBlank) handOver = some H ∧
      H.sys.vcpus 0 = none ∧ H.timers.inactive.OnList 0 (.vtimer 0)) ∧
    ¬ Always (hvStep sampleConf) NoDanglingTimers (init sampleConf sampleBlank) handOver := by
  obtain ⟨H, hH, hfreed, hnext⟩ : ∃ H,
      run (hvStep sampleConf) (init sampleConf sampleBlank) handOver = some H ∧
        H.sys.vcpus 0 = none ∧ H.timers.inactive.next (.head 0) = some (.item (.vtimer 0)) :=
    ⟨_, rfl, rfl, rfl⟩
  refine ⟨⟨H, hH, hfreed, .single hnext⟩, fun hall => ?_⟩
  have hlive := (hall.last hH).inactive 0 0 (.single hnext)
  rw [hfreed] at hlive
  exact Bool.noConfusion hlive

end KHypervisor
