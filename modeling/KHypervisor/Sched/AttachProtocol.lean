import KHypervisor.Sched.Policy

/-!
# Attaching and detaching

Whether a virtual processor is attached is kept in three places: the state of its entry, the list
`inflight_entries` and the run queue of the policy. Nothing ever puts an entry back into the
detached state, so a virtual processor that has been detached can not be attached again
(`attach_law_iff`).
-/

namespace KHypervisor

open Scheduler Run

/-- The entry of `v` is in a state other than the detached one. -/
def InUse {ED SD : Type} (s : Scheduler ED SD) (v : VcpuId) : Prop :=
  ∃ i, findEntry s v = some i ∧ (s.entry i).state ≠ .detached

section

variable {ED SD : Type} (policy : SchedPolicy ED SD) (refs : SD → List EntryRef) (pcpu : PcpuId)
  (vmidOf : VcpuId → Option VmId)

/-- An attachment succeeds for those who are registered and not attached, and puts the entry
where the core and the policy look for it. -/
structure AttachLaw (t : SchedTrace ED SD) (v : VcpuId) : Prop where
  succeeds_iff : Succeeds (schedVcpuAttach policy v pcpu t.s).2 ↔
    (findEntry t.s v).isSome = true ∧ v ∉ t.attached
  placed : Succeeds (schedVcpuAttach policy v pcpu t.s).2 →
    ∃ i, findEntry (schedVcpuAttach policy v pcpu t.s).1 v = some i ∧
      i ∈ (schedVcpuAttach policy v pcpu t.s).1.inflightEntries ∧
      i ∈ refs (schedVcpuAttach policy v pcpu t.s).1.sd

/-- In the run virtual processor `v` was detached while it was attached. -/
def WasDetached (v : VcpuId) (t : SchedTrace ED SD) (es : List SchedEvent) : Prop :=
  Happened (schedStep policy pcpu vmidOf) (fun u e => (∃ c, e = .detach c v) ∧ v ∈ u.attached) t es

/-- An entry is in a state other than the detached one exactly if it is attached or was once. -/
structure AttachInv (start : SchedTrace ED SD) (es : List SchedEvent) (t : SchedTrace ED SD) :
    Prop where
  core : CoreInv refs t.s
  used : ∀ v, InUse t.s v ↔ v ∈ t.attached ∨ WasDetached policy pcpu vmidOf v start es
  once : ∀ v ∈ t.attached, ¬ WasDetached policy pcpu vmidOf v start es

end

variable {ED SD : Type} {policy : SchedPolicy ED SD} {refs : SD → List EntryRef} {pcpu : PcpuId}
  {vmidOf : VcpuId → Option VmId} {start t t' : SchedTrace ED SD} {es : List SchedEvent}

theorem wasDetached_concat (hrun : run (schedStep policy pcpu vmidOf) start es = some t)
    (e : SchedEvent) (v : VcpuId) :
    WasDetached policy pcpu vmidOf v start (es ++ [e]) ↔
      WasDetached policy pcpu vmidOf v start es ∨ (∃ c, e = .detach c v) ∧ v ∈ t.attached :=
  happened_concat hrun e

theorem wasDetached_concat_of_ne (hrun : run (schedStep policy pcpu vmidOf) start es = some t)
    {e : SchedEvent} (he : ∀ c v, e ≠ .detach c v) (v : VcpuId) :
    WasDetached policy pcpu vmidOf v start (es ++ [e]) ↔
      WasDetached policy pcpu vmidOf v start es := by
  rw [wasDetached_concat hrun]
  exact or_iff_left fun ⟨⟨c, hc⟩, _⟩ => he c v hc

theorem inUse_congr {s s' : Scheduler ED SD} {v : VcpuId}
    (hfind : findEntry s' v = findEntry s v)
    (hstate : ∀ i, findEntry s v = some i →
      ((s'.entry i).state ≠ .detached ↔ (s.entry i).state ≠ .detached)) :
    InUse s' v ↔ InUse s v := by
  rw [InUse, hfind]
  exact exists_congr fun i => and_congr_right fun hi => hstate i hi

theorem inUse_register {s : Scheduler ED SD} (hfresh : ∀ i ∈ s.standbyEntries, i < s.nrEntries)
    (w v : VcpuId) : InUse (schedVcpuRegister policy w s) v ↔ InUse s v := by
  cases hold : findEntry s v with
  | some j =>
      have hlt := hfresh j (findEntry_some hold).1
      refine inUse_congr ?_ fun i hi => ?_
      · rw [findEntry_register policy w hfresh, hold, Option.some_or]
      · rw [← Option.some_injective _ (hold.symm.trans hi),
          schedVcpuRegister_entry_of_lt policy w s hlt]
  | none =>
      have hnot : ¬ InUse s v := fun ⟨i, hi, _⟩ => by simp [hold] at hi
      refine iff_of_false (fun ⟨i, hi, hstate⟩ => ?_) hnot
      rw [findEntry_register policy w hfresh, hold, Option.none_or] at hi
      split at hi
      · rw [← Option.some_injective _ hi, schedVcpuRegister_entry_self] at hstate
        exact hstate rfl
      · simp at hi

theorem inUse_attach {s s' : Scheduler ED SD} {i : EntryRef} {w : VcpuId}
    (hfind : findEntry s w = some i) (h : Attaches policy i s s') (v : VcpuId) :
    InUse s' v ↔ v = w ∨ InUse s v := by
  by_cases hv : v = w
  · refine iff_of_true ⟨i, by rw [h.findEntry, hv, hfind], ?_⟩ (.inl hv)
    rw [h.state, if_pos rfl]
    decide
  · rw [or_iff_right hv]
    refine inUse_congr (h.findEntry v) fun j hj => ?_
    have hji : j ≠ i := fun hji => by
      rw [← (findEntry_some hfind).2, ← hji, (findEntry_some hj).2] at hv
      exact hv rfl
    rw [h.state, if_neg hji]

theorem inUse_touches {active : List EntryRef} {s s' : Scheduler ED SD}
    (h : Scheduler.Touches active s s') (hactive : ∀ i ∈ active, (s.entry i).state ≠ .detached)
    (v : VcpuId) : InUse s' v ↔ InUse s v := by
  refine inUse_congr (h.findEntry v) fun i _ => ?_
  rcases h.state i with hsame | ⟨hi, hne⟩
  · rw [hsame]
  · exact iff_of_true hne (hactive i hi)

theorem attachInv_start (hpolicy : PolicySpec policy refs) (block : Scheduler ED SD) :
    AttachInv policy refs pcpu vmidOf (freshTrace policy pcpu block) []
      (freshTrace policy pcpu block) := by
  refine ⟨coreInv_freshTrace hpolicy pcpu block, fun v => ?_, fun v hv => ?_⟩
  · refine iff_of_false (fun ⟨i, hi, _⟩ => ?_) ?_
    · simp [freshTrace, schedInit, findEntry] at hi
    · simp [freshTrace, WasDetached, Happened]
  · simp [freshTrace] at hv

/-- An event after which the same processors are in use, attached, and detached before. -/
theorem AttachInv.of_same (h : AttachInv policy refs pcpu vmidOf start es t) {e : SchedEvent}
    (hcore : CoreInv refs t'.s) (huse : ∀ v, InUse t'.s v ↔ InUse t.s v)
    (hattached : t'.attached = t.attached)
    (hwas : ∀ v, WasDetached policy pcpu vmidOf v start (es ++ [e]) ↔
      WasDetached policy pcpu vmidOf v start es) :
    AttachInv policy refs pcpu vmidOf start (es ++ [e]) t' := by
  refine ⟨hcore, fun v => ?_, fun v hv => ?_⟩
  · rw [huse, hattached, hwas]
    exact h.used v
  · rw [hwas]
    exact h.once v (hattached ▸ hv)

/-- The entry was in the detached state, so its processor has never been attached. -/
theorem AttachInv.attach (h : AttachInv policy refs pcpu vmidOf start es t) {w : VcpuId}
    {i : EntryRef} {s' : Scheduler ED SD} (hfind : findEntry t.s w = some i)
    (hattach : Attaches policy i t.s s') (hcore : CoreInv refs s')
    (hwas : ∀ v, WasDetached policy pcpu vmidOf v start (es ++ [.attach w]) ↔
      WasDetached policy pcpu vmidOf v start es) :
    AttachInv policy refs pcpu vmidOf start (es ++ [.attach w]) ⟨s', insert w t.attached⟩ := by
  have hnew : ¬ (w ∈ t.attached ∨ WasDetached policy pcpu vmidOf w start es) := by
    rw [← h.used w]
    rintro ⟨j, hj, hstate⟩
    rw [← Option.some_injective _ (hfind.symm.trans hj)] at hstate
    exact hstate hattach.detached
  refine ⟨hcore, fun v => ?_, fun v hv => ?_⟩
  · rw [inUse_attach hfind hattach, hwas, Finset.mem_insert, or_assoc, h.used v]
  · rw [hwas]
    rcases Finset.mem_insert.mp hv with rfl | hv
    · exact fun hdet => hnew (.inr hdet)
    · exact h.once v hv

theorem AttachInv.detach (h : AttachInv policy refs pcpu vmidOf start es t) {c : Option VcpuId}
    {w : VcpuId} {s' : Scheduler ED SD} (huse : ∀ v, InUse s' v ↔ InUse t.s v)
    (hcore : CoreInv refs s')
    (hwas : ∀ v, WasDetached policy pcpu vmidOf v start (es ++ [.detach c w]) ↔
      WasDetached policy pcpu vmidOf v start es ∨
        (∃ c', SchedEvent.detach c w = .detach c' v) ∧ v ∈ t.attached) :
    AttachInv policy refs pcpu vmidOf start (es ++ [.detach c w]) ⟨s', t.attached.erase w⟩ := by
  refine ⟨hcore, fun v => ?_, fun v hv => ?_⟩
  · rw [huse, h.used v, hwas, Finset.mem_erase]
    by_cases hv : v = w
    · simp [hv, or_comm]
    · simp [hv, Ne.symm hv]
  · rw [Finset.mem_erase] at hv
    rw [hwas]
    rintro (hdet | ⟨⟨c', hc'⟩, -⟩)
    · exact h.once v hv.2 hdet
    · exact hv.1 (SchedEvent.detach.inj hc').2.symm

theorem AttachInv.step (hpolicy : PolicySpec policy refs) (hpcpu : Succeeds pcpu)
    (hrun : run (schedStep policy pcpu vmidOf) start es = some t)
    (h : AttachInv policy refs pcpu vmidOf start es t) {e : SchedEvent}
    (he : schedStep policy pcpu vmidOf t e = some t') :
    AttachInv policy refs pcpu vmidOf start (es ++ [e]) t' := by
  have hcore := h.core.step hpolicy hpcpu he
  cases e with
  | register w =>
      have hwas := wasDetached_concat_of_ne hrun (e := .register w) (fun c v => by simp)
      obtain rfl := Option.some_injective _ he
      exact h.of_same hcore (inUse_register h.core.standby w) rfl hwas
  | attach w =>
      have hwas := wasDetached_concat_of_ne hrun (e := .attach w) (fun c v => by simp)
      obtain rfl := Option.some_injective _ he
      rcases hpolicy.schedVcpuAttach_cases hpcpu w t.s with
        ⟨hfail, hs, -⟩ | ⟨hsucc, i, hfind, hattach⟩
      · rw [if_neg hfail] at hcore ⊢
        exact h.of_same hcore (fun v => by rw [hs]) rfl hwas
      · rw [if_pos hsucc] at hcore ⊢
        exact h.attach hfind hattach hcore hwas
  | detach c w =>
      obtain ⟨s', hs, rfl⟩ := Option.map_eq_some_iff.mp he
      obtain ⟨i, -, hentry, -, hstandby, -, -⟩ := hpolicy.schedVcpuDetach_eq_some hs
      have htouches := hpolicy.detach i t.s
      refine h.detach (fun v => ?_) hcore (wasDetached_concat hrun (.detach c w))
      refine inUse_congr (findEntry_congr hstandby (fun j _ => ?_) v) fun j _ => ?_
      · rw [hentry, htouches.vcpuid]
      · rw [hentry]
        rcases htouches.state j with hsame | ⟨hj, -⟩
        · rw [hsame]
        · exact absurd hj List.not_mem_nil
  | schedule now expiration =>
      have hwas := wasDetached_concat_of_ne hrun (e := .schedule now expiration)
        (fun c v => by simp)
      obtain ⟨r, hr, rfl⟩ := Option.map_eq_some_iff.mp he
      obtain ⟨mid, hmid, hsame⟩ := scheduleNext_eq_some hr
      have htouches := hpolicy.schedule now expiration t.s mid hmid
      refine h.of_same hcore (fun v => ?_) rfl hwas
      rw [inUse_congr (hsame.findEntry v) fun i _ => by rw [hsame.entry],
        inUse_touches htouches h.core.state]

theorem attachInv_run (hpolicy : PolicySpec policy refs) (hpcpu : Succeeds pcpu)
    (block : Scheduler ED SD)
    (hrun : run (schedStep policy pcpu vmidOf) (freshTrace policy pcpu block) es = some t) :
    AttachInv policy refs pcpu vmidOf (freshTrace policy pcpu block) es t :=
  run_induction (attachInv_start hpolicy block)
    (fun _ _ _ _ hu hinv he => hinv.step hpolicy hpcpu hu he) hrun

theorem attach_placed (hpolicy : PolicySpec policy refs) (hpcpu : Succeeds pcpu)
    (s : Scheduler ED SD) (v : VcpuId) (h : Succeeds (schedVcpuAttach policy v pcpu s).2) :
    ∃ i, findEntry (schedVcpuAttach policy v pcpu s).1 v = some i ∧
      i ∈ (schedVcpuAttach policy v pcpu s).1.inflightEntries ∧
      i ∈ refs (schedVcpuAttach policy v pcpu s).1.sd := by
  rcases hpolicy.schedVcpuAttach_cases hpcpu v s with ⟨hfail, -⟩ | ⟨-, i, hfind, hattach⟩
  · exact absurd h hfail
  · refine ⟨i, by rw [hattach.findEntry, hfind], ?_, ?_⟩
    · rw [hattach.inflight]
      exact List.mem_append_right _ (List.mem_singleton_self i)
    · rw [hattach.sd]
      exact (hpolicy.mem_attach i _ i).mpr (.inr rfl)

/-- An attachment succeeds exactly if the entry that is found is in the detached state. -/
theorem succeeds_attach_iff (hpolicy : PolicySpec policy refs) (hpcpu : Succeeds pcpu)
    (s : Scheduler ED SD) (v : VcpuId) :
    Succeeds (schedVcpuAttach policy v pcpu s).2 ↔
      (findEntry s v).isSome = true ∧ ¬ InUse s v := by
  rcases hpolicy.schedVcpuAttach_cases hpcpu v s with
    ⟨hfail, -, hstate⟩ | ⟨hsucc, i, hfind, hattach⟩
  · refine iff_of_false hfail fun ⟨hsome, huse⟩ => ?_
    obtain ⟨i, hi⟩ := Option.isSome_iff_exists.mp hsome
    exact huse ⟨i, hi, hstate i hi⟩
  · refine iff_of_true hsucc ⟨by rw [hfind]; rfl, fun ⟨j, hj, hstate⟩ => ?_⟩
    rw [← Option.some_injective _ (hfind.symm.trans hj)] at hstate
    exact hstate hattach.detached

/-- In any run, the law of attachment holds for a virtual processor exactly as long as it has not
been detached while it was attached. -/
theorem attach_law_iff (conf : SchedConf) (n : PolicyName) {pcpu : PcpuId} (hpcpu : pcpu < 254)
    (vmidOf : VcpuId → Option VmId) (block : Scheduler n.EntryData n.SchedData)
    {es : List SchedEvent} {t : SchedTrace n.EntryData n.SchedData}
    (hrun : run (schedStep (n.policy conf) pcpu vmidOf) (freshTrace (n.policy conf) pcpu block) es =
      some t) (v : VcpuId) :
    AttachLaw (n.policy conf) n.refs pcpu t v ↔
      ¬ WasDetached (n.policy conf) pcpu vmidOf v (freshTrace (n.policy conf) pcpu block) es := by
  have hsucc : Succeeds pcpu := succeeds_of_lt hpcpu
  have hinv := attachInv_run (n.spec conf) hsucc block hrun
  have hplaced := attach_placed (n.spec conf) hsucc t.s v
  have hiff := succeeds_attach_iff (n.spec conf) hsucc t.s v
  rw [hinv.used v] at hiff
  constructor
  · rintro ⟨hlaw, -⟩ hdet
    have hnot : v ∉ t.attached := fun hv => hinv.once v hv hdet
    obtain ⟨i, hi, -⟩ := (hinv.used v).mpr (.inr hdet)
    have hboth := hlaw.mpr ⟨by rw [hi]; rfl, hnot⟩
    exact (hiff.mp hboth).2 (.inr hdet)
  · intro hdet
    refine ⟨?_, hplaced⟩
    rw [hiff, or_iff_left hdet]

/-- One virtual processor, which is attached and scheduled. -/
theorem attach_law_iff_one : ∃ t, run (schedStep (PolicyName.rr.policy default) 0 fun _ => some 0)
      (freshTrace (PolicyName.rr.policy default) 0 default)
      [.register 0, .attach 0, .schedule 0 0] = some t ∧
    (AttachLaw (PolicyName.rr.policy default) PolicyName.rr.refs 0 t 0 ↔
      ¬ WasDetached (PolicyName.rr.policy default) 0 (fun _ => some 0) 0
        (freshTrace (PolicyName.rr.policy default) 0 default)
        [.register 0, .attach 0, .schedule 0 0]) :=
  ⟨_, rfl, attach_law_iff default .rr (by decide) _ _ rfl 0⟩

/-- A virtual processor that is attached, scheduled and detached can not be attached again. -/
theorem detached_not_attachable :
    ∃ t, run (schedStep (PolicyName.rr.policy default) 0 fun _ => some 0)
        (freshTrace (PolicyName.rr.policy default) 0 default)
        [.register 0, .attach 0, .schedule 0 0, .detach (some 0) 0] = some t ∧
      (findEntry t.s 0).isSome = true ∧ 0 ∉ t.attached ∧
      (schedVcpuAttach (PolicyName.rr.policy default) 0 0 t.s).2 = 254 ∧
      ¬ AttachLaw (PolicyName.rr.policy default) PolicyName.rr.refs 0 t 0 := by
  refine ⟨_, rfl, rfl, by decide, rfl, fun h => ?_⟩
  exact (h.succeeds_iff.mpr ⟨rfl, by decide⟩).2 rfl

end KHypervisor
