import KHypervisor.Lib.Links
import KHypervisor.Lib.Turns
import KHypervisor.Sched.RealTimeRuns
import KHypervisor.Sched.RunQueue

/-!
# The rotation of the round-robin policy

The entries in the queue and behind them the current one are in the order of their next turns. An
attachment puts an entry between the queue and the current one, and a call moves the first to the
end. So nobody in the queue is ever overtaken, and without attachments the turns are a cycle
(`rr_rotation`). The pointers of the intrusive list, which the operations of `list.h` change, hold
that queue all the time (`rrLinked_run`).
-/

namespace KHypervisor

open Scheduler Run

def SchedDataRr.turns (sd : SchedDataRr) : List EntryRef := sd.runqueue ++ sd.current.toList

def nextTurn (s : SchedulerRr) : VcpuId :=
  s.sd.turns.head?.elim vcpuidInvalid fun x => (s.entry x).vcpuid

/-- From `s` to `s'` a call has rotated the entries. -/
structure RrCall (s s' : SchedulerRr) : Prop where
  vcpuid : ∀ i, (s'.entry i).vcpuid = (s.entry i).vcpuid
  standby : s'.standbyEntries = s.standbyEntries
  nrEntries : s'.nrEntries = s.nrEntries
  sd : s'.sd = s.sd.rotate
  state : ∀ i, (s'.entry i).state = if s'.sd.current = some i then .running
    else if s.sd.current = some i then .waiting else (s.entry i).state

/-- From `s` to `s'` entry `k` has been attached. -/
structure RrAttach (k : EntryRef) (s s' : SchedulerRr) : Prop where
  detached : (s.entry k).state = .detached
  vcpuid : ∀ j, (s'.entry j).vcpuid = (s.entry j).vcpuid
  state : ∀ j, (s'.entry j).state = if j = k then .waiting else (s.entry j).state
  standby : s'.standbyEntries = s.standbyEntries
  nrEntries : s'.nrEntries = s.nrEntries
  sd : s'.sd = ⟨s.sd.current, s.sd.runqueue ++ [k]⟩

/-- From `s` to `s'` entry `k` has been detached. -/
structure RrDetach (k : EntryRef) (s s' : SchedulerRr) : Prop where
  entry : s'.entry = s.entry
  standby : s'.standbyEntries = s.standbyEntries
  nrEntries : s'.nrEntries = s.nrEntries
  sd : s'.sd = ⟨none, s.sd.runqueue.erase k⟩

/-- The steps of a scheduler with the round-robin policy. -/
inductive RrStep (conf : SchedConf) (tr : SchedTrace EntryDataRr SchedDataRr) :
    SchedEvent → SchedTrace EntryDataRr SchedDataRr → Prop
  | register (v : VcpuId) :
      RrStep conf tr (.register v) { tr with s := schedVcpuRegister (schedRr conf) v tr.s }
  | refused (v : VcpuId) (h : ∀ k, findEntry tr.s v = some k → (tr.s.entry k).state ≠ .detached) :
      RrStep conf tr (.attach v) tr
  | attach (v : VcpuId) (k : EntryRef) (s' : SchedulerRr)
      (hfind : findEntry tr.s v = some k) (h : RrAttach k tr.s s') :
      RrStep conf tr (.attach v) ⟨s', insert v tr.attached⟩
  | detach (c : Option VcpuId) (v : VcpuId) (k : EntryRef) (s' : SchedulerRr)
      (hfind : findEntry tr.s v = some k) (h : RrDetach k tr.s s') :
      RrStep conf tr (.detach c v) ⟨s', tr.attached.erase v⟩
  | schedule (now expiration : U64) (s' : SchedulerRr) (h : RrCall tr.s s') :
      RrStep conf tr (.schedule now expiration) { tr with s := s' }

variable {conf : SchedConf} {pcpu : PcpuId} {vmidOf : VcpuId → Option VmId}
  {tr tr' : SchedTrace EntryDataRr SchedDataRr} {e : SchedEvent}

/-! ## Steps -/

theorem SchedDataRr.rotate_of_turns {sd : SchedDataRr} {x : EntryRef} {rest : List EntryRef}
    (h : sd.turns = x :: rest) : sd.rotate = ⟨some x, rest⟩ := by
  rw [turns] at h
  rw [rotate, h]

theorem SchedDataRr.rotate_eq (sd : SchedDataRr) :
    sd.rotate = ⟨sd.turns.head?, sd.turns.tail⟩ := by
  cases hturns : sd.turns with
  | nil =>
      rw [turns] at hturns
      rw [rotate, hturns]
      rfl
  | cons x rest => exact rotate_of_turns hturns

theorem SchedDataRr.turns_rotate (sd : SchedDataRr) : sd.rotate.turns = sd.turns.rotate 1 := by
  cases hturns : sd.turns with
  | nil =>
      rw [turns] at hturns
      rw [rotate, hturns]
      rfl
  | cons x rest =>
      rw [rotate_of_turns hturns, List.rotate_cons_succ, List.rotate_zero]
      rfl

theorem putBack_state (s : SchedulerRr) (i : EntryRef) :
    ((putBack s).entry i).state =
      if s.sd.current = some i then .waiting else (s.entry i).state := by
  rw [putBack]
  cases s.sd.current with
  | none => rfl
  | some cur =>
      dsimp only
      rw [setSd_entry, setState_state]
      exact if_congr ⟨fun h => by rw [h], fun h => (Option.some.inj h).symm⟩ rfl rfl

theorem schedRrDoSchedule_call (now expiration : U64) (s : SchedulerRr) :
    ∃ s' expiration', schedRrDoSchedule now expiration s = some (s', nextTurn s, expiration') ∧
      RrCall s s' := by
  obtain ⟨s', v, expiration', hcall, hsd, htouches⟩ := schedRrDoSchedule_some now expiration s
  have hback := putBack_sd s
  have hstate := putBack_state s
  have hresult := hcall
  rw [schedRrDoSchedule] at hresult
  rw [nextTurn]
  cases hturns : s.sd.turns with
  | nil =>
      have hqueue : s.sd.runqueue ++ s.sd.current.toList = [] := hturns
      simp only [hback, hqueue, Option.some.injEq, Prod.mk.injEq] at hresult
      refine ⟨s', expiration', by rw [hcall, ← hresult.2.1]; rfl, htouches.vcpuid, htouches.standby,
        htouches.nrEntries, hsd, fun i => ?_⟩
      have hnone : s'.sd.current ≠ some i := by
        rw [← hresult.1, hback]
        exact (Option.some_ne_none i).symm
      rw [if_neg hnone, ← hresult.1, hstate]
  | cons next rest =>
      have hqueue : s.sd.runqueue ++ s.sd.current.toList = next :: rest := hturns
      simp only [hback, hqueue, Option.some.injEq, Prod.mk.injEq] at hresult
      have hvcpuid : v = (s.entry next).vcpuid := by
        rw [← hresult.2.1, (putBack_touches s).vcpuid]
      refine ⟨s', expiration', by rw [hcall, hvcpuid]; rfl, htouches.vcpuid, htouches.standby,
        htouches.nrEntries, hsd, fun i => ?_⟩
      rw [hsd, SchedDataRr.rotate_of_turns hturns, ← hresult.1, setSd_entry, setState_state, hstate]
      exact if_congr ⟨fun h => by rw [h], fun h => (Option.some.inj h).symm⟩ rfl rfl

theorem RrCall.congr {s s' s'' : SchedulerRr} (h : RrCall s s')
    (hsame : SameEntries s' s'') : RrCall s s'' where
  vcpuid i := by rw [hsame.entry, h.vcpuid]
  standby := hsame.standby.trans h.standby
  nrEntries := hsame.nrEntries.trans h.nrEntries
  sd := hsame.sd.trans h.sd
  state i := by rw [hsame.entry, hsame.sd, h.state]

theorem Attaches.rrAttach {k : EntryRef} {s s' : SchedulerRr}
    (h : Attaches (schedRr conf) k s s') : RrAttach k s s' :=
  ⟨h.detached, h.vcpuid, h.state, h.standby, h.nrEntries, h.sd⟩

theorem returned_rr (now expiration : U64) :
    returned (schedRr conf) tr (.schedule now expiration) = some (nextTurn tr.s) := by
  obtain ⟨s', expiration', hcall, -⟩ := schedRrDoSchedule_call now expiration tr.s
  have hsome :
      (schedRr conf).doSchedule now expiration tr.s = some (s', nextTurn tr.s, expiration') :=
    hcall
  rw [returned, hsome, Option.map_some]

theorem rrStep_of_schedStep (hpcpu : Succeeds pcpu)
    (h : schedStep (schedRr conf) pcpu vmidOf tr e = some tr') : RrStep conf tr e tr' := by
  cases e with
  | register v =>
      obtain rfl := Option.some.inj h
      exact .register v
  | attach v =>
      obtain rfl := Option.some.inj h
      rcases (schedRr_spec conf).schedVcpuAttach_cases hpcpu v tr.s with
        ⟨hfail, hs, hstate⟩ | ⟨hsucc, k, hfind, hattach⟩
      · rw [hs, if_neg hfail]
        exact .refused v hstate
      · rw [if_pos hsucc]
        exact .attach v k _ hfind hattach.rrAttach
  | detach c v =>
      obtain ⟨s', hs, rfl⟩ := Option.map_eq_some_iff.mp h
      obtain ⟨k, hfind, hentry, hsd, hstandby, -, hnr⟩ :=
        (schedRr_spec conf).schedVcpuDetach_eq_some hs
      exact .detach c v k s' hfind ⟨hentry, hstandby, hnr, hsd⟩
  | schedule now expiration =>
      obtain ⟨r, hr, rfl⟩ := Option.map_eq_some_iff.mp h
      obtain ⟨mid, hmid, hsame⟩ := scheduleNext_eq_some hr
      obtain ⟨s', expiration', hcall, hrr⟩ := schedRrDoSchedule_call now expiration tr.s
      obtain rfl := Option.some.inj (hcall.symm.trans hmid)
      exact .schedule now expiration r.1 (hrr.congr hsame)

/-! ## The turns -/

theorem SchedDataRr.turns_perm (sd : SchedDataRr) : sd.turns.Perm sd.refs :=
  List.perm_append_comm

theorem RunqueueInv.step_keep (hpcpu : Succeeds pcpu) (hkeep : ¬ IsDetach e)
    (h : RunqueueInv tr) (hstep : schedStep (schedRr conf) pcpu vmidOf tr e = some tr') :
    RunqueueInv tr' := by
  refine h.step hpcpu hstep ?_
  rintro ⟨c, v, rfl, -⟩
  exact hkeep trivial

/-- An entry that is attached gets its turn before the current one gets it again. -/
theorem RrAttach.turns {k : EntryRef} {s s' : SchedulerRr} (h : RrAttach k s s') :
    s'.sd.turns = s.sd.runqueue ++ k :: s.sd.current.toList := by
  rw [h.sd, SchedDataRr.turns, List.append_assoc]
  rfl

theorem RrCall.turns {s s' : SchedulerRr} (h : RrCall s s') :
    s'.sd.turns = s.sd.turns.rotate 1 := by
  rw [h.sd, SchedDataRr.turns_rotate]

def vcpuTurns (s : SchedulerRr) : List VcpuId := s.sd.turns.map fun i => (s.entry i).vcpuid

theorem vcpuTurns_eq (s : SchedulerRr) :
    vcpuTurns s = queuedVcpus s ++ (runningVcpu s).toList := by
  rw [vcpuTurns, queuedVcpus, runningVcpu, SchedDataRr.turns, List.map_append]
  cases s.sd.current <;> rfl

theorem RunqueueInv.nodup_vcpuTurns (h : RunqueueInv tr) : (vcpuTurns tr.s).Nodup := by
  rw [vcpuTurns_eq]
  exact List.perm_append_comm.nodup_iff.mpr h.nodup_places

theorem RunqueueInv.mem_vcpuTurns (h : RunqueueInv tr) {v : VcpuId} :
    v ∈ vcpuTurns tr.s ↔ v ∈ tr.attached := by
  rw [vcpuTurns_eq, List.mem_append, Option.mem_toList, h.mem_attached, or_comm]

theorem head?_vcpuTurns {s : SchedulerRr} (hne : vcpuTurns s ≠ []) :
    (vcpuTurns s).head? = some (nextTurn s) := by
  rw [vcpuTurns] at hne ⊢
  rw [nextTurn]
  cases hturns : s.sd.turns with
  | nil => exact absurd (by rw [hturns]; rfl) hne
  | cons x rest => rfl

theorem head?_queuedVcpus {s : SchedulerRr} (hne : queuedVcpus s ≠ []) :
    (queuedVcpus s).head? = some (nextTurn s) := by
  have hturns : vcpuTurns s ≠ [] := by
    rw [vcpuTurns_eq]
    exact List.append_ne_nil_of_left_ne_nil hne _
  rw [← head?_vcpuTurns hturns, vcpuTurns_eq, List.head?_append_of_ne_nil _ hne]

theorem eq_nextTurn_of_returned {v : VcpuId} (h : v ∈ returned (schedRr conf) tr e) :
    v = nextTurn tr.s := by
  cases e with
  | schedule now expiration =>
      rw [returned_rr] at h
      exact (Option.some.inj h).symm
  | register w => cases h
  | attach w => cases h
  | detach c w => cases h

theorem RunqueueInv.register_vcpuTurns (h : RunqueueInv tr) (v : VcpuId) :
    vcpuTurns (schedVcpuRegister (schedRr conf) v tr.s) = vcpuTurns tr.s := by
  refine List.map_congr_left fun i hi => ?_
  rw [schedVcpuRegister_entry_of_lt _ _ _
    (h.core.lt_nrEntries (tr.s.sd.turns_perm.mem_iff.mp hi))]

theorem RunqueueInv.register_queuedVcpus (h : RunqueueInv tr) (v : VcpuId) :
    queuedVcpus (schedVcpuRegister (schedRr conf) v tr.s) = queuedVcpus tr.s := by
  refine List.map_congr_left fun i hi => ?_
  rw [schedVcpuRegister_entry_of_lt _ _ _ (h.core.lt_nrEntries (List.mem_append_right _ hi))]

theorem RrCall.rotate_vcpuTurns {s s' : SchedulerRr} (h : RrCall s s') :
    vcpuTurns s' = (vcpuTurns s).rotate 1 := by
  rw [vcpuTurns, vcpuTurns, h.turns, List.map_rotate]
  simp only [h.vcpuid]

/-- After a call all but the first one that waited are still in front. -/
theorem RrCall.drop_queuedVcpus {s s' : SchedulerRr} (h : RrCall s s') :
    (queuedVcpus s).drop 1 <+: queuedVcpus s' := by
  have hqueue : queuedVcpus s' = (vcpuTurns s).tail := by
    rw [queuedVcpus, h.sd, SchedDataRr.rotate_eq, vcpuTurns, ← List.map_tail]
    simp only [h.vcpuid]
  rw [hqueue, vcpuTurns_eq]
  cases queuedVcpus s with
  | nil => exact List.nil_prefix
  | cons v rest => exact List.prefix_append rest _

theorem RunqueueInv.queuedVcpus_step (hpcpu : Succeeds pcpu) (hkeep : ¬ IsDetach e)
    (h : RunqueueInv tr) (hstep : schedStep (schedRr conf) pcpu vmidOf tr e = some tr') :
    (queuedVcpus tr.s).drop (returned (schedRr conf) tr e).toList.length <+: queuedVcpus tr'.s := by
  cases rrStep_of_schedStep hpcpu hstep with
  | register v =>
      rw [h.register_queuedVcpus]
      exact List.prefix_rfl
  | refused v => exact List.prefix_rfl
  | attach v k s' hfind hattach =>
      refine ⟨[(tr.s.entry k).vcpuid], ?_⟩
      rw [queuedVcpus, queuedVcpus, hattach.sd, List.map_append]
      simp only [hattach.vcpuid]
      rfl
  | detach c v => exact absurd trivial hkeep
  | schedule now expiration s' hcall =>
      rw [returned_rr]
      exact hcall.drop_queuedVcpus

theorem RunqueueInv.vcpuTurns_step (hpcpu : Succeeds pcpu) (hkeep : ¬ IsDetach e)
    (hnone : ∀ v, e ≠ .attach v) (h : RunqueueInv tr)
    (hstep : schedStep (schedRr conf) pcpu vmidOf tr e = some tr') :
    vcpuTurns tr'.s = (vcpuTurns tr.s).rotate (returned (schedRr conf) tr e).toList.length := by
  cases rrStep_of_schedStep hpcpu hstep with
  | register v =>
      rw [h.register_vcpuTurns]
      exact (List.rotate_zero _).symm
  | refused v => exact absurd rfl (hnone v)
  | attach v => exact absurd rfl (hnone v)
  | detach c v => exact absurd trivial hkeep
  | schedule now expiration s' hcall =>
      rw [returned_rr]
      exact hcall.rotate_vcpuTurns

/-- In every run of attachments and calls, whoever is in the queue with `k` others ahead is returned
by the call number `k` from then on and by none before it, whatever is attached in between. Without
attachments there is a cycle of all who are attached, each once, and as many calls in a row as it is
long return it, begun at the place that the calls have come to. -/
theorem rr_rotation (conf : SchedConf) {pcpu : PcpuId} (hpcpu : pcpu < 254)
    (vmidOf : VcpuId → Option VmId) (block : SchedulerRr) {es : List SchedEvent}
    (hkeep : ∀ e ∈ es, ¬ IsDetach e)
    (hrun : run (schedStep (schedRr conf) pcpu vmidOf) (freshTrace (schedRr conf) pcpu block) es =
      some tr) {es' : List SchedEvent} (hkeep' : ∀ e ∈ es', ¬ IsDetach e) :
    let turns := outputs (schedStep (schedRr conf) pcpu vmidOf) (returned (schedRr conf)) tr es'
    (∀ k v, (queuedVcpus tr.s)[k]? = some v →
      (∀ m < k, turns[m]? ≠ some v) ∧ (k < turns.length → turns[k]? = some v)) ∧
    ((∀ e ∈ es', ∀ v, e ≠ .attach v) →
      ∃ cycle : List VcpuId, cycle.Nodup ∧ (∀ v, v ∈ cycle ↔ v ∈ tr.attached) ∧
        ∀ m, m + cycle.length ≤ turns.length →
          (turns.drop m).take cycle.length = cycle.rotate m) := by
  have hsucc : Succeeds pcpu := succeeds_of_lt hpcpu
  have hinv := run_invariant hrun (runqueueInv_start conf pcpu block)
    fun u e he v hu hstep => hu.step_keep hsucc (hkeep e he) hstep
  refine ⟨fun k v hv => ?_, fun hnone => ?_⟩
  · refine outputs_of_queue (I := RunqueueInv) (q := fun t => queuedVcpus t.s) hinv
      (fun t ht => (List.nodup_append.mp ht.nodup_places).2.1)
      (fun t e _ _ hne w hw => ?_) (fun t e he u ht hstep => ⟨?_, ?_⟩) hv
    · rw [eq_nextTurn_of_returned hw]
      exact head?_queuedVcpus hne
    · exact ht.step_keep hsucc (hkeep' e he) hstep
    · exact ht.queuedVcpus_step hsucc (hkeep' e he) hstep
  · refine ⟨vcpuTurns tr.s, hinv.nodup_vcpuTurns, fun v => hinv.mem_vcpuTurns, fun m hm => ?_⟩
    by_cases hne : vcpuTurns tr.s = []
    · rw [hne]
      rfl
    · refine Lists.window_eq_rotate (fun i hi => outputs_of_cycle (I := RunqueueInv)
        (q := fun t => vcpuTurns t.s) hinv hne (fun t e _ _ hne w hw => ?_)
        (fun t e he u ht hstep => ⟨?_, ?_⟩) hi) hm
      · rw [eq_nextTurn_of_returned hw]
        exact head?_vcpuTurns hne
      · exact ht.step_keep hsucc (hkeep' e he) hstep
      · exact ht.vcpuTurns_step hsucc (hkeep' e he) (hnone e he) hstep

def threeAttached : List SchedEvent :=
  [.register 0, .register 1, .register 2, .register 3, .attach 0, .attach 1, .attach 2,
    .schedule 0 0]

/-- Another one is attached later. -/
theorem rr_rotation_three :
    ∃ t, run (schedStep (schedRr default) 0 fun _ => some 0)
        (freshTrace (schedRr default) 0 default) threeAttached = some t ∧
      let turns := outputs (schedStep (schedRr default) 0 fun _ => some 0)
        (returned (schedRr default)) t [.schedule 0 0, .attach 3, .schedule 0 0, .schedule 0 0]
      ∀ k v, (queuedVcpus t.s)[k]? = some v →
        (∀ m < k, turns[m]? ≠ some v) ∧ (k < turns.length → turns[k]? = some v) :=
  ⟨_, rfl, (rr_rotation default (by decide) (fun _ => some 0) default
    (by decide : ∀ e ∈ threeAttached, ¬ IsDetach e) rfl (by decide)).1⟩

/-! ## The pointers -/

/-- The pointers of `struct sched_data_rr` and of the `head`s of the entries. -/
structure RrPointers where
  links : Links Unit EntryRef
  current : Option EntryRef

/-- `sched_rr_init`. -/
def RrPointers.init : RrPointers := ⟨Links.empty, none⟩

/-- `sched_rr_vcpu_register`, for the entry that was allocated. -/
def RrPointers.register (i : EntryRef) (P : RrPointers) : RrPointers :=
  { P with links := P.links.inithead (.item i) }

/-- `sched_rr_vcpu_attach`. -/
def RrPointers.attach (i : EntryRef) (P : RrPointers) : Option RrPointers :=
  (P.links.addtail i ()).map fun links => { P with links := links }

/-- `sched_rr_vcpu_detach`. -/
def RrPointers.detach (i : EntryRef) (P : RrPointers) : Option RrPointers :=
  (P.links.delinit i).map fun links => ⟨links, none⟩

/-- The move of the entry behind the head from the run queue to `current`. The head alone, which
can only be met when nobody was current, is the empty queue. -/
def RrPointers.take (links : Links Unit EntryRef) : Option RrPointers :=
  (links.next (.head ())).bind fun
    | .head () => some ⟨links, none⟩
    | .item i => (links.delinit i).map fun links => ⟨links, some i⟩

/-- The lists in `sched_rr_do_schedule`. -/
def RrPointers.doSchedule (P : RrPointers) : Option RrPointers :=
  match P.current with
  | none => take P.links
  | some cur => (P.links.addtail cur ()).bind take

def RrPointers.step (s : SchedulerRr) (P : RrPointers) : SchedEvent → Option RrPointers
  | .register _ => some (P.register s.nrEntries)
  | .attach v =>
      (findEntry s v).elim (some P) fun i =>
        if (s.entry i).state ≠ .detached then some P else P.attach i
  | .detach _ v => (findEntry s v).bind fun i => P.detach i
  | .schedule .. => P.doSchedule

/-- The pointers hold the queue, and the entries that are not in it are linked to themselves. -/
structure RrPointers.Hold (P : RrPointers) (s : SchedulerRr) : Prop where
  lists : P.links.Lists fun _ => s.sd.runqueue
  current : P.current = s.sd.current
  nodup : s.sd.turns.Nodup
  alone : ∀ j < s.nrEntries, j ∉ s.sd.runqueue → P.links.Alone j

/-- The entry behind the head is the first of the queue, and it is taken out. -/
theorem take_of_lists {links : Links Unit EntryRef} {q : List EntryRef}
    (h : links.Lists fun _ => q) :
    ∃ P, RrPointers.take links = some P ∧ P.current = q.head? ∧
      P.links.Lists (fun _ => q.tail) ∧ (∀ c ∈ q.head?, P.links.Alone c) ∧
      ∀ j, links.Alone j → P.links.Alone j := by
  obtain ⟨next, hnext, hcases⟩ := (h.isList ()).path.first
  rw [RrPointers.take, hnext.1, Option.bind_some]
  rcases hcases with ⟨rfl, rfl⟩ | ⟨i, m, rfl, rfl⟩
  · exact ⟨_, rfl, rfl, h, fun c hc => absurd hc (Option.not_mem_none c), fun _ hj => hj⟩
  · obtain ⟨links', hdelinit, hlists, halone, hkept⟩ := h.delinit (Or.inl ⟨(), List.mem_cons_self⟩)
    dsimp only
    rw [hdelinit, Option.map_some]
    refine ⟨_, rfl, rfl, ?_, fun c hc => ?_, hkept⟩
    · simpa using hlists
    · rw [← Option.mem_some.mp hc]
      exact halone

theorem RrPointers.Hold.putBack {P : RrPointers} {s : SchedulerRr} (h : P.Hold s)
    (hlt : ∀ c ∈ s.sd.current, c < s.nrEntries) :
    ∃ links, P.doSchedule = take links ∧ links.Lists (fun _ => s.sd.turns) ∧
      ∀ j < s.nrEntries, j ∉ s.sd.turns → links.Alone j := by
  have hnodup := h.nodup
  rw [SchedDataRr.turns] at hnodup ⊢
  rw [RrPointers.doSchedule, h.current]
  cases hcurrent : s.sd.current with
  | none =>
      rw [Option.toList_none, List.append_nil]
      exact ⟨P.links, rfl, h.lists, h.alone⟩
  | some cur =>
      rw [hcurrent, Option.toList_some] at hnodup
      have hnot : cur ∉ s.sd.runqueue := fun hmem =>
        (List.nodup_append.mp hnodup).2.2 cur hmem cur (List.mem_singleton_self cur) rfl
      obtain ⟨links, haddtail, hlists, halone⟩ := h.lists.addtail
        (h.alone cur (hlt cur hcurrent) hnot) ()
      dsimp only
      rw [haddtail]
      rw [Function.update_eq_const_of_subsingleton] at hlists
      refine ⟨links, rfl, hlists, fun j hj hjnot => ?_⟩
      rw [Option.toList_some, List.mem_append, List.mem_singleton, not_or] at hjnot
      exact halone j hjnot.2 (h.alone j hj hjnot.1)

theorem RrPointers.Hold.doSchedule {P : RrPointers} {s s' : SchedulerRr} (h : P.Hold s)
    (hlt : ∀ c ∈ s.sd.current, c < s.nrEntries) (hcall : RrCall s s') :
    ∃ P', P.doSchedule = some P' ∧ P'.Hold s' := by
  obtain ⟨links, hback, hlists, halone⟩ := h.putBack hlt
  obtain ⟨P', htake, hcurrent, hlists', hfirst, hkept⟩ := take_of_lists hlists
  have hsd : s'.sd = ⟨s.sd.turns.head?, s.sd.turns.tail⟩ := by
    rw [hcall.sd, SchedDataRr.rotate_eq]
  refine ⟨P', hback.trans htake, ?_, ?_, ?_, fun j hj hnot => ?_⟩
  · rw [hsd]
    exact hlists'
  · rw [hsd]
    exact hcurrent
  · rw [hcall.turns]
    exact List.nodup_rotate.mpr h.nodup
  · rw [hcall.nrEntries] at hj
    rw [hsd] at hnot
    by_cases hmem : j ∈ s.sd.turns
    · -- of the entries that get turns, only the first is not in the queue now
      cases hturns : s.sd.turns with
      | nil => exact absurd (hturns ▸ hmem) List.not_mem_nil
      | cons x rest =>
          rw [hturns] at hmem hnot hfirst
          rcases List.mem_cons.mp hmem with rfl | hrest
          · exact hfirst j rfl
          · exact absurd hrest hnot
    · exact hkept j (halone j hj hmem)

theorem RrPointers.Hold.register {P : RrPointers} {s : SchedulerRr} (h : P.Hold s)
    (hlt : ∀ j ∈ s.sd.runqueue, j < s.nrEntries) (v : VcpuId) :
    (P.register s.nrEntries).Hold (schedVcpuRegister (schedRr conf) v s) := by
  have hnew : s.nrEntries ∉ s.sd.runqueue := fun hmem => Nat.lt_irrefl _ (hlt _ hmem)
  obtain ⟨hlists, hself, hkept⟩ := h.lists.inithead fun _ => hnew
  refine ⟨hlists, h.current, h.nodup, fun j hj hnot => ?_⟩
  rcases Nat.lt_succ_iff_lt_or_eq.mp hj with hold | rfl
  · exact hkept j (h.alone j hold hnot)
  · exact hself

theorem RrPointers.Hold.attach {P : RrPointers} {s s' : SchedulerRr} (h : P.Hold s)
    {k : EntryRef} (hlt : k < s.nrEntries) (hk : k ∉ s.sd.turns) (hattach : RrAttach k s s') :
    ∃ P', P.attach k = some P' ∧ P'.Hold s' := by
  have hqueue : k ∉ s.sd.runqueue := fun hmem => hk (List.mem_append_left _ hmem)
  obtain ⟨links, haddtail, hlists, halone⟩ := h.lists.addtail (h.alone k hlt hqueue) ()
  rw [Function.update_eq_const_of_subsingleton] at hlists
  refine ⟨{ P with links := links }, ?_, ?_, ?_, ?_, fun j hj hnot => ?_⟩
  · rw [RrPointers.attach, haddtail, Option.map_some]
  · rw [hattach.sd]
    exact hlists
  · rw [hattach.sd, h.current]
  · rw [hattach.turns]
    exact List.perm_middle.nodup_iff.mpr (List.nodup_cons.mpr ⟨hk, h.nodup⟩)
  · rw [hattach.nrEntries] at hj
    rw [hattach.sd, List.mem_append, List.mem_singleton, not_or] at hnot
    exact halone j hnot.2 (h.alone j hj hnot.1)

/-- An entry in the queue is taken out of it, and one that is not is left alone. -/
theorem RrPointers.Hold.detach {P : RrPointers} {s s' : SchedulerRr} (h : P.Hold s)
    {k : EntryRef} (hlt : k < s.nrEntries) (hdetach : RrDetach k s s') :
    ∃ P', P.detach k = some P' ∧ P'.Hold s' := by
  have hk : (∃ _ : Unit, k ∈ s.sd.runqueue) ∨ P.links.Alone k := by
    by_cases hmem : k ∈ s.sd.runqueue
    · exact Or.inl ⟨(), hmem⟩
    · exact Or.inr (h.alone k hlt hmem)
  obtain ⟨links, hdelinit, hlists, hself, hkept⟩ := h.lists.delinit hk
  refine ⟨⟨links, none⟩, ?_, ?_, ?_, ?_, fun j hj hnot => ?_⟩
  · rw [RrPointers.detach, hdelinit, Option.map_some]
  · rw [hdetach.sd]
    exact hlists
  · rw [hdetach.sd]
  · rw [hdetach.sd, SchedDataRr.turns, Option.toList_none, List.append_nil]
    exact (List.nodup_append.mp h.nodup).1.erase k
  · rw [hdetach.nrEntries] at hj
    rw [hdetach.sd] at hnot
    by_cases hjk : j = k
    · rw [hjk]
      exact hself
    · exact hkept j (h.alone j hj fun hmem => hnot ((List.mem_erase_of_ne hjk).mpr hmem))

theorem RrPointers.Hold.step (hpcpu : Succeeds pcpu) {P : RrPointers} (h : P.Hold tr.s)
    (hcore : CoreInv SchedDataRr.refs tr.s)
    (hstep : schedStep (schedRr conf) pcpu vmidOf tr e = some tr') :
    ∃ P', P.step tr.s e = some P' ∧ P'.Hold tr'.s := by
  have hlt : ∀ j ∈ tr.s.sd.turns, j < tr.s.nrEntries := fun j hj =>
    hcore.lt_nrEntries (tr.s.sd.turns_perm.mem_iff.mp hj)
  cases rrStep_of_schedStep hpcpu hstep with
  | register v =>
      exact ⟨_, rfl, h.register (fun j hj => hlt j (List.mem_append_left _ hj)) v⟩
  | refused v hstate =>
      refine ⟨P, ?_, h⟩
      rw [RrPointers.step]
      cases hfind : findEntry tr.s v with
      | none => rfl
      | some k => exact if_pos (hstate k hfind)
  | attach v k s' hfind hattach =>
      have hk : k ∉ tr.s.sd.turns := fun hmem =>
        hcore.state k (tr.s.sd.turns_perm.mem_iff.mp hmem) hattach.detached
      obtain ⟨P', hP', hhold⟩ := h.attach (hcore.standby k (findEntry_some hfind).1) hk hattach
      refine ⟨P', ?_, hhold⟩
      rw [RrPointers.step, hfind, Option.elim_some, if_neg (not_not.mpr hattach.detached), hP']
  | detach c v k s' hfind hdetach =>
      obtain ⟨P', hP', hhold⟩ := h.detach (hcore.standby k (findEntry_some hfind).1) hdetach
      refine ⟨P', ?_, hhold⟩
      rw [RrPointers.step, hfind, Option.bind_some, hP']
  | schedule now expiration s' hcall =>
      exact h.doSchedule (fun c hc => hlt c (List.mem_append_right _ (Option.mem_toList.mpr hc)))
        hcall

def rrLinkedStep (conf : SchedConf) (pcpu : PcpuId) (vmidOf : VcpuId → Option VmId)
    (u : SchedTrace EntryDataRr SchedDataRr × RrPointers) (e : SchedEvent) :
    Option (SchedTrace EntryDataRr SchedDataRr × RrPointers) :=
  (schedStep (schedRr conf) pcpu vmidOf u.1 e).bind fun t =>
    (u.2.step u.1.s e).map fun P => (t, P)

/-- In every run of any operations the pointers of the list hold the queue. -/
theorem rrLinked_run (conf : SchedConf) {pcpu : PcpuId} (hpcpu : pcpu < 254)
    (vmidOf : VcpuId → Option VmId) (block : SchedulerRr) {es : List SchedEvent}
    (hrun : run (schedStep (schedRr conf) pcpu vmidOf) (freshTrace (schedRr conf) pcpu block) es =
      some tr) :
    ∃ P, run (rrLinkedStep conf pcpu vmidOf) (freshTrace (schedRr conf) pcpu block, .init) es =
      some (tr, P) ∧ P.Hold tr.s := by
  have hsucc : Succeeds pcpu := succeeds_of_lt hpcpu
  refine (run_induction (I := fun es u => CoreInv SchedDataRr.refs u.s ∧
    ∃ P, run (rrLinkedStep conf pcpu vmidOf) (freshTrace (schedRr conf) pcpu block, .init) es =
      some (u, P) ∧ P.Hold u.s) ?_ ?_ hrun).2
  · refine ⟨coreInv_freshTrace (schedRr_spec conf) pcpu block, .init, rfl, Links.lists_empty, rfl,
      List.nodup_nil, fun j hj => absurd hj (Nat.not_lt_zero j)⟩
  · rintro es e u v hu ⟨hcore, P, hP, hhold⟩ hstep
    obtain ⟨P', hfollow, hhold'⟩ := hhold.step hsucc hcore hstep
    refine ⟨hcore.step (schedRr_spec conf) hsucc hstep, P', ?_, hhold'⟩
    rw [run_concat, hP, Option.bind_some, rrLinkedStep, hstep, Option.bind_some, hfollow,
      Option.map_some]

end KHypervisor
