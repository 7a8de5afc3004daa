import KHypervisor.Vm.ContextSwitch

/-!
# Virtual interrupts are neither lost nor duplicated

The interrupts that a virtual processor holds are in the list registers of the hardware while it
runs and in its saved ones while it does not, and in its queue. They are followed through runs of
injections to any processor, of drains of the queue of the running one, and of switches.
-/

namespace KHypervisor

open Run Slots

/-- A processor with a running guest, `current` being what `get_current_vcpuid` returns. -/
structure DeliveryState where
  machine : Machine
  frame : CoreRegs
  current : VcpuId

/-- The state after assignments to virtual processor `v` and to the virtual interface. -/
def DeliveryState.store (v : VcpuId) (vcpu : Vcpu) (gich : Gich) (s : DeliveryState) :
    DeliveryState :=
  { s with machine := { s.machine.setVcpu v vcpu with gich := gich } }

/-- `virq_inject` on this processor, with its result. `none` is a processor that is not there. -/
def DeliveryState.virqInject (numLr : ℕ) (v : VcpuId) (virq pirq : U32) (hw : U8)
    (s : DeliveryState) : Option (Bool × DeliveryState) :=
  (s.machine.vcpus v).map fun vcpu =>
    let r := KHypervisor.virqInject numLr (v == s.current) vcpu virq pirq hw s.machine.gich
    (r.1, s.store v r.2.1 r.2.2)

/-- An injection, `gic_inject_pending_irqs` as it is called, for the running processor, or a
switch. -/
inductive VirqEvent
  | inject (v : VcpuId) (virq pirq : U32) (hw : U8)
  | drain
  | switch (next : VcpuId)

def virqStep (numLr : ℕ) (s : DeliveryState) : VirqEvent → Option DeliveryState
  | .inject v virq pirq hw => (s.virqInject numLr v virq pirq hw).map Prod.snd
  | .drain =>
      (s.machine.vcpus s.current).map fun vcpu =>
        let r := gicInjectPendingIrqs numLr vcpu s.machine.gich
        s.store s.current r.1 r.2
  | .switch next =>
      match doContextSwitch numLr s.current next (some s.frame) s.machine with
      | some (machine, some frame) => some ⟨machine, frame, next⟩
      | _ => none

/-- The list registers of a virtual processor: those of the hardware while it runs. -/
def DeliveryState.lrOf (s : DeliveryState) (v : VcpuId) (vcpu : Vcpu) : ℕ → U32 :=
  if v = s.current then s.machine.gich.lr else vcpu.lr

def DeliveryState.held (numLr : ℕ) (s : DeliveryState) (v : VcpuId) : Multiset U32 :=
  match s.machine.vcpus v with
  | none => 0
  | some vcpu => heldIn numLr (s.lrOf v vcpu) vcpu.pendingIrqs

/-- The running processor is there, and the queues hold pending interrupts only. -/
structure DeliveryInv (start : Machine) (s : DeliveryState) : Prop where
  same : SameGuests start s.machine
  current : Schedulable s.machine s.current
  queue : ∀ v vcpu, s.machine.vcpus v = some vcpu → QueueValid vcpu.pendingIrqs

section Held

variable {numLr : ℕ} {s t : DeliveryState} {v : VcpuId}

theorem held_some {vcpu : Vcpu} (hv : s.machine.vcpus v = some vcpu) :
    s.held numLr v = heldIn numLr (s.lrOf v vcpu) vcpu.pendingIrqs := by
  rw [DeliveryState.held, hv]

theorem heldIn_congr {lr lr' : ℕ → U32} (h : ∀ i < numLr, lr i = lr' i) (pending : ℕ → U32) :
    heldIn numLr lr pending = heldIn numLr lr' pending := by
  rw [heldIn, heldIn, contents_congr h]

/-- A processor that does not run holds the same if it is left alone. -/
theorem held_of_same (hv : v ≠ s.current) (hv' : v ≠ t.current)
    (h : t.machine.vcpus v = s.machine.vcpus v) : t.held numLr v = s.held numLr v := by
  rw [DeliveryState.held, DeliveryState.held, h]
  cases s.machine.vcpus v with
  | none => rfl
  | some vcpu => simp only [DeliveryState.lrOf, if_neg hv, if_neg hv']

end Held

theorem store_sameGuests {s : DeliveryState} {v : VcpuId} {vcpu vcpu' : Vcpu}
    (hv : s.machine.vcpus v = some vcpu) (hvmid : vcpu'.vmid = vcpu.vmid) (gich : Gich) :
    SameGuests s.machine (s.store v vcpu' gich).machine :=
  ⟨rfl, Machine.vmidOf_setVcpu hv hvmid⟩

theorem deliveryInv_store {start : Machine} {s : DeliveryState} (h : DeliveryInv start s)
    {v : VcpuId} {vcpu vcpu' : Vcpu} (hv : s.machine.vcpus v = some vcpu)
    (hvmid : vcpu'.vmid = vcpu.vmid) (hqueue : QueueValid vcpu'.pendingIrqs) (gich : Gich) :
    DeliveryInv start (s.store v vcpu' gich) := by
  have hsame := store_sameGuests hv hvmid gich
  refine ⟨h.same.trans hsame, h.current.of_sameGuests hsame, fun w u hu => ?_⟩
  by_cases hw : w = v
  · rw [hw] at hu
    obtain rfl : vcpu' = u := Option.some.inj ((setVcpu_vcpus_self _ _ _).symm.trans hu)
    exact hqueue
  · exact h.queue w u ((setVcpu_vcpus_of_ne _ hw _).symm.trans hu)

/-- Only the processor that is stored to can hold something else afterwards. -/
theorem held_store_of_ne (numLr : ℕ) {s : DeliveryState} {v w : VcpuId} (hw : w ≠ v)
    (vcpu : Vcpu) {gich : Gich} (hgich : w = s.current → gich.lr = s.machine.gich.lr) :
    (s.store v vcpu gich).held numLr w = s.held numLr w := by
  have hsame : (s.store v vcpu gich).machine.vcpus w = s.machine.vcpus w :=
    setVcpu_vcpus_of_ne _ hw _
  by_cases hcur : w = s.current
  · rw [DeliveryState.held, DeliveryState.held, hsame]
    cases s.machine.vcpus w with
    | none => rfl
    | some u =>
        have hlr : (s.store v vcpu gich).lrOf w u = s.lrOf w u := by
          rw [DeliveryState.lrOf, DeliveryState.lrOf, if_pos hcur]
          exact (if_pos hcur).trans (hgich hcur)
        dsimp only
        rw [hlr]
  · exact held_of_same hcur hcur hsame

theorem held_store_self (numLr : ℕ) (s : DeliveryState) (v : VcpuId) (vcpu : Vcpu) (gich : Gich) :
    (s.store v vcpu gich).held numLr v =
      heldIn numLr (if v = s.current then gich.lr else vcpu.lr) vcpu.pendingIrqs :=
  held_some (setVcpu_vcpus_self _ _ _)

/-! ## Injections -/

/-- What one injection does, by its result: it adds the entry that it makes, or changes nothing
and has found the queue full. -/
structure InjectSpec (numLr : ℕ) (v : VcpuId) (vcpu : Vcpu) (entry : U32) (s : DeliveryState)
    (done : Bool) (t : DeliveryState) : Prop where
  added : done = true → t.held numLr v = s.held numLr v + {entry}
  refused : done = false →
    t.held numLr v = s.held numLr v ∧ ∀ i < virqMaxEntries, vcpu.pendingIrqs i ≠ 0
  others : ∀ w, w ≠ v → t.held numLr w = s.held numLr w
  kept : LrKept numLr s.machine.gich.lr t.machine.gich.lr

theorem queueValid_storePending {vcpu : Vcpu} (h : QueueValid vcpu.pendingIrqs) (i : ℕ)
    {entry : U32} (hentry : lrOccupied entry = true) :
    QueueValid (storePending i entry vcpu).pendingIrqs := by
  intro j hj hused
  rw [storePending] at hused ⊢
  dsimp only at hused ⊢
  by_cases hji : j = i
  · rw [hji, Function.update_self]
    exact hentry
  · rw [Function.update_of_ne hji] at hused ⊢
    exact h j hj hused

theorem virqInject_spec {numLr : ℕ} (hnum : numLr ≤ 64) {start : Machine} {s : DeliveryState}
    (h : DeliveryInv start s) {v : VcpuId} {vcpu : Vcpu} (hv : s.machine.vcpus v = some vcpu)
    (virq pirq : U32) (hw : U8) :
    ∃ done t, s.virqInject numLr v virq pirq hw = some (done, t) ∧ DeliveryInv start t ∧
      InjectSpec numLr v vcpu (lrEntryOf vcpu virq pirq hw) s done t := by
  have hbit := getLsbD_lrEntryOf vcpu virq pirq hw
  have hqueue := h.queue v vcpu hv
  rw [DeliveryState.virqInject, hv, Option.map_some]
  rcases virqInject_cases hnum (v == s.current) vcpu virq pirq hw s.machine.gich with
    ⟨hrun, n, hn, hfree, heq⟩ | ⟨i, hi, hfree, heq⟩ | ⟨heq, hfull⟩
  · have hcur : v = s.current := beq_iff_eq.mp hrun
    rw [heq]
    refine ⟨true, _, rfl, deliveryInv_store h hv rfl hqueue _,
      ⟨fun _ => ?_, Bool.noConfusion, fun w hw => ?_, lrKept_writeLr hfree _⟩⟩
    · rw [held_store_self, held_some hv, DeliveryState.lrOf, if_pos hcur, if_pos hcur, heldIn,
        heldIn, Gich.writeLr, contents_fill hn hfree (lrOccupied_of_getLsbD hbit), add_right_comm]
    · exact held_store_of_ne numLr hw _ fun hwcur => absurd (hwcur.trans hcur.symm) hw
  · rw [heq]
    refine ⟨true, _, rfl, deliveryInv_store h hv (by rfl)
      (queueValid_storePending hqueue i (lrOccupied_of_getLsbD hbit)) _,
      ⟨fun _ => ?_, Bool.noConfusion, fun w hw => held_store_of_ne numLr hw _ fun _ => rfl,
        .refl _ _⟩⟩
    have hempty : entryUsed (vcpu.pendingIrqs i) = false := by
      rw [hfree]
      decide
    rw [held_store_self, held_some hv, heldIn, heldIn, storePending,
      contents_fill hi hempty (entryUsed_of_getLsbD hbit), add_assoc]
    rfl
  · rw [heq]
    refine ⟨false, _, rfl, deliveryInv_store h hv rfl hqueue _,
      ⟨Bool.noConfusion, fun _ => ⟨?_, hfull⟩, fun w hw => held_store_of_ne numLr hw _ fun _ => rfl,
        .refl _ _⟩⟩
    rw [held_store_self, held_some hv]
    rfl

/-! ## Drains and switches -/

theorem drain_spec {numLr : ℕ} (hnum : numLr ≤ 64) {start : Machine} {s : DeliveryState}
    (h : DeliveryInv start s) :
    ∃ t, virqStep numLr s .drain = some t ∧ DeliveryInv start t ∧
      (∀ w, t.held numLr w = s.held numLr w) ∧
      LrKept numLr s.machine.gich.lr t.machine.gich.lr := by
  obtain ⟨vcpu, -, hv, -⟩ := h.current.exists_vcpu
  obtain ⟨hheld, hqueue⟩ := gicInjectPendingIrqs_held hnum (h.queue _ vcpu hv) s.machine.gich
  rw [virqStep, hv, Option.map_some]
  refine ⟨_, rfl, deliveryInv_store h hv (by rfl) hqueue _, fun w => ?_,
    (gicInjectPendingIrqs_kept hnum vcpu s.machine.gich).1⟩
  by_cases hw : w = s.current
  · rw [hw, held_store_self, held_some hv, DeliveryState.lrOf, if_pos rfl, if_pos rfl, hheld]
  · exact held_store_of_ne numLr hw _ fun hcur => absurd hcur hw

/-- Before a switch restores anything, every processor has in its saved registers what it has: the
running one has saved them, and the others have them there. -/
theorem switch_mid (numLr : ℕ) {start : Machine} {s : DeliveryState} (h : DeliveryInv start s)
    {n : VcpuId} (hn : Schedulable start n) :
    ∃ mid vcpu, virqStep numLr s (.switch n) =
        some ⟨mid.resume numLr n vcpu, vcpu.regs.coreRegs, n⟩ ∧
      mid.vcpus n = some vcpu ∧ SameGuests s.machine mid ∧
      ∀ w u, mid.vcpus w = some u → ∃ u₀, s.machine.vcpus w = some u₀ ∧
        u.pendingIrqs = u₀.pendingIrqs ∧ ∀ i < numLr, u.lr i = s.lrOf w u₀ i := by
  obtain ⟨current, mid, vcpu, hcurrent, hself, hothers, hguests, hvcpu, heq⟩ :=
    doContextSwitch_resume numLr h.current (hn.of_sameGuests h.same) s.frame
  refine ⟨mid, vcpu, by rw [virqStep, heq], hvcpu, hguests, fun w u hu => ?_⟩
  by_cases hw : w = s.current
  · rw [hw] at hu ⊢
    obtain rfl : _ = u := Option.some.inj (hself.symm.trans hu)
    refine ⟨current, hcurrent, rfl, fun i hi => ?_⟩
    rw [DeliveryState.lrOf, if_pos rfl]
    exact saveLrs_eq numLr _ _ hi
  · refine ⟨u, (hothers w hw).symm.trans hu, rfl, fun i _ => ?_⟩
    rw [DeliveryState.lrOf, if_neg hw]

theorem switch_spec {numLr : ℕ} (hnum : numLr ≤ 64) {start : Machine} {s : DeliveryState}
    (h : DeliveryInv start s) {n : VcpuId} (hn : Schedulable start n) :
    ∃ t, virqStep numLr s (.switch n) = some t ∧ DeliveryInv start t ∧ t.current = n ∧
      (∀ w, t.held numLr w = s.held numLr w) ∧
      ∀ vcpu, s.machine.vcpus n = some vcpu →
        LrKept numLr (s.lrOf n vcpu) t.machine.gich.lr := by
  obtain ⟨mid, vcpu, heq, hvcpu, hguests, hmid⟩ := switch_mid numLr h hn
  have hsaved : ∀ w u, mid.vcpus w = some u →
      heldIn numLr u.lr u.pendingIrqs = s.held numLr w ∧ QueueValid u.pendingIrqs := by
    intro w u hu
    obtain ⟨u₀, hu₀, hpending, hlr⟩ := hmid w u hu
    rw [held_some hu₀, hpending]
    exact ⟨heldIn_congr hlr _, h.queue w u₀ hu₀⟩
  have hall := hguests.trans (resume_sameGuests numLr hvcpu)
  obtain ⟨hheld, hqueue⟩ := gicInjectPendingIrqs_held hnum (hsaved n vcpu hvcpu).2
    { restoreLrs numLr vcpu.lr mid.gich with vmcr := vcpu.vmcr }
  have hresume : (mid.resume numLr n vcpu).vcpus n = some (mid.drained numLr vcpu).1 :=
    setVcpu_vcpus_self _ _ _
  have hothers : ∀ w, w ≠ n → (mid.resume numLr n vcpu).vcpus w = mid.vcpus w := fun w hw =>
    setVcpu_vcpus_of_ne _ hw _
  refine ⟨_, heq, ⟨h.same.trans hall, hn.of_sameGuests (h.same.trans hall), ?_⟩,
    rfl, fun w => ?_, ?_⟩
  · intro w u hu
    by_cases hw : w = n
    · rw [hw, hresume, Option.some.injEq] at hu
      rw [← hu]
      exact hqueue
    · exact (hsaved w u ((hothers w hw).symm.trans hu)).2
  · by_cases hw : w = n
    · rw [hw, held_some hresume, DeliveryState.lrOf, if_pos rfl, ← (hsaved n vcpu hvcpu).1]
      exact hheld.trans (heldIn_congr (fun i hi => restoreLrs_lr numLr _ _ hi) _)
    · rw [DeliveryState.held, hothers w hw]
      cases hu : mid.vcpus w with
      | none =>
          have hnone : s.machine.vcpus w = none := by
            have hvmid := hguests.vmidOf w
            rw [Machine.vmidOf, hu] at hvmid
            exact Option.map_eq_none_iff.mp hvmid.symm
          rw [DeliveryState.held, hnone]
      | some u =>
          dsimp only
          rw [DeliveryState.lrOf, if_neg hw]
          exact (hsaved w u hu).1
  · intro u hu i hi hocc
    obtain ⟨u₀, hu₀, -, hlr⟩ := hmid n vcpu hvcpu
    rw [hu₀, Option.some.injEq] at hu
    rw [← hu, ← hlr i hi] at hocc ⊢
    exact lrKept_resume hnum mid n vcpu i hi hocc

/-! ## Runs -/

/-- The events of a run that name processors which are there. -/
def VirqEvent.Valid (start : Machine) : VirqEvent → Prop
  | .inject v _ _ _ => (start.vmidOf v).isSome = true
  | .drain => True
  | .switch next => Schedulable start next

theorem exists_vcpu_of_vmidOf {start : Machine} {s : DeliveryState} (h : DeliveryInv start s)
    {v : VcpuId} (hv : (start.vmidOf v).isSome = true) : ∃ vcpu, s.machine.vcpus v = some vcpu := by
  rw [← h.same.vmidOf, Machine.vmidOf, Option.isSome_map] at hv
  exact Option.isSome_iff_exists.mp hv

theorem virqStep_inv {numLr : ℕ} (hnum : numLr ≤ 64) {start : Machine} {s : DeliveryState}
    (h : DeliveryInv start s) {e : VirqEvent} (he : e.Valid start) :
    ∃ t, virqStep numLr s e = some t ∧ DeliveryInv start t := by
  cases e with
  | inject v virq pirq hw =>
      obtain ⟨vcpu, hv⟩ := exists_vcpu_of_vmidOf h he
      obtain ⟨done, t, heq, hinv, -⟩ := virqInject_spec hnum h hv virq pirq hw
      exact ⟨t, by rw [virqStep, heq, Option.map_some], hinv⟩
  | drain =>
      obtain ⟨t, heq, hinv, -⟩ := drain_spec hnum h
      exact ⟨t, heq, hinv⟩
  | switch n =>
      obtain ⟨t, heq, hinv, -⟩ := switch_spec hnum h he
      exact ⟨t, heq, hinv⟩

/-- After any run, an injection that returns true adds the entry that it makes to what its
processor holds and one that returns false found the queue full and changes nothing; a drain and a
switch change nothing; no other processor is affected, and no injection overwrites an occupied
list register, nor does the drain that ends a switch one that the switch restored. -/
theorem virq_conserved {numLr : ℕ} (hnum : numLr ≤ 64) {s : DeliveryState}
    (hcurrent : Schedulable s.machine s.current)
    (hqueue : ∀ v vcpu, s.machine.vcpus v = some vcpu → QueueValid vcpu.pendingIrqs)
    {es : List VirqEvent} (hes : ∀ e ∈ es, e.Valid s.machine) :
    ∃ t, run (virqStep numLr) s es = some t ∧
      (∀ v vcpu virq pirq hw, t.machine.vcpus v = some vcpu →
        ∃ done t', t.virqInject numLr v virq pirq hw = some (done, t') ∧
          InjectSpec numLr v vcpu (lrEntryOf vcpu virq pirq hw) t done t') ∧
      (∃ t', virqStep numLr t .drain = some t' ∧
        (∀ w, t'.held numLr w = t.held numLr w) ∧
        LrKept numLr t.machine.gich.lr t'.machine.gich.lr) ∧
      ∀ n, Schedulable s.machine n → ∃ t', virqStep numLr t (.switch n) = some t' ∧
        t'.current = n ∧ (∀ w, t'.held numLr w = t.held numLr w) ∧
        ∀ vcpu, t.machine.vcpus n = some vcpu →
          LrKept numLr (t.lrOf n vcpu) t'.machine.gich.lr := by
  have hstart : DeliveryInv s.machine s := ⟨.refl _, hcurrent, hqueue⟩
  obtain ⟨t, ht, hinv⟩ := run_total es hstart fun u e he hu => virqStep_inv hnum hu (hes e he)
  refine ⟨t, ht, fun v vcpu virq pirq hw hv => ?_, ?_, fun n hn => ?_⟩
  · obtain ⟨done, t', heq, -, hspec⟩ := virqInject_spec hnum hinv hv virq pirq hw
    exact ⟨done, t', heq, hspec⟩
  · obtain ⟨t', heq, -, hheld, hkept⟩ := drain_spec hnum hinv
    exact ⟨t', heq, hheld, hkept⟩
  · obtain ⟨t', heq, -, hswitch⟩ := switch_spec hnum hinv hn
    exact ⟨t', heq, hswitch⟩

theorem virq_conserved_twoVcpus :
    ∃ t, run (virqStep 4) ⟨twoVcpus, default, 0⟩ [.inject 1 27 0 0, .switch 1, .drain] = some t ∧
      (∀ v vcpu virq pirq hw, t.machine.vcpus v = some vcpu →
        ∃ done t', t.virqInject 4 v virq pirq hw = some (done, t') ∧
          InjectSpec 4 v vcpu (lrEntryOf vcpu virq pirq hw) t done t') ∧
      (∃ t', virqStep 4 t .drain = some t' ∧ (∀ w, t'.held 4 w = t.held 4 w) ∧
        LrKept 4 t.machine.gich.lr t'.machine.gich.lr) ∧
      ∀ n, Schedulable twoVcpus n → ∃ t', virqStep 4 t (.switch n) = some t' ∧
        t'.current = n ∧ (∀ w, t'.held 4 w = t.held 4 w) ∧
        ∀ vcpu, t.machine.vcpus n = some vcpu →
          LrKept 4 (t.lrOf n vcpu) t'.machine.gich.lr := by
  refine virq_conserved (by decide) (schedulable_twoVcpus (by decide)) ?_ ?_
  · intro v vcpu hv i _ hused
    have hvcpu : vcpu = default := by
      by_cases hlt : v < 2
      · exact (Option.some.inj ((if_pos hlt).symm.trans hv)).symm
      · exact absurd ((if_neg hlt).symm.trans hv) (by simp)
    rw [hvcpu] at hused
    exact Bool.noConfusion hused
  · intro e he
    simp only [List.mem_cons, List.not_mem_nil, or_false] at he
    rcases he with rfl | rfl | rfl
    · rfl
    · exact schedulable_twoVcpus (by decide)
    · exact trivial

end KHypervisor
