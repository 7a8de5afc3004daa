import KHypervisor.Timer.Deadline
import KHypervisor.Vdev.Vtimer

/-!
# Interrupts of a virtual timer

The interrupt condition of a guest's timer is kept in three places: in the control register, in the
compare value, and in a software timer that fires once for every compare value that is written,
whether the guest's timer is enabled then or not. Nothing looks at the compare value when the
control register is written, and the status bit is whatever was written or set last.

An interrupt is lost, or the status is read wrongly, exactly in the runs of `LosesTimer`:
`timerLaw_iff`.
-/

namespace KHypervisor

open Run Links Timers

/-! ## The timer of one virtual processor -/

/-- The virtual timer of a virtual processor, the software timers and the counter. For the
statements only: whether an interrupt has been forwarded since the condition has held, whether the
software timer has fired or has never been set since the compare value was written, and whether
the status bit has been written or set since the control register was written. -/
structure GuestTimer where
  timers : Timers
  v : VdevTimer
  count : U64
  forwarded : Bool
  spent : Bool
  status : Bool

/-- `ENABLE` is set and `IMASK` is not. -/
def Enabled (ctl : U32) : Prop := ctl.getLsbD 0 = true ∧ ctl.getLsbD 1 = false

instance decidableEnabled (ctl : U32) : Decidable (Enabled ctl) :=
  inferInstanceAs (Decidable (_ ∧ _))

/-- The counter has reached the compare value with the offset added. -/
def TimerCondition (v : VdevTimer) (c : U64) : Prop := v.pCval + v.pCtOffset ≤ c

instance decidableTimerCondition (v : VdevTimer) (c : U64) : Decidable (TimerCondition v c) :=
  inferInstanceAs (Decidable (_ ≤ _))

def Asserted (v : VdevTimer) (c : U64) : Prop := Enabled v.pCtl ∧ TimerCondition v c

instance decidableAsserted (v : VdevTimer) (c : U64) : Decidable (Asserted v c) :=
  inferInstanceAs (Decidable (_ ∧ _))

/-- What the guest and the hardware do. The counter moves on, and an interrupt of the timer of a
processor comes with what the callbacks of the other software timers make of their expirations. -/
inductive GuestTimerEvent
  | writeCtl (x : U32)
  | readCtl
  | writeTval (cpu : PcpuId) (x : U32)
  | writeCval (cpu : PcpuId) (rt : U32 × U32)
  | tick (c : U64)
  | irq (cpu : PcpuId) (other : TimerRef → U64 → U64)

namespace GuestTimer

/-- The state with new contents. An interrupt counts as forwarded as long as the condition goes on
to hold, or if it has been forwarded just now. -/
def moveTo (σ : GuestTimer) (timers : Timers) (v : VdevTimer) (count : U64)
    (forwardedNow spent status : Bool) : GuestTimer where
  timers := timers
  v := v
  count := count
  forwarded := decide (Asserted v count) &&
    (decide (Asserted σ.v σ.count) && σ.forwarded || forwardedNow)
  spent := spent
  status := status

/-- What an access by processor `cpu` leaves that sets the software timer. -/
def access {R : Type} (fuel : ℕ) (conf : TimerConf) (t : TimerRef) (cpu : PcpuId)
    (r : VdevTimerAccess R) (σ : GuestTimer) : Option GuestTimer := do
  let expiration ← r.expiration
  let timers ← tmSetTimer fuel conf cpu t expiration true σ.timers
  some (σ.moveTo timers r.v σ.count false false σ.status)

end GuestTimer

/-- What an interrupt carries along: the virtual timer, whether it has forwarded an interrupt, and
the last two of the marks in `GuestTimer`. -/
structure HandlerState where
  v : VdevTimer
  forwarded : Bool
  spent : Bool
  status : Bool

def HandlerState.handle (conf : TimerConf) (expiration : U64) (s : HandlerState) :
    U64 × HandlerState :=
  let r := vdevTimerHandler conf expiration s.v
  (r.1, ⟨r.2.1, s.forwarded || r.2.2, decide (r.1 = 0), s.status || s.v.pCtl.getLsbD 0⟩)

/-- The callbacks, where `t` is the software timer of the virtual processor. -/
def guestTimerCallback (conf : TimerConf) (t : TimerRef) (other : TimerRef → U64 → U64) :
    TimerCallback HandlerState := fun t' expiration s =>
  if t' = t then some (s.handle conf expiration) else some (other t' expiration, s)

def guestTimerStep (fuel : ℕ) (conf : TimerConf) (t : TimerRef) (σ : GuestTimer) :
    GuestTimerEvent → Option GuestTimer
  | .writeCtl x =>
      let r := vdevTimerAccess32 conf σ.count false Cp32.cntpCtl.code x σ.v
      some (σ.moveTo σ.timers r.v σ.count false σ.spent (x.getLsbD 2))
  | .readCtl =>
      let r := vdevTimerAccess32 conf σ.count true Cp32.cntpCtl.code 0 σ.v
      some (σ.moveTo σ.timers r.v σ.count false σ.spent σ.status)
  | .writeTval cpu x =>
      σ.access fuel conf t cpu (vdevTimerAccess32 conf σ.count false Cp32.cntpTval.code x σ.v)
  | .writeCval cpu rt =>
      σ.access fuel conf t cpu (vdevTimerAccess64 conf σ.count false Cp64.cntpCval.code rt σ.v)
  | .tick c =>
      if σ.count ≤ c then some (σ.moveTo σ.timers σ.v c false σ.spent σ.status) else none
  | .irq cpu other =>
      (timerIrqHandler fuel conf cpu σ.count (guestTimerCallback conf t other)
        (σ.timers, ⟨σ.v, false, σ.spent, σ.status⟩)).map fun r =>
          σ.moveTo r.1 r.2.v σ.count r.2.forwarded r.2.spent r.2.status

/-- The state after `init_vdev_timer`. -/
def guestTimerInit (conf : TimerConf) (timers : Timers) (block : VdevTimer) (c : U64) :
    GuestTimer :=
  ⟨timers, initVdevTimer conf c block, c, false, true, false⟩

/-! ## The law -/

/-- The software timer is armed, by its state and by its place. -/
def SwtimerArmed (T : Timers) (t : TimerRef) : Prop :=
  (T.timer t).state = 1 ∧ ∃ q l, T.active.IsList q l ∧ t ∈ l

/-- Where the guest's timer asks for an interrupt that has not been forwarded, the software timer is
armed. -/
def NotLost (t : TimerRef) (σ : GuestTimer) : Prop :=
  Asserted σ.v σ.count → σ.forwarded = false → SwtimerArmed σ.timers t

/-- The status bit that is read is set if the guest's timer is enabled and has expired. -/
def StatusRight (conf : TimerConf) (σ : GuestTimer) : Prop :=
  (vdevTimerAccess32 conf σ.count true Cp32.cntpCtl.code 0 σ.v).rt.getLsbD 2 = true ↔
    σ.v.pCtl.getLsbD 0 = true ∧ TimerCondition σ.v σ.count

/-- No interrupt is lost, and a read of the control register shows the status. -/
def TimerLaw (conf : TimerConf) (t : TimerRef) (σ : GuestTimer) (e : GuestTimerEvent)
    (σ' : GuestTimer) : Prop :=
  NotLost t σ' ∧ (e = .readCtl → StatusRight conf σ)

/-- The guest's timer comes to ask for an interrupt, by a write to the control register or because
the counter moves on, when the software timer is spent; or the control register is read when the
status bit that was written or set last is not the status. -/
def LosesTimer (σ : GuestTimer) : GuestTimerEvent → Prop
  | .writeCtl x => σ.spent = true ∧ ¬ Asserted σ.v σ.count ∧ Enabled x ∧
      TimerCondition σ.v σ.count
  | .tick c => σ.spent = true ∧ ¬ Asserted σ.v σ.count ∧ Asserted σ.v c
  | .readCtl => ¬ (σ.status = true ↔ σ.v.pCtl.getLsbD 0 = true ∧ TimerCondition σ.v σ.count)
  | .writeTval .. | .writeCval .. | .irq .. => False

/-! ## The software timer -/

/-- The lists of the active timers, shorter than `fuel` whether or not `t` is in one, and the
inactive timers, to which `t` belongs. -/
structure SwtimerInv (fuel : ℕ) (t : TimerRef) (T : Timers) (active : PcpuId → List TimerRef)
    (R : Set TimerRef) : Prop where
  lists : T.active.Lists active
  linked : (∃ q, t ∈ active q) ∨ T.active.Alone t
  inactive : T.inactive.Closed R
  mem : t ∈ R
  length : ∀ q, ((active q).erase t).length < fuel

variable {fuel : ℕ} {conf : TimerConf} {t : TimerRef} {T T' : Timers}
  {active : PcpuId → List TimerRef} {R : Set TimerRef}

theorem SwtimerInv.length_le (h : SwtimerInv fuel t T active R) (q : PcpuId) :
    (active q).length ≤ fuel := by
  have hlength := h.length q
  rw [List.length_erase] at hlength
  split at hlength <;> omega

theorem SwtimerInv.register (hL : T.active.Lists active) (ht : ∀ q, t ∉ active q)
    (hR : T.inactive.Closed R) (hfuel : ∀ q, (active q).length < fuel) (p : PcpuId) :
    ∃ T', tmRegisterTimer p t T = some T' ∧ SwtimerInv fuel t T' active (insert t R) ∧
      T'.timer t = ⟨0, 0⟩ := by
  obtain ⟨T', hT', hlists, halone, hclosed, htimer, -⟩ := tmRegisterTimer_some hL ht hR p
  refine ⟨T', hT',
    ⟨hlists, .inr (halone t (.inl rfl)), hclosed, Set.mem_insert t R, fun q => ?_⟩, ?_⟩
  · rw [List.erase_of_not_mem (ht q)]
    exact hfuel q
  · rw [htimer, Function.update_self]

theorem SwtimerInv.set (h : SwtimerInv fuel t T active R) (conf : TimerConf) (p : PcpuId)
    (expiration : U64) :
    ∃ T' active', tmSetTimer fuel conf p t expiration true T = some T' ∧
      SwtimerInv fuel t T' active' R ∧ (T'.timer t).state = 1 ∧ t ∈ active' p := by
  have hmem : t ∈ placed active p t p := (mem_placed h.lists).mpr (by rw [if_pos rfl])
  have herase : ∀ q, (placed active p t q).erase t = (active q).erase t := by
    intro q
    by_cases hq : q = p
    · have hnot : t ∉ (active q).erase t := fun hmem =>
        ((h.lists.isList q).nodup.mem_erase_iff.mp hmem).1 rfl
      rw [← hq, placed, Function.update_self, List.erase_append_right _ hnot]
      simp
    · rw [placed, Function.update_of_ne hq, List.erase_of_not_mem]
      exact fun hmem => ((h.lists.isList q).nodup.mem_erase_iff.mp hmem).1 rfl
  have hfuel : (placed active p t p).length ≤ fuel := by
    have hlength := h.length p
    rw [← herase p, List.length_erase_of_mem hmem] at hlength
    omega
  obtain ⟨T', hT', hlists, -, hclosed, htimer, -⟩ :=
    tmSetTimer_some conf h.lists h.linked h.inactive h.mem hfuel expiration true
  refine ⟨T', placed active p t, hT',
    ⟨hlists, .inl ⟨p, hmem⟩, hclosed, h.mem, fun q => ?_⟩, ?_, hmem⟩
  · rw [herase]
    exact h.length q
  · rw [htimer, Function.update_self]

def HandlerState.visit (conf : TimerConf) (now : U64) (x : Timer) (s : HandlerState) :
    Timer × HandlerState :=
  if x.state = 1 ∧ x.expiration < now then
    let r := s.handle conf x.expiration
    (⟨if r.1 = 0 then 0 else 1, r.1⟩, r.2)
  else (x, s)

theorem visit_guestTimer (conf : TimerConf) (t t' : TimerRef) (other : TimerRef → U64 → U64)
    (now : U64) (timer : TimerRef → Timer) (s : HandlerState) :
    ∃ timer' s', visit (guestTimerCallback conf t other) now (timer, s) t' =
        some (timer', s') ∧
      (timer' t, s') = if t' = t then s.visit conf now (timer t) else (timer t, s) := by
  by_cases hdue : (timer t').state = 1 ∧ (timer t').expiration < now
  · by_cases ht : t' = t
    · subst ht
      generalize hr : s.handle conf (timer t').expiration = r
      refine ⟨Function.update timer t' ⟨if r.1 = 0 then 0 else 1, r.1⟩, r.2, ?_, ?_⟩
      · rw [visit, if_pos hdue, guestTimerCallback, if_pos rfl, hr, Option.map_some]
      · rw [if_pos rfl, HandlerState.visit, if_pos hdue, hr, Function.update_self]
    · generalize hr : other t' (timer t').expiration = r
      refine ⟨Function.update timer t' ⟨if r = 0 then 0 else 1, r⟩, s, ?_, ?_⟩
      · rw [visit, if_pos hdue, guestTimerCallback, if_neg ht, hr, Option.map_some]
      · rw [if_neg ht, Function.update_of_ne (Ne.symm ht)]
  · refine ⟨timer, s, by rw [visit, if_neg hdue], ?_⟩
    split
    · rename_i ht
      rw [HandlerState.visit, if_neg (ht ▸ hdue)]
    · rfl

/-- The loop over different timers visits the software timer if it is one of them. -/
theorem foldlM_visit_guestTimer (conf : TimerConf) (t : TimerRef) (other : TimerRef → U64 → U64)
    (now : U64) {ts : List TimerRef} (hnodup : ts.Nodup) (timer : TimerRef → Timer)
    (s : HandlerState) :
    ∃ timer' s', ts.foldlM (visit (guestTimerCallback conf t other) now) (timer, s) =
        some (timer', s') ∧
      (timer' t, s') = if t ∈ ts then s.visit conf now (timer t) else (timer t, s) := by
  induction ts generalizing timer s with
  | nil => exact ⟨timer, s, rfl, rfl⟩
  | cons t' ts ih =>
      obtain ⟨hnot, hnodup⟩ := List.nodup_cons.mp hnodup
      obtain ⟨timer₁, s₁, hturn, hvisit⟩ := visit_guestTimer conf t t' other now timer s
      obtain ⟨timer₂, s₂, hloop, hvisit'⟩ := ih hnodup timer₁ s₁
      refine ⟨timer₂, s₂, by rw [List.foldlM_cons, hturn]; exact hloop, ?_⟩
      rw [hvisit']
      by_cases ht : t' = t
      · subst ht
        rw [if_neg hnot, if_pos List.mem_cons_self, hvisit, if_pos rfl]
      · rw [if_neg ht] at hvisit
        obtain ⟨htimer, rfl⟩ := Prod.mk.inj hvisit
        rw [htimer]
        simp only [List.mem_cons, Ne.symm ht, false_or]

/-- An interrupt leaves the lists alone and visits the software timer if it is in the list of the
processor. -/
theorem SwtimerInv.irq (h : SwtimerInv fuel t T active R) (conf : TimerConf) (p : PcpuId)
    (count : U64) (other : TimerRef → U64 → U64) (s : HandlerState) :
    ∃ T' s', timerIrqHandler fuel conf p count (guestTimerCallback conf t other) (T, s) =
        some (T', s') ∧ SwtimerInv fuel t T' active R ∧
      (T'.timer t, s') = if t ∈ active p then
        s.visit conf (timerCountToTimeNs conf count) (T.timer t) else (T.timer t, s) := by
  obtain ⟨timer', s', hloop, hvisit⟩ := foldlM_visit_guestTimer conf t other
    (timerCountToTimeNs conf count) (h.lists.isList p).nodup T.timer s
  have hirq := timerIrqHandler_eq (h.lists.isList p) (h.length_le p) conf count
    (guestTimerCallback conf t other) s
  rw [hloop, Option.map_some] at hirq
  exact ⟨_, s', hirq, ⟨h.lists, h.linked, h.inactive, h.mem, h.length⟩, hvisit⟩

/-! ## The handler -/

theorem and_one_eq_one_iff (x : U32) : x &&& 1 = 1 ↔ x.getLsbD 0 = true := by
  rw [show (1 : U32) = BitVec.twoPow 32 0 from rfl, BitVec.and_twoPow]
  split
  · exact iff_of_true rfl ‹_›
  · exact iff_of_false (by decide) ‹_›

theorem or_bit_and_eq_zero_iff (x : U32) :
    (x ||| 1 <<< 2) &&& 1 <<< 1 = 0 ↔ x.getLsbD 1 = false := by
  rw [show (1 <<< 1 : U32) = BitVec.twoPow 32 1 from rfl, BitVec.and_twoPow, BitVec.getLsbD_or]
  cases x.getLsbD 1 <;> decide

/-- The handler sets the status bit if the guest's timer is enabled. -/
theorem vdevTimerHandler_pCtl (conf : TimerConf) (expiration : U64) (v : VdevTimer) :
    (vdevTimerHandler conf expiration v).2.1 =
      { v with pCtl := if v.pCtl.getLsbD 0 = true then v.pCtl ||| 1 <<< 2 else v.pCtl } := by
  rw [vdevTimerHandler]
  simp only [and_one_eq_one_iff]
  split <;> rfl

theorem vdevTimerHandler_forward (conf : TimerConf) (expiration : U64) (v : VdevTimer) :
    (vdevTimerHandler conf expiration v).2.2 = decide (Enabled v.pCtl) := by
  rw [vdevTimerHandler]
  simp only [and_one_eq_one_iff]
  split
  · rename_i henable
    refine decide_eq_decide.mpr ((or_bit_and_eq_zero_iff _).trans ?_)
    exact ⟨fun hmask => ⟨henable, hmask⟩, And.right⟩
  · rename_i henable
    exact (decide_eq_false fun henabled => henable henabled.1).symm

theorem handle_v (conf : TimerConf) (expiration : U64) (s : HandlerState) :
    (∀ c, Asserted (s.handle conf expiration).2.v c ↔ Asserted s.v c) ∧
      (s.handle conf expiration).2.v.pCtl.getLsbD 2 =
        (s.v.pCtl.getLsbD 2 || s.v.pCtl.getLsbD 0) := by
  have hv : (s.handle conf expiration).2.v =
      { s.v with pCtl := if s.v.pCtl.getLsbD 0 = true then s.v.pCtl ||| 1 <<< 2 else s.v.pCtl } :=
    vdevTimerHandler_pCtl conf expiration s.v
  rw [hv]
  constructor
  · intro c
    refine and_congr ?_ Iff.rfl
    dsimp only
    split <;> simp [Enabled]
  · dsimp only
    split <;> simp_all

/-! ## The invariant -/

/-- The software timer is armed unless it is spent, and where the guest's timer asks for an
interrupt that has not been forwarded, it is not. -/
structure GuestTimerInv (fuel : ℕ) (t : TimerRef) (σ : GuestTimer)
    (active : PcpuId → List TimerRef) (R : Set TimerRef) : Prop where
  links : SwtimerInv fuel t σ.timers active R
  armed : σ.spent = false → (σ.timers.timer t).state = 1 ∧ ∃ q, t ∈ active q
  spent : σ.spent = true → (σ.timers.timer t).state = 0
  notLost : Asserted σ.v σ.count → σ.forwarded = false → σ.spent = false
  status : σ.status = σ.v.pCtl.getLsbD 2

variable {σ σ' : GuestTimer}

theorem GuestTimerInv.not_lost (h : GuestTimerInv fuel t σ active R) : NotLost t σ := by
  intro hasserted hforwarded
  obtain ⟨hstate, q, hq⟩ := h.armed (h.notLost hasserted hforwarded)
  exact ⟨hstate, q, active q, h.links.lists.isList q, hq⟩

theorem GuestTimerInv.not_armed (h : GuestTimerInv fuel t σ active R) (hspent : σ.spent = true) :
    ¬ SwtimerArmed σ.timers t := by
  intro harmed
  exact absurd ((h.spent hspent).symm.trans harmed.1) (by decide)

/-- A change of the registers or of the counter after which the guest's timer does not ask for an
interrupt that it did not ask for before, if the software timer is spent. -/
theorem GuestTimerInv.move (h : GuestTimerInv fuel t σ active R) {v : VdevTimer} {c : U64}
    {status : Bool} (hstatus : status = v.pCtl.getLsbD 2)
    (hnew : σ.spent = true → Asserted v c → Asserted σ.v σ.count) :
    GuestTimerInv fuel t (σ.moveTo σ.timers v c false σ.spent status) active R := by
  refine ⟨h.links, h.armed, h.spent, fun hasserted hforwarded => ?_, hstatus⟩
  by_contra hspent
  have hold := hnew (Bool.eq_true_of_not_eq_false hspent) hasserted
  rw [GuestTimer.moveTo] at hasserted hforwarded hspent
  simp only [hasserted, hold, decide_true, Bool.true_and, Bool.or_false] at hforwarded
  exact hspent (h.notLost hold hforwarded)

theorem GuestTimerInv.access {S : Type} (h : GuestTimerInv fuel t σ active R) (cpu : PcpuId)
    {r : VdevTimerAccess S} {expiration : U64} (hexp : r.expiration = some expiration)
    (hctl : r.v.pCtl = σ.v.pCtl) (hσ' : σ.access fuel conf t cpu r = some σ') :
    ∃ active', GuestTimerInv fuel t σ' active' R := by
  obtain ⟨T, active', hT, hlinks, hstate, hmem⟩ := h.links.set conf cpu expiration
  rw [GuestTimer.access, hexp, Option.bind_eq_bind, Option.bind_some, hT] at hσ'
  obtain rfl := Option.some.inj hσ'
  refine ⟨active', hlinks, fun _ => ⟨hstate, cpu, hmem⟩, nofun, fun _ _ => rfl, ?_⟩
  exact h.status.trans (by rw [← hctl]; rfl)

theorem GuestTimerInv.irq (h : GuestTimerInv fuel t σ active R) (cpu : PcpuId)
    (other : TimerRef → U64 → U64)
    (hσ' : guestTimerStep fuel conf t σ (.irq cpu other) = some σ') :
    GuestTimerInv fuel t σ' active R := by
  obtain ⟨T, s, hirq, hlinks, hvisit⟩ := h.links.irq conf cpu σ.count other
    ⟨σ.v, false, σ.spent, σ.status⟩
  rw [guestTimerStep, hirq, Option.map_some] at hσ'
  obtain rfl := Option.some.inj hσ'
  by_cases hdue : t ∈ active cpu ∧ (σ.timers.timer t).state = 1 ∧
      (σ.timers.timer t).expiration < timerCountToTimeNs conf σ.count
  · obtain ⟨hmem, hdue⟩ := hdue
    rw [if_pos hmem, HandlerState.visit, if_pos hdue] at hvisit
    obtain ⟨htimer, rfl⟩ := Prod.mk.inj hvisit
    obtain ⟨hasserted, hstatus⟩ := handle_v conf (σ.timers.timer t).expiration
      ⟨σ.v, false, σ.spent, σ.status⟩
    refine ⟨hlinks, fun hspent => ⟨?_, cpu, hmem⟩, fun hspent => ?_,
      fun hagain hforwarded => ?_, ?_⟩
    · change (T.timer t).state = 1
      rw [htimer]
      exact if_neg (of_decide_eq_false hspent)
    · change (T.timer t).state = 0
      rw [htimer]
      exact if_pos (of_decide_eq_true hspent)
    · -- the interrupt that the guest's timer asks for has been forwarded just now
      have hnow : (vdevTimerHandler conf (σ.timers.timer t).expiration σ.v).2.2 = true := by
        rw [vdevTimerHandler_forward]
        exact decide_eq_true ((hasserted σ.count).mp hagain).1
      refine absurd hforwarded ?_
      simp [GuestTimer.moveTo, HandlerState.handle, hnow]
      exact hagain
    · exact (congrArg (· || _) h.status).trans hstatus.symm
  · have hsame : T.timer t = σ.timers.timer t ∧ s = ⟨σ.v, false, σ.spent, σ.status⟩ := by
      rw [HandlerState.visit] at hvisit
      by_cases hmem : t ∈ active cpu
      · rw [if_pos hmem, if_neg fun hd => hdue ⟨hmem, hd⟩] at hvisit
        exact Prod.mk.inj hvisit
      · rw [if_neg hmem] at hvisit
        exact Prod.mk.inj hvisit
    obtain ⟨htimer, rfl⟩ := hsame
    refine ⟨hlinks, fun hspent => ?_, fun hspent => ?_, fun hagain hforwarded => ?_, h.status⟩
    · exact ⟨htimer ▸ (h.armed hspent).1, (h.armed hspent).2⟩
    · exact htimer ▸ h.spent hspent
    · refine h.notLost hagain ?_
      simpa [GuestTimer.moveTo, show Asserted σ.v σ.count from hagain] using hforwarded

/-! ## Runs -/

theorem guestTimerStep_good (h : GuestTimerInv fuel t σ active R) {e : GuestTimerEvent}
    (he : ¬ LosesTimer σ e) (hσ' : guestTimerStep fuel conf t σ e = some σ') :
    TimerLaw conf t σ e σ' ∧ ∃ active', GuestTimerInv fuel t σ' active' R := by
  have hlaw : (∃ active', GuestTimerInv fuel t σ' active' R) → e ≠ .readCtl →
      TimerLaw conf t σ e σ' ∧ ∃ active', GuestTimerInv fuel t σ' active' R := fun hinv hne =>
    ⟨⟨hinv.choose_spec.not_lost, fun heq => absurd heq hne⟩, hinv⟩
  cases e with
  | writeCtl x =>
      obtain rfl := Option.some.inj hσ'
      refine hlaw ⟨active, h.move rfl fun hspent hasserted => ?_⟩ nofun
      by_contra hold
      exact he ⟨hspent, hold, hasserted⟩
  | readCtl =>
      obtain rfl := Option.some.inj hσ'
      have hinv := h.move (v := σ.v) (c := σ.count) h.status fun _ => id
      refine ⟨⟨hinv.not_lost, fun _ => ?_⟩, active, hinv⟩
      have hread := not_not.mp he
      rw [h.status] at hread
      exact hread
  | writeTval cpu x =>
      obtain ⟨-, -, hctl, hexp⟩ := writeTval_eq conf σ.count x σ.v
      exact hlaw (h.access cpu hexp hctl hσ') nofun
  | writeCval cpu rt => exact hlaw (h.access cpu rfl rfl hσ') nofun
  | tick c =>
      rw [guestTimerStep] at hσ'
      split at hσ'
      · obtain rfl := Option.some.inj hσ'
        refine hlaw ⟨active, h.move h.status fun hspent hasserted => ?_⟩ nofun
        by_contra hold
        exact he ⟨hspent, hold, hasserted⟩
      · exact absurd hσ' (by simp)
  | irq cpu other => exact hlaw ⟨active, h.irq cpu other hσ'⟩ nofun

theorem guestTimerStep_bad (h : GuestTimerInv fuel t σ active R) {e : GuestTimerEvent}
    (he : LosesTimer σ e) (hσ' : guestTimerStep fuel conf t σ e = some σ') :
    ¬ TimerLaw conf t σ e σ' := by
  rintro ⟨hnotLost, hstatus⟩
  cases e with
  | writeCtl x =>
      obtain ⟨hspent, hold, hnew⟩ := he
      obtain rfl := Option.some.inj hσ'
      refine h.not_armed hspent (hnotLost hnew ?_)
      simp [GuestTimer.moveTo, hold]
  | readCtl =>
      refine he ?_
      rw [h.status]
      exact hstatus rfl
  | tick c =>
      obtain ⟨hspent, hold, hnew⟩ := he
      rw [guestTimerStep] at hσ'
      split at hσ'
      · obtain rfl := Option.some.inj hσ'
        refine h.not_armed hspent (hnotLost hnew ?_)
        simp [GuestTimer.moveTo, hold]
      · exact absurd hσ' (by simp)
  | writeTval => exact he
  | writeCval => exact he
  | irq => exact he

theorem guestTimerInv_init (conf : TimerConf) (block : VdevTimer) (c : U64)
    (h : SwtimerInv fuel t T active R) (htimer : T.timer t = ⟨0, 0⟩) :
    GuestTimerInv fuel t (guestTimerInit conf T block c) active R := by
  have hctl : (guestTimerInit conf T block c).v.pCtl = 0 ||| 1 <<< 1 := rfl
  refine ⟨h, nofun, fun _ => by rw [guestTimerInit, htimer], fun hasserted => ?_, ?_⟩
  · have hmasked := hasserted.1.2
    rw [hctl] at hmasked
    exact absurd hmasked (by decide)
  · rw [hctl]
    rfl

/-- From the creation of a virtual timer on, beside whatever other software timers there are, no
interrupt is lost and the status is read rightly along exactly the runs in which the guest's timer
never comes to ask for an interrupt when the software timer is spent, and the control register is
read only when the status bit is right. -/
theorem timerLaw_iff (hlists : T.active.Lists active) (hnew : ∀ q, t ∉ active q)
    (hinactive : T.inactive.Closed R) (hfuel : ∀ q, (active q).length < fuel) {p : PcpuId}
    (hregister : tmRegisterTimer p t T = some T') (conf : TimerConf) (block : VdevTimer) (c : U64)
    {es : List GuestTimerEvent}
    (hrun : run (guestTimerStep fuel conf t) (guestTimerInit conf T' block c) es = some σ) :
    Follows (guestTimerStep fuel conf t) (TimerLaw conf t) (guestTimerInit conf T' block c) es ↔
      ¬ Happened (guestTimerStep fuel conf t) LosesTimer (guestTimerInit conf T' block c) es := by
  obtain ⟨T₁, hT₁, hlinks, htimer⟩ := SwtimerInv.register hlists hnew hinactive hfuel p
  obtain rfl := Option.some.inj (hT₁.symm.trans hregister)
  refine follows_iff_not_happened
    (I := fun σ => ∃ active, GuestTimerInv fuel t σ active (insert t R)) hrun
    ⟨active, guestTimerInv_init conf block c hlinks htimer⟩ ?_ ?_
  · rintro u e - v ⟨active, h⟩ he hv
    exact guestTimerStep_good h he hv
  · rintro u e - v ⟨active, h⟩ he hv
    exact guestTimerStep_bad h he hv

/-- The software timers when that of the first virtual processor has been registered alone. -/
def oneTimer : Timers :=
  (tmRegisterTimer 0 (.vtimer 0) (.init default default)).getD (.init default default)

/-- A timer is set, enabled, and fires. -/
theorem timerLaw_iff_fires :
    Follows (guestTimerStep 1 ⟨10, false⟩ (.vtimer 0)) (TimerLaw ⟨10, false⟩ (.vtimer 0))
        (guestTimerInit ⟨10, false⟩ oneTimer default 0)
        [.writeTval 0 5, .writeCtl 1, .tick 100, .irq 0 fun _ _ => 0, .readCtl] ↔
      ¬ Happened (guestTimerStep 1 ⟨10, false⟩ (.vtimer 0)) LosesTimer
        (guestTimerInit ⟨10, false⟩ oneTimer default 0)
        [.writeTval 0 5, .writeCtl 1, .tick 100, .irq 0 fun _ _ => 0, .readCtl] :=
  timerLaw_iff (T := .init default default) (t := .vtimer 0) lists_empty
    (fun _ => List.not_mem_nil) closed_empty (fun _ => Nat.one_pos) (p := 0) rfl _ _ _ rfl

/-- A timer that is set and fires before it is enabled: the guest's timer asks for an interrupt,
none has been forwarded, and the software timer is not armed. Where it is enabled first, the status
bit is still clear when the counter has passed the compare value. -/
theorem expiry_before_enable_lost :
    (∃ σ, run (guestTimerStep 1 ⟨10, false⟩ (.vtimer 0))
        (guestTimerInit ⟨10, false⟩ oneTimer default 0)
        [.writeTval 0 5, .tick 100, .irq 0 fun _ _ => 0, .writeCtl 1] = some σ ∧
      Asserted σ.v σ.count ∧ σ.forwarded = false ∧ (σ.timers.timer (.vtimer 0)).state = 0 ∧
      ¬ NotLost (.vtimer 0) σ) ∧
    ∃ σ, run (guestTimerStep 1 ⟨10, false⟩ (.vtimer 0))
        (guestTimerInit ⟨10, false⟩ oneTimer default 0)
        [.writeTval 0 5, .writeCtl 1, .tick 100] = some σ ∧
      ¬ StatusRight ⟨10, false⟩ σ := by
  constructor
  · refine ⟨_, rfl, by decide, rfl, rfl, fun hnotLost => ?_⟩
    have harmed := hnotLost (by decide) rfl
    exact absurd harmed.1 (by decide)
  · refine ⟨_, rfl, fun hright => ?_⟩
    exact absurd (hright.mpr (by decide)) (by decide)

end KHypervisor
