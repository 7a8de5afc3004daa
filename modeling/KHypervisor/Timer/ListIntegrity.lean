import KHypervisor.Timer.Deadline

/-!
# The lists of timers

`tm_deactivate_timer` puts a timer at the end of an inactive list without taking it out of the one
that it may be in, and `tm_activate_timer` then takes it out of the second only. A timer that was
registered and never set is in the list of the processor that it was registered on, so the first
`tm_set_timer` of a timer always leaves that list leading to the timer and never back to its head
(`listIntegrity_iff`). The active lists, which alone are ever traversed, are circles throughout
(`activeLists_follow`).
-/

namespace KHypervisor

open Run Links

inductive TimerListHead
  | active (pcpu : PcpuId)
  | inactive (pcpu : PcpuId)

/-- The list with this head is a circle of these timers. -/
def Timers.HasList (T : Timers) : TimerListHead → List TimerRef → Prop
  | .active p, ts => T.active.IsList p ts
  | .inactive p, ts => T.inactive.IsList p ts

/-- All lists are circles, and every timer that has been registered is in one of them, once. -/
def ListIntegrity (σ : TimerTrace) : Prop :=
  ∃ lists : TimerListHead → List TimerRef, (∀ c, σ.timers.HasList c (lists c)) ∧
    ∀ t, σ.home t ≠ none → ∃! c, t ∈ lists c

def IntegrityLaw (_ : TimerTrace) (_ : TimerEvent) (τ : TimerTrace) : Prop := ListIntegrity τ

def TimerEvent.registers : TimerEvent → Option TimerRef
  | .register _ t => some t
  | _ => none

def TimerEvent.IsSet : TimerEvent → Prop
  | .set .. => True
  | _ => False

/-- No timer has been set: the registered timers are in the inactive lists of the processors that
they were registered on, and no timer has been in an active list. -/
structure Unset (σ : TimerTrace) (inactive : PcpuId → List TimerRef) : Prop where
  active : σ.timers.active.Lists fun _ => []
  lists : σ.timers.inactive.Lists inactive
  home : ∀ p t, t ∈ inactive p ↔ σ.home t = some p
  bare : ∀ t, σ.home t = none → σ.timers.active.prev (.item t) = none

variable {fuel n : ℕ} {conf : TimerConf} {σ τ : TimerTrace}
  {active inactive : PcpuId → List TimerRef} {T T' : Timers} {t : TimerRef} {p : PcpuId}
  {es : List TimerEvent}

theorem unset_init (timer : TimerRef → Timer) (hw : PcpuId → TimerHw) :
    Unset (.init timer hw) fun _ => [] :=
  ⟨lists_empty, lists_empty, by simp [TimerTrace.init], fun _ _ => rfl⟩

theorem Unset.listIntegrity (h : Unset σ inactive) : ListIntegrity σ := by
  refine ⟨fun | .active _ => [] | .inactive p => inactive p, fun c => ?_, fun t ht => ?_⟩
  · cases c with
    | active p => exact h.active.isList p
    | inactive p => exact h.lists.isList p
  · obtain ⟨p, hp⟩ := Option.ne_none_iff_exists'.mp ht
    have hmem := (h.home p t).mpr hp
    refine ⟨.inactive p, hmem, fun c hc => ?_⟩
    cases c with
    | active q => exact absurd hc List.not_mem_nil
    | inactive q => rw [h.lists.unique t q p hc hmem]

/-! ## The steps -/

/-- A timer that is registered for the first time comes to the end of the inactive list. -/
theorem Unset.register (h : Unset σ inactive) (fuel : ℕ) (conf : TimerConf)
    (ht : σ.home t = none) (p : PcpuId) :
    ∃ τ, timerStep fuel conf σ (.register p t) = some τ ∧
      τ.home = Function.update σ.home t (some p) ∧
      Unset τ (Function.update inactive p (inactive p ++ [t])) := by
  have hnot : ∀ q, t ∉ inactive q := fun q hq => by
    rw [h.home, ht] at hq
    cases hq
  obtain ⟨hself, halone, -⟩ := h.lists.inithead hnot
  obtain ⟨L, hadd, hlists, -⟩ := hself.addtail halone p
  refine ⟨⟨⟨σ.timers.active.inithead (.item t), L, (σ.timers.setTimer t ⟨0, 0⟩).timer,
    σ.timers.hw⟩, Function.update σ.home t (some p)⟩, ?_, rfl,
    ⟨(h.active.inithead fun _ => List.not_mem_nil).1, hlists, fun q t' => ?_, fun t' ht' => ?_⟩⟩
  · rw [timerStep, tmRegisterTimer, hadd]
    rfl
  · dsimp only
    by_cases htt : t' = t
    · subst htt
      by_cases hq : q = p
      · simp [hq]
      · simp [hq, hnot q, Ne.symm hq]
    · rw [Function.update_of_ne htt, ← h.home]
      by_cases hq : q = p
      · simp [hq, htt]
      · simp [hq]
  · have htt : t' ≠ t := by
      rintro rfl
      simp at ht'
    have hnode : Node.item (H := PcpuId) t' ≠ .item t := by simpa using htt
    rw [(inithead_sameAt hnode).2]
    exact h.bare t' (by simpa [htt] using ht')

theorem Unset.irq (h : Unset σ inactive) (fuel : ℕ) (conf : TimerConf) (p : PcpuId) (count : U64)
    (callback : TimerRef → U64 → U64) :
    ∃ τ, timerStep fuel conf σ (.irq p count callback) = some τ ∧ τ.home = σ.home ∧
      Unset τ inactive := by
  obtain ⟨T, hT, hactive, hinactive, -⟩ :=
    timerIrqHandler_some conf h.active (Nat.zero_le fuel) (p := p) count callback
  refine ⟨{ σ with timers := T }, by rw [timerStep, hT, Option.map_some], rfl,
    ⟨?_, ?_, h.home, fun t ht => ?_⟩⟩
  · dsimp only
    rw [hactive]
    exact h.active
  · dsimp only
    rw [hinactive]
    exact h.lists
  · dsimp only
    rw [hactive]
    exact h.bare t ht

/-- What a set timer has gone through: it was unlinked from the active lists, and was put into the
inactive list before it was taken out of it. -/
theorem tmSetTimer_links {expiration : U64} {stopstart : Bool}
    (hT : tmSetTimer fuel conf p t expiration stopstart T = some T') :
    (T.active.delinit t).isSome = true ∧
      ∃ L, T.inactive.addtail t p = some L ∧ L.delinit t = some T'.inactive := by
  obtain ⟨T₁, h₁, hT⟩ := Option.bind_eq_some_iff.mp hT
  obtain ⟨T₂, h₂, hT⟩ := Option.bind_eq_some_iff.mp hT
  obtain ⟨T₃, h₃, hT⟩ := Option.bind_eq_some_iff.mp hT
  obtain ⟨A, hA, h₁⟩ := Option.bind_eq_some_iff.mp h₁
  obtain ⟨I, hI, h₁⟩ := Option.bind_eq_some_iff.mp h₁
  obtain ⟨I', hI', h₂⟩ := Option.bind_eq_some_iff.mp h₂
  obtain ⟨A', -, h₂⟩ := Option.bind_eq_some_iff.mp h₂
  have hactive : (if stopstart then T.timerStop p else T).active = T.active := by
    split <;> rfl
  have hinactive : (if stopstart then T.timerStop p else T).inactive = T.inactive := by
    split <;> rfl
  have hA' : T.active.delinit t = some A := by
    rw [← hactive]
    exact hA
  refine ⟨Option.isSome_of_eq_some hA', I, by rw [← hinactive]; exact hI, ?_⟩
  have hlast : T'.inactive = I' := by
    rw [← Option.some.inj hT]
    trans T₃.inactive
    · split <;> rfl
    · rw [(timerMaintenance_links h₃).2, ← Option.some.inj h₂]
  rw [hlast, ← hI', ← Option.some.inj h₁]
  rfl

/-- The list that a timer was registered in never comes back to its head once the timer is set. -/
theorem Unset.not_listIntegrity_set (h : Unset σ inactive) {expiration : U64} {stopstart : Bool}
    (hstep : timerStep fuel conf σ (.set p t expiration stopstart) = some τ) :
    ¬ ListIntegrity τ := by
  obtain ⟨T, hT, rfl⟩ := Option.map_eq_some_iff.mp hstep
  obtain ⟨hdel, L, hadd, hlast⟩ := tmSetTimer_links hT
  obtain ⟨halone, hnext⟩ := delinit_addtail_next (h.lists.isList p) hadd hlast
  cases hq : σ.home t with
  | none =>
      -- a timer that was never registered has no links to follow
      rw [Links.delinit, h.bare t hq] at hdel
      exact absurd hdel (by simp)
  | some q =>
      rintro ⟨lists, hlists, -⟩
      have hmem := (h.home q t).mpr hq
      exact (h.lists.isList q).not_isList_of_next hmem halone hnext _ (hlists (.inactive q))

/-- From a state before the first `tm_set_timer` on, the lists stay intact as long as no timer is
set. -/
theorem Unset.follows_iff (h : Unset σ inactive)
    (honce : (es.filterMap TimerEvent.registers).Nodup)
    (hfresh : ∀ t ∈ es.filterMap TimerEvent.registers, σ.home t = none) :
    Follows (timerStep fuel conf) IntegrityLaw σ es ↔ ∀ e ∈ es, ¬ e.IsSet := by
  induction es generalizing σ inactive with
  | nil => exact ⟨fun _ _ he => absurd he List.not_mem_nil, fun _ => trivial⟩
  | cons e es ih =>
      rw [List.forall_mem_cons]
      cases e with
      | register p t =>
          have hregs : (TimerEvent.register p t :: es).filterMap TimerEvent.registers =
              t :: es.filterMap TimerEvent.registers := rfl
          rw [hregs] at honce hfresh
          obtain ⟨ht, honce⟩ := List.nodup_cons.mp honce
          obtain ⟨τ, hτ, hhome, hnext⟩ := h.register fuel conf
            (hfresh t List.mem_cons_self) p
          rw [follows_cons_iff hτ, ih hnext honce fun t' ht' => ?_]
          · exact and_congr_left' (iff_of_true hnext.listIntegrity id)
          · have htt : t' ≠ t := fun htt => ht (htt ▸ ht')
            rw [hhome, Function.update_of_ne htt]
            exact hfresh t' (List.mem_cons_of_mem _ ht')
      | set p t expiration stopstart =>
          refine iff_of_false ?_ fun hnot => hnot.1 trivial
          rintro ⟨τ, hτ, hlaw, -⟩
          exact h.not_listIntegrity_set hτ hlaw
      | irq p count callback =>
          obtain ⟨τ, hτ, hhome, hnext⟩ := h.irq fuel conf p count callback
          rw [follows_cons_iff hτ, ih hnext honce fun t ht => hhome ▸ hfresh t ht]
          exact and_congr_left' (iff_of_true hnext.listIntegrity id)

/-- The lists of timers stay circles that hold every registered timer once, through a run that
registers no timer twice, if and only if it never sets one. -/
theorem listIntegrity_iff (fuel : ℕ) (conf : TimerConf) (timer : TimerRef → Timer)
    (hw : PcpuId → TimerHw) {es : List TimerEvent}
    (honce : (es.filterMap TimerEvent.registers).Nodup) :
    Follows (timerStep fuel conf) IntegrityLaw (.init timer hw) es ↔ ∀ e ∈ es, ¬ e.IsSet :=
  (unset_init timer hw).follows_iff honce fun _ _ => rfl

/-- Two timers that are registered on two processors, one of which takes an interrupt. -/
theorem listIntegrity_iff_two :
    Follows (timerStep 3 ⟨10, false⟩) IntegrityLaw (.init default default)
        [.register 0 (.vtimer 0), .register 1 (.sched 1), .irq 0 1 fun _ _ => 0] ↔
      ∀ e ∈ [TimerEvent.register 0 (.vtimer 0), .register 1 (.sched 1), .irq 0 1 fun _ _ => 0],
        ¬ e.IsSet :=
  listIntegrity_iff 3 ⟨10, false⟩ default default (by decide)

/-- The one timer of a processor is set after it was registered: the inactive list leads to it, and
from it to itself. -/
theorem set_timer_breaks_list :
    ∃ τ, run (timerStep 3 ⟨10, false⟩) (.init default default)
        [.register 0 (.sched 0), .set 0 (.sched 0) 5 true] = some τ ∧
      τ.timers.inactive.next (.head 0) = some (.item (.sched 0)) ∧
      τ.timers.inactive.next (.item (.sched 0)) = some (.item (.sched 0)) ∧ ¬ ListIntegrity τ ∧
      ¬ Follows (timerStep 3 ⟨10, false⟩) IntegrityLaw (.init default default)
        [.register 0 (.sched 0), .set 0 (.sched 0) 5 true] := by
  have hbroken : ∀ τ, run (timerStep 3 ⟨10, false⟩) (.init default default)
      [.register 0 (.sched 0), .set 0 (.sched 0) 5 true] = some τ → ¬ ListIntegrity τ := by
    intro τ hτ
    obtain ⟨σ, hσ, hτ⟩ := Option.bind_eq_some_iff.mp hτ
    obtain ⟨σ', hσ', -, hunset⟩ := (unset_init default default).register 3 ⟨10, false⟩
      (t := .sched 0) rfl 0
    obtain rfl := Option.some.inj (hσ.symm.trans hσ')
    obtain ⟨τ', hstep, hlast⟩ := Option.bind_eq_some_iff.mp hτ
    obtain rfl := Option.some.inj hlast
    exact hunset.not_listIntegrity_set hstep
  refine ⟨_, rfl, by decide, by decide, hbroken _ rfl, ?_⟩
  rintro ⟨σ, hσ, -, τ, hτ, hlaw, -⟩
  obtain rfl := Option.some.inj hσ
  obtain rfl := Option.some.inj hτ
  exact hbroken _ rfl hlaw

/-! ## The active lists -/

/-- A timer is registered that has been registered, or set that has not. -/
def Misuses (σ : TimerTrace) : TimerEvent → Prop
  | .register _ t => σ.home t ≠ none
  | .set _ t _ _ => σ.home t = none
  | .irq .. => False

/-- The active lists are circles without a common timer. -/
def ActiveListsLaw (_ : TimerTrace) (_ : TimerEvent) (τ : TimerTrace) : Prop :=
  ∃ active, τ.timers.active.Lists active

theorem ActiveInv.step (h : ActiveInv n σ active) (conf : TimerConf) (hfuel : n < fuel)
    {e : TimerEvent} (he : ¬ Misuses σ e) :
    ∃ τ active', timerStep fuel conf σ e = some τ ∧ ActiveInv (n + 1) τ active' := by
  cases e with
  | register p t =>
      obtain ⟨T, hstep, hnext, -⟩ := h.register fuel conf p fun q hq =>
        h.home q t hq (not_not.mp he)
      exact ⟨_, active, hstep, hnext⟩
  | set p t expiration stopstart =>
      obtain ⟨T, hstep, hnext, -⟩ :=
        h.set conf he ((length_placed h.length p).trans hfuel) expiration stopstart
      exact ⟨_, _, hstep, hnext⟩
  | irq p count callback =>
      obtain ⟨T, hstep, hnext, -⟩ := h.irq conf ((h.length p).trans hfuel.le) count callback
      exact ⟨_, active, hstep, hnext⟩

/-- As long as timers are registered once and set only afterwards, the active lists are circles
without a common timer, whatever the callbacks return. -/
theorem activeLists_follow (conf : TimerConf) (timer : TimerRef → Timer) (hw : PcpuId → TimerHw)
    {fuel : ℕ} (hfuel : es.length ≤ fuel)
    (hes : ¬ Happened (timerStep fuel conf) Misuses (.init timer hw) es) :
    Follows (timerStep fuel conf) ActiveListsLaw (.init timer hw) es := by
  refine follows_unless (I := fun n σ => ∃ active, ActiveInv n σ active)
    ⟨_, activeInv_init timer hw⟩ hes fun n hn σ e _ ⟨active, hinv⟩ hnot => ?_
  obtain ⟨τ, active', hstep, hnext⟩ := hinv.step conf (show n < fuel by omega) hnot
  exact ⟨τ, hstep, ⟨active', hnext.lists⟩, active', hnext⟩

theorem activeInv_run {conf : TimerConf} {timer : TimerRef → Timer} {hw : PcpuId → TimerHw}
    (hrun : run (timerStep fuel conf) (.init timer hw) es = some σ) (hfuel : es.length ≤ fuel)
    (hes : ¬ Happened (timerStep fuel conf) Misuses (.init timer hw) es) :
    ∃ active, ActiveInv es.length σ active := by
  revert hfuel hes
  refine run_induction (I := fun es σ => es.length ≤ fuel →
    ¬ Happened (timerStep fuel conf) Misuses (.init timer hw) es →
      ∃ active, ActiveInv es.length σ active) (fun _ _ => ⟨_, activeInv_init timer hw⟩)
    (fun es e u v hu ih hv hfuel hes => ?_) hrun
  rw [happened_concat hu, not_or] at hes
  rw [List.length_append, List.length_singleton] at hfuel ⊢
  obtain ⟨active, hinv⟩ := ih (by omega) hes.1
  obtain ⟨τ, active', hstep, hnext⟩ := hinv.step conf hfuel hes.2
  obtain rfl := Option.some.inj (hv.symm.trans hstep)
  exact ⟨active', hnext⟩

/-! ## What a call tells that came back -/

theorem tmSetTimer_mono {fuel' : ℕ} (hle : fuel ≤ fuel') {expiration : U64} {stopstart : Bool}
    (hT : tmSetTimer fuel conf p t expiration stopstart T = some T') :
    tmSetTimer fuel' conf p t expiration stopstart T = some T' ∧
      ∃ ts, T'.active.entries fuel p = some ts := by
  obtain ⟨T₁, h₁, hT⟩ := Option.bind_eq_some_iff.mp hT
  obtain ⟨T₂, h₂, hT⟩ := Option.bind_eq_some_iff.mp hT
  obtain ⟨T₃, h₃, hT⟩ := Option.bind_eq_some_iff.mp hT
  obtain ⟨ts, hts, rfl⟩ := Option.map_eq_some_iff.mp h₃
  constructor
  · rw [tmSetTimer, h₁]
    simp only [Option.bind_eq_bind, Option.bind_some, h₂, timerMaintenance, entries_mono hle hts,
      Option.map_some]
    exact hT
  · rw [← Option.some.inj hT]
    exact ⟨ts, by split <;> exact hts⟩

/-- A `tm_set_timer` that has come back has traversed a list that it could. -/
theorem ActiveInv.of_set (h : ActiveInv n σ active) (ht : σ.home t ≠ none) {expiration : U64}
    {stopstart : Bool} (hstep : timerStep fuel conf σ (.set p t expiration stopstart) = some τ) :
    (placed active p t p).length ≤ fuel ∧ τ.home = Function.update σ.home t (some p) ∧
      ActiveInv (n + 1) τ (placed active p t) ∧
      τ.timers.timer = Function.update σ.timers.timer t ⟨1, expiration⟩ := by
  obtain ⟨T, hT, rfl⟩ := Option.map_eq_some_iff.mp hstep
  obtain ⟨hlong, ts, hts⟩ := tmSetTimer_mono (Nat.le_max_left fuel (placed active p t p).length) hT
  obtain ⟨T', hstep', hnext, htimer, -⟩ :=
    h.set conf ht (Nat.le_max_right fuel (placed active p t p).length)
      expiration stopstart
  obtain rfl : T = T' := by
    rw [timerStep, hlong, Option.map_some, Option.some.injEq] at hstep'
    exact congrArg TimerTrace.timers hstep'
  exact ⟨((hnext.lists.isList p).eq_of_entries hts).2, rfl, hnext, htimer⟩

theorem length_le_of_timerIrqHandler {S : Type} {callback : TimerCallback S} {count : U64}
    {s : S} {r : Timers × S} (hlist : T.active.IsList p (active p))
    (hr : timerIrqHandler fuel conf p count callback (T, s) = some r) :
    (active p).length ≤ fuel := by
  obtain ⟨ts, hts, -⟩ := Option.bind_eq_some_iff.mp hr
  exact (hlist.eq_of_entries hts).2

end KHypervisor
