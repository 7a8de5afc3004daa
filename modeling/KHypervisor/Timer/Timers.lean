import KHypervisor.Lib.Links
import KHypervisor.Types

/-!
# Software timers

The timers of `timer.c`. A timer has a node for the list of active timers and one for the list of
inactive timers of a processor, and a state that says the same a second time. The list functions
follow whatever pointers they find, and so the links are kept as they are in memory.

Only the active lists are ever traversed. They may have become rings that never come back to their
heads, and a function that traverses one has no result if it has not come back after `fuel` steps.
-/

namespace KHypervisor

open Links

/-- The settings of the timers: `TIMER_RESOLUTION_NS`, and whether `CONFIG_VTIMER_PERIODIC` is
set. -/
structure TimerConf where
  resolutionNs : U64
  vtimerPeriodic : Bool
deriving Inhabited

/-- `timer_count_to_time_ns`. -/
def timerCountToTimeNs (conf : TimerConf) (count : U64) : U64 := count * conf.resolutionNs

/-- `timer_time_to_count_ns`. -/
def timerTimeToCountNs (conf : TimerConf) (time : U64) : U64 := time / conf.resolutionNs

/-- A pointer to a `struct timer`. There is one in every virtual processor, whose callback is
`vdev_timer_handler`, and one in every scheduler, whose callback is `do_schedule`. -/
inductive TimerRef
  | vtimer (vcpuid : VcpuId)
  | sched (pcpu : PcpuId)
deriving DecidableEq

/-- The fields of `struct timer` but for its links and its callback. -/
structure Timer where
  state : U32
  expiration : U64
deriving Inhabited

/-- What the functions of `timer_ops` have left in the timer of a processor: whether it is enabled,
and the last argument of `set_absolute`. -/
structure TimerHw where
  enabled : Bool
  cval : Option U64
deriving Inhabited

/-- The software timers and the timers of the processors. -/
structure Timers where
  active : Links PcpuId TimerRef
  inactive : Links PcpuId TimerRef
  timer : TimerRef → Timer
  hw : PcpuId → TimerHw

namespace Timers

/-- The state after `timemanager_init`, over any timers. -/
def init (timer : TimerRef → Timer) (hw : PcpuId → TimerHw) : Timers :=
  ⟨Links.empty, Links.empty, timer, hw⟩

def setTimer (t : TimerRef) (x : Timer) (T : Timers) : Timers :=
  { T with timer := Function.update T.timer t x }

/-- The block that a timer is in is freed. What is found there later is not its links. -/
def free (t : TimerRef) (T : Timers) : Timers :=
  { T with active := T.active.forget (.item t), inactive := T.inactive.forget (.item t) }

def freeAll (ts : List TimerRef) (T : Timers) : Timers := ts.foldl (fun T t => T.free t) T

def isLinked (t : TimerRef) (T : Timers) : Bool :=
  T.active.isLinked (.item t) || T.inactive.isLinked (.item t)

/-- `timer_start`. -/
def timerStart (pcpu : PcpuId) (T : Timers) : Timers :=
  { T with hw := Function.update T.hw pcpu { T.hw pcpu with enabled := true } }

/-- `timer_stop`. -/
def timerStop (pcpu : PcpuId) (T : Timers) : Timers :=
  { T with hw := Function.update T.hw pcpu { T.hw pcpu with enabled := false } }

/-- `set_absolute` of `timer_ops`. -/
def setAbsolute (pcpu : PcpuId) (count : U64) (T : Timers) : Timers :=
  { T with hw := Function.update T.hw pcpu { T.hw pcpu with cval := some count } }

end Timers

open Timers

/-- `tm_register_timer`. -/
def tmRegisterTimer (pcpu : PcpuId) (t : TimerRef) (T : Timers) : Option Timers := do
  let active := T.active.inithead (.item t)
  let inactive := T.inactive.inithead (.item t)
  let T := T.setTimer t ⟨0, 0⟩
  let inactive ← inactive.addtail t pcpu
  some { T with active := active, inactive := inactive }

/-- `tm_activate_timer`. -/
def tmActivateTimer (pcpu : PcpuId) (t : TimerRef) (T : Timers) : Option Timers := do
  let T := T.setTimer t { T.timer t with state := 1 }
  let inactive ← T.inactive.delinit t
  let active ← T.active.addtail t pcpu
  some { T with active := active, inactive := inactive }

/-- `tm_deactivate_timer`. -/
def tmDeactivateTimer (pcpu : PcpuId) (t : TimerRef) (T : Timers) : Option Timers := do
  let T := T.setTimer t { T.timer t with state := 0 }
  let active ← T.active.delinit t
  let inactive ← T.inactive.addtail t pcpu
  some { T with active := active, inactive := inactive }

/-- The loop of `timer_maintenance` over the timers that it visits. -/
def nearest (timer : TimerRef → Timer) (ts : List TimerRef) : U64 :=
  ts.foldl (fun n t => if (timer t).expiration < n then (timer t).expiration else n)
    (BitVec.allOnes 64)

/-- `timer_maintenance`. -/
def timerMaintenance (fuel : ℕ) (conf : TimerConf) (pcpu : PcpuId) (T : Timers) :
    Option Timers :=
  (T.active.entries fuel pcpu).map fun ts =>
    T.setAbsolute pcpu (timerTimeToCountNs conf (nearest T.timer ts))

/-- `tm_set_timer`. -/
def tmSetTimer (fuel : ℕ) (conf : TimerConf) (pcpu : PcpuId) (t : TimerRef) (expiration : U64)
    (stopstart : Bool) (T : Timers) : Option Timers := do
  let T := if stopstart then T.timerStop pcpu else T
  let T ← tmDeactivateTimer pcpu t T
  let T := T.setTimer t { T.timer t with expiration := expiration }
  let T ← tmActivateTimer pcpu t T
  let T ← timerMaintenance fuel conf pcpu T
  some (if stopstart then T.timerStart pcpu else T)

/-- A callback, which may overwrite the expiration and change what lies outside the timers. It may
have no result. -/
abbrev TimerCallback (S : Type) := TimerRef → U64 → S → Option (U64 × S)

/-- The body of the loop of `timer_irq_handler`. -/
def fire {S : Type} (callback : TimerCallback S) (now : U64) (σ : Timers × S) (t : TimerRef) :
    Option (Timers × S) :=
  let x := σ.1.timer t
  if x.state = 1 ∧ x.expiration < now then
    (callback t x.expiration σ.2).map fun r =>
      (σ.1.setTimer t ⟨if r.1 = 0 then 0 else 1, r.1⟩, r.2)
  else some σ

/-- `timer_irq_handler`, where `count` is what `get_counter` answers. -/
def timerIrqHandler {S : Type} (fuel : ℕ) (conf : TimerConf) (pcpu : PcpuId) (count : U64)
    (callback : TimerCallback S) (σ : Timers × S) : Option (Timers × S) := do
  let T := σ.1.timerStop pcpu
  let now := timerCountToTimeNs conf count
  let ts ← T.active.entries fuel pcpu
  let (T, s) ← ts.foldlM (fire callback now) (T, σ.2)
  let T ← timerMaintenance fuel conf pcpu T
  some (T.timerStart pcpu, s)

/-- What a visit makes of the fields of the timers, and of what the callbacks change. -/
def visit {S : Type} (callback : TimerCallback S) (now : U64) (σ : (TimerRef → Timer) × S)
    (t : TimerRef) : Option ((TimerRef → Timer) × S) :=
  let x := σ.1 t
  if x.state = 1 ∧ x.expiration < now then
    (callback t x.expiration σ.2).map fun r =>
      (Function.update σ.1 t ⟨if r.1 = 0 then 0 else 1, r.1⟩, r.2)
  else some σ

/-! ## The timers that are visited -/

/-- The loop keeps the least of what it starts with and the expirations it meets. -/
theorem nearest_loop (timer : TimerRef → Timer) (ts : List TimerRef) (n : U64) :
    ∃ m, ts.foldl (fun n t => if (timer t).expiration < n then (timer t).expiration else n) n = m ∧
      m ≤ n ∧ (∀ t ∈ ts, m ≤ (timer t).expiration) ∧
      (m = n ∨ ∃ t ∈ ts, (timer t).expiration = m) := by
  induction ts generalizing n with
  | nil => exact ⟨n, rfl, BitVec.le_refl n, by simp, .inl rfl⟩
  | cons t ts ih =>
      rw [List.foldl_cons]
      by_cases hlt : (timer t).expiration < n
      · obtain ⟨m, hm, hle, hall, hmem⟩ := ih (timer t).expiration
        rw [if_pos hlt]
        refine ⟨m, hm, BitVec.le_trans hle (BitVec.le_of_lt hlt), ?_, .inr ?_⟩
        · exact List.forall_mem_cons.mpr ⟨hle, hall⟩
        · rcases hmem with rfl | ⟨t', ht', hexp⟩
          · exact ⟨t, List.mem_cons_self, rfl⟩
          · exact ⟨t', List.mem_cons_of_mem _ ht', hexp⟩
      · obtain ⟨m, hm, hle, hall, hmem⟩ := ih n
        rw [if_neg hlt]
        have hn : n ≤ (timer t).expiration := BitVec.not_lt.mp hlt
        refine ⟨m, hm, hle, ?_, hmem.imp_right ?_⟩
        · exact List.forall_mem_cons.mpr ⟨BitVec.le_trans hle hn, hall⟩
        · rintro ⟨t', ht', hexp⟩
          exact ⟨t', List.mem_cons_of_mem _ ht', hexp⟩

theorem nearest_spec (timer : TimerRef → Timer) (ts : List TimerRef) :
    (ts = [] ∧ nearest timer ts = BitVec.allOnes 64) ∨
      IsLeast {e | ∃ t ∈ ts, (timer t).expiration = e} (nearest timer ts) := by
  obtain ⟨m, hm, -, hall, hmem⟩ := nearest_loop timer ts (BitVec.allOnes 64)
  have hlower : ∀ e ∈ {e | ∃ t ∈ ts, (timer t).expiration = e}, m ≤ e := by
    rintro e ⟨t, ht, rfl⟩
    exact hall t ht
  rw [nearest, hm]
  rcases hmem with rfl | hmem
  · cases ts with
    | nil => exact .inl ⟨rfl, rfl⟩
    | cons t ts =>
        have hmax : (timer t).expiration = BitVec.allOnes 64 :=
          BitVec.allOnes_le_iff.mp (hall t List.mem_cons_self)
        exact .inr ⟨⟨t, List.mem_cons_self, hmax⟩, hlower⟩
  · exact .inr ⟨hmem, hlower⟩

/-- The loop of the interrupt handler works on the fields of the timers alone. -/
theorem foldlM_fire_eq {S : Type} (callback : TimerCallback S) (now : U64) (ts : List TimerRef)
    (T : Timers) (s : S) :
    ts.foldlM (fire callback now) (T, s) =
      (ts.foldlM (visit callback now) (T.timer, s)).map fun r =>
        ({ T with timer := r.1 }, r.2) := by
  induction ts generalizing T s with
  | nil => rfl
  | cons t ts ih =>
      have hfire : fire callback now (T, s) t =
          (visit callback now (T.timer, s) t).map fun r => ({ T with timer := r.1 }, r.2) := by
        rw [fire, visit]
        dsimp only
        split
        · rw [Option.map_map]
          rfl
        · rfl
      rw [List.foldlM_cons, List.foldlM_cons, hfire]
      cases visit callback now (T.timer, s) t with
      | none => rfl
      | some r => exact ih { T with timer := r.1 } r.2

/-- The handler visits the timers of the list, and programs the processor with the nearest of the
expirations that it leaves. -/
theorem timerIrqHandler_eq {S : Type} {T : Timers} {p : PcpuId} {ts : List TimerRef} {fuel : ℕ}
    (hlist : T.active.IsList p ts) (hfuel : ts.length ≤ fuel) (conf : TimerConf) (count : U64)
    (callback : TimerCallback S) (s : S) :
    timerIrqHandler fuel conf p count callback (T, s) =
      (ts.foldlM (visit callback (timerCountToTimeNs conf count)) (T.timer, s)).map fun r =>
        (timerStart p (setAbsolute p (timerTimeToCountNs conf (nearest r.1 ts))
          { T.timerStop p with timer := r.1 }), r.2) := by
  have hentries : (T.timerStop p).active.entries fuel p = some ts := entries_isList hlist hfuel
  have htimer : (T.timerStop p).timer = T.timer := rfl
  rw [timerIrqHandler]
  simp only [hentries, Option.bind_eq_bind, Option.bind_some, foldlM_fire_eq, htimer]
  cases ts.foldlM (visit callback (timerCountToTimeNs conf count)) (T.timer, s) with
  | none => rfl
  | some r =>
      simp only [Option.map_some, Option.bind_some, timerMaintenance, hentries]

def pureCallback (callback : TimerRef → U64 → U64) : TimerCallback Unit :=
  fun t e _ => some (callback t e, ())

/-- What a visit makes of a timer, if the callback answers by the expiration alone. -/
def Timer.fired (callback : U64 → U64) (now : U64) (x : Timer) : Timer :=
  if x.state = 1 ∧ x.expiration < now then
    ⟨if callback x.expiration = 0 then 0 else 1, callback x.expiration⟩
  else x

/-- A loop over different timers does to each what a visit does to it. -/
theorem foldlM_visit_pure (callback : TimerRef → U64 → U64) (now : U64) {ts : List TimerRef}
    (hnodup : ts.Nodup) (timer : TimerRef → Timer) :
    ts.foldlM (visit (pureCallback callback) now) (timer, ()) =
      some (fun t => if t ∈ ts then (timer t).fired (callback t) now else timer t, ()) := by
  induction ts generalizing timer with
  | nil => simp
  | cons t ts ih =>
      obtain ⟨ht, hnodup⟩ := List.nodup_cons.mp hnodup
      have hvisit : visit (pureCallback callback) now (timer, ()) t =
          some (Function.update timer t ((timer t).fired (callback t) now), ()) := by
        rw [visit, Timer.fired]
        dsimp only
        by_cases hdue : (timer t).state = 1 ∧ (timer t).expiration < now
        · rw [if_pos hdue, if_pos hdue, pureCallback, Option.map_some]
        · rw [if_neg hdue, if_neg hdue, Function.update_eq_self]
      rw [List.foldlM_cons, hvisit, Option.bind_eq_bind, Option.bind_some, ih hnodup]
      simp only [Option.some.injEq, Prod.mk.injEq, and_true]
      funext t'
      by_cases htt : t' = t
      · subst htt
        simp [ht]
      · simp [htt]

/-! ## The timers that are linked -/

/-- The links of the timers lie within `R`. -/
structure TimersWithin (R : Set TimerRef) (T : Timers) : Prop where
  active : T.active.Closed R
  inactive : T.inactive.Closed R

variable {R : Set TimerRef} {T T' : Timers}

theorem TimersWithin.of_eq (h : TimersWithin R T) (hactive : T'.active = T.active)
    (hinactive : T'.inactive = T.inactive) : TimersWithin R T' :=
  ⟨hactive ▸ h.active, hinactive ▸ h.inactive⟩

theorem TimersWithin.register (h : TimersWithin R T) {pcpu : PcpuId} {t : TimerRef}
    (hT : tmRegisterTimer pcpu t T = some T') : TimersWithin (insert t R) T' := by
  obtain ⟨L, hL, hT⟩ := Option.bind_eq_some_iff.mp hT
  obtain ⟨L', hL', hclosed⟩ := (h.inactive.inithead t).addtail (Set.mem_insert t R) pcpu
  rw [← Option.some.inj hT]
  exact ⟨h.active.inithead t, Option.some.inj (hL'.symm.trans hL) ▸ hclosed⟩

theorem TimersWithin.free (h : TimersWithin R T) {t : TimerRef} (ht : t ∉ R) :
    TimersWithin R (T.free t) :=
  ⟨h.active.forget ht, h.inactive.forget ht⟩

theorem isLinked_free_self (t : TimerRef) (T : Timers) : (T.free t).isLinked t = false := by
  rw [Timers.isLinked, free, isLinked_forget_self, isLinked_forget_self]
  rfl

theorem isLinked_free_of_ne {t t' : TimerRef} (ht : t' ≠ t) (T : Timers) :
    (T.free t).isLinked t' = T.isLinked t' := by
  have hne : Node.item (H := PcpuId) t' ≠ .item t := by simpa using ht
  rw [Timers.isLinked, Timers.isLinked, free, isLinked_forget_of_ne hne,
    isLinked_forget_of_ne hne]

theorem freeAll_concat (ts : List TimerRef) (t : TimerRef) (T : Timers) :
    T.freeAll (ts ++ [t]) = (T.freeAll ts).free t := by
  rw [freeAll, List.foldl_append]
  rfl

theorem TimersWithin.freeAll (h : TimersWithin R T) {ts : List TimerRef}
    (hts : ∀ t ∈ ts, t ∉ R) : TimersWithin R (T.freeAll ts) := by
  induction ts generalizing T with
  | nil => exact h
  | cons t ts ih =>
      obtain ⟨ht, hts⟩ := List.forall_mem_cons.mp hts
      exact ih (h.free ht) hts

theorem isLinked_freeAll_of_not_mem {ts : List TimerRef} {t : TimerRef} (ht : t ∉ ts)
    (T : Timers) : (T.freeAll ts).isLinked t = T.isLinked t := by
  induction ts generalizing T with
  | nil => rfl
  | cons t' ts ih =>
      obtain ⟨hne, ht⟩ := List.ne_and_not_mem_of_not_mem_cons ht
      exact (ih ht (T.free t')).trans (isLinked_free_of_ne hne T)

theorem isLinked_freeAll_of_mem {ts : List TimerRef} {t : TimerRef} (ht : t ∈ ts) (T : Timers) :
    (T.freeAll ts).isLinked t = false := by
  induction ts generalizing T with
  | nil => exact absurd ht List.not_mem_nil
  | cons t' ts ih =>
      by_cases hmem : t ∈ ts
      · exact ih hmem (T.free t')
      · obtain rfl := (List.mem_cons.mp ht).resolve_right hmem
        exact (isLinked_freeAll_of_not_mem hmem (T.free t)).trans (isLinked_free_self t T)

theorem TimersWithin.deactivate (h : TimersWithin R T) {pcpu : PcpuId} {t : TimerRef}
    (hT : tmDeactivateTimer pcpu t T = some T') : t ∈ R ∧ TimersWithin R T' := by
  obtain ⟨A, hA, hT⟩ := Option.bind_eq_some_iff.mp hT
  obtain ⟨I, hI, hT⟩ := Option.bind_eq_some_iff.mp hT
  have ht : t ∈ R := h.active.mem_of_delinit hA
  obtain ⟨A', hA', hclosed⟩ := h.active.delinit ht
  obtain ⟨I', hI', hclosed'⟩ := h.inactive.addtail ht pcpu
  rw [← Option.some.inj hT]
  exact ⟨ht, Option.some.inj (hA'.symm.trans hA) ▸ hclosed,
    Option.some.inj (hI'.symm.trans hI) ▸ hclosed'⟩

theorem TimersWithin.activate (h : TimersWithin R T) {pcpu : PcpuId} {t : TimerRef} (ht : t ∈ R)
    (hT : tmActivateTimer pcpu t T = some T') : TimersWithin R T' := by
  obtain ⟨I, hI, hT⟩ := Option.bind_eq_some_iff.mp hT
  obtain ⟨A, hA, hT⟩ := Option.bind_eq_some_iff.mp hT
  obtain ⟨I', hI', hclosed⟩ := h.inactive.delinit ht
  obtain ⟨A', hA', hclosed'⟩ := h.active.addtail ht pcpu
  rw [← Option.some.inj hT]
  exact ⟨Option.some.inj (hA'.symm.trans hA) ▸ hclosed',
    Option.some.inj (hI'.symm.trans hI) ▸ hclosed⟩

/-- `timer_maintenance` leaves the lists alone. -/
theorem timerMaintenance_links {fuel : ℕ} {conf : TimerConf} {pcpu : PcpuId}
    (hT : timerMaintenance fuel conf pcpu T = some T') :
    T'.active = T.active ∧ T'.inactive = T.inactive := by
  obtain ⟨ts, -, rfl⟩ := Option.map_eq_some_iff.mp hT
  exact ⟨rfl, rfl⟩

theorem TimersWithin.set (h : TimersWithin R T) {fuel : ℕ} {conf : TimerConf} {pcpu : PcpuId}
    {t : TimerRef} {expiration : U64} {stopstart : Bool}
    (hT : tmSetTimer fuel conf pcpu t expiration stopstart T = some T') : TimersWithin R T' := by
  obtain ⟨T₁, h₁, hT⟩ := Option.bind_eq_some_iff.mp hT
  obtain ⟨T₂, h₂, hT⟩ := Option.bind_eq_some_iff.mp hT
  obtain ⟨T₃, h₃, hT⟩ := Option.bind_eq_some_iff.mp hT
  have hstart : TimersWithin R (if stopstart then T.timerStop pcpu else T) :=
    h.of_eq (by split <;> rfl) (by split <;> rfl)
  obtain ⟨ht, hwithin₁⟩ := hstart.deactivate h₁
  have hset : TimersWithin R (T₁.setTimer t { T₁.timer t with expiration := expiration }) :=
    hwithin₁.of_eq rfl rfl
  have hwithin₂ := hset.activate ht h₂
  obtain ⟨hactive, hinactive⟩ := timerMaintenance_links h₃
  refine (hwithin₂.of_eq hactive hinactive).of_eq ?_ ?_
  · rw [← Option.some.inj hT]
    split <;> rfl
  · rw [← Option.some.inj hT]
    split <;> rfl

section

variable {S : Type} {callback : TimerCallback S} {P : S → Prop}
  (hcallback : ∀ t e u r, P u → callback t e u = some r → P r.2)

include hcallback

/-- The loop of the interrupt handler leaves the lists alone, and keeps what the callbacks keep. -/
theorem foldlM_fire_links {now : U64} {ts : List TimerRef} {σ σ' : Timers × S} (hP : P σ.2)
    (h : ts.foldlM (fire callback now) σ = some σ') :
    σ'.1.active = σ.1.active ∧ σ'.1.inactive = σ.1.inactive ∧ P σ'.2 := by
  induction ts generalizing σ with
  | nil =>
      rw [← Option.some.inj h]
      exact ⟨rfl, rfl, hP⟩
  | cons t ts ih =>
      rw [List.foldlM_cons] at h
      obtain ⟨τ, hfire, hrest⟩ := Option.bind_eq_some_iff.mp h
      have hstep : τ.1.active = σ.1.active ∧ τ.1.inactive = σ.1.inactive ∧ P τ.2 := by
        rw [fire] at hfire
        split at hfire
        · obtain ⟨r, hr, rfl⟩ := Option.map_eq_some_iff.mp hfire
          exact ⟨rfl, rfl, hcallback t _ _ r hP hr⟩
        · rw [← Option.some.inj hfire]
          exact ⟨rfl, rfl, hP⟩
      obtain ⟨hactive, hinactive, hlast⟩ := ih hstep.2.2 hrest
      exact ⟨hactive.trans hstep.1, hinactive.trans hstep.2.1, hlast⟩

theorem timerIrqHandler_links {fuel : ℕ} {conf : TimerConf} {pcpu : PcpuId} {count : U64}
    {s s' : S} (hP : P s)
    (h : timerIrqHandler fuel conf pcpu count callback (T, s) = some (T', s')) :
    T'.active = T.active ∧ T'.inactive = T.inactive ∧ P s' := by
  obtain ⟨ts, -, hrest⟩ := Option.bind_eq_some_iff.mp h
  obtain ⟨σ, hloop, hrest⟩ := Option.bind_eq_some_iff.mp hrest
  obtain ⟨T₁, hmaintenance, hrest⟩ := Option.bind_eq_some_iff.mp hrest
  obtain ⟨rfl, rfl⟩ := Prod.mk.inj (Option.some.inj hrest)
  obtain ⟨hactive, hinactive, hlast⟩ := foldlM_fire_links hcallback hP hloop
  obtain ⟨hactive', hinactive'⟩ := timerMaintenance_links hmaintenance
  exact ⟨hactive'.trans hactive, hinactive'.trans hinactive, hlast⟩

end

end KHypervisor
