import KHypervisor.Lib.Run
import KHypervisor.Timer.Timers

/-!
# The programmed deadline

Whether a timer is armed is kept twice, by its state and by the list that it is in. The processor
is programmed with the nearest expiration in the list. The interrupt handler takes a timer whose
callback returns zero out of the armed state and leaves it in the list, where its zero is the
nearest expiration from then on; as long as no callback does, the two agree:
`deadline_follows`.
-/

namespace KHypervisor

open Run Links

/-- The timers and, for the statements only, the processors that the timers were last set or
registered on. -/
structure TimerTrace where
  timers : Timers
  home : TimerRef → Option PcpuId

/-- The operations on the timers, with the processors that execute them. The handler of an
interrupt comes with the counter and with what the callbacks make of the expirations. -/
inductive TimerEvent
  | register (pcpu : PcpuId) (t : TimerRef)
  | set (pcpu : PcpuId) (t : TimerRef) (expiration : U64) (stopstart : Bool)
  | irq (pcpu : PcpuId) (count : U64) (callback : TimerRef → U64 → U64)

def timerStep (fuel : ℕ) (conf : TimerConf) (σ : TimerTrace) : TimerEvent → Option TimerTrace
  | .register p t =>
      (tmRegisterTimer p t σ.timers).map fun T => ⟨T, Function.update σ.home t (some p)⟩
  | .set p t expiration stopstart =>
      (tmSetTimer fuel conf p t expiration stopstart σ.timers).map fun T =>
        ⟨T, Function.update σ.home t (some p)⟩
  | .irq p count callback =>
      (timerIrqHandler fuel conf p count (pureCallback callback) (σ.timers, ())).map fun r =>
        { σ with timers := r.1 }

/-- The state after `timemanager_init`. -/
def TimerTrace.init (timer : TimerRef → Timer) (hw : PcpuId → TimerHw) : TimerTrace :=
  ⟨Timers.init timer hw, fun _ => none⟩

/-- The timer is armed, and was set on this processor. -/
def ArmedOn (σ : TimerTrace) (p : PcpuId) (t : TimerRef) : Prop :=
  σ.home t = some p ∧ (σ.timers.timer t).state = 1

/-- The earliest expiration of the timers that are armed on a processor, or the end of time. -/
def EarliestArmed (σ : TimerTrace) (p : PcpuId) (m : U64) : Prop :=
  IsLeast {e | ∃ t, ArmedOn σ p t ∧ (σ.timers.timer t).expiration = e} m ∨
    ((∀ t, ¬ ArmedOn σ p t) ∧ m = BitVec.allOnes 64)

/-- The processor is programmed with the earliest expiration. -/
def Programmed (conf : TimerConf) (σ : TimerTrace) (p : PcpuId) : Prop :=
  ∃ m, EarliestArmed σ p m ∧ (σ.timers.hw p).cval = some (timerTimeToCountNs conf m)

/-- To set a timer programs the processor, and so does to handle an interrupt. -/
def DeadlineLaw (conf : TimerConf) (_ : TimerTrace) (e : TimerEvent) (σ : TimerTrace) : Prop :=
  match e with
  | .register .. => True
  | .set p .. => Programmed conf σ p
  | .irq p .. => Programmed conf σ p

/-- A timer is registered again while it is armed, or set before it is registered, or finished by
its callback. -/
def Upsets (conf : TimerConf) (σ : TimerTrace) : TimerEvent → Prop
  | .register _ t => ∃ p, ArmedOn σ p t
  | .set _ t _ _ => σ.home t = none
  | .irq p count callback => ∃ t, ArmedOn σ p t ∧
      (σ.timers.timer t).expiration < timerCountToTimeNs conf count ∧
      callback t (σ.timers.timer t).expiration = 0

/-- The active lists hold registered timers only, and a registered timer that is in none of them is
alone. The links of the inactive lists do not lead to timers that were never registered. No list is
longer than `n`. -/
structure ActiveInv (n : ℕ) (σ : TimerTrace) (active : PcpuId → List TimerRef) : Prop where
  lists : σ.timers.active.Lists active
  home : ∀ p t, t ∈ active p → σ.home t ≠ none
  alone : ∀ t, σ.home t ≠ none → (∀ p, t ∉ active p) → σ.timers.active.Alone t
  inactive : σ.timers.inactive.Closed {t | σ.home t ≠ none}
  length : ∀ p, (active p).length ≤ n

/-- The active lists hold the timers that are armed, and the links of the inactive lists do not
lead to timers that were never registered. No list is longer than `n`. -/
structure TimerInv (n : ℕ) (σ : TimerTrace) (active : PcpuId → List TimerRef) : Prop where
  lists : σ.timers.active.Lists active
  armed : ∀ p t, t ∈ active p ↔ ArmedOn σ p t
  alone : ∀ t, σ.home t ≠ none → (∀ p, t ∉ active p) → σ.timers.active.Alone t
  inactive : σ.timers.inactive.Closed {t | σ.home t ≠ none}
  length : ∀ p, (active p).length ≤ n

variable {fuel n : ℕ} {conf : TimerConf} {σ : TimerTrace} {active : PcpuId → List TimerRef}
  {T : Timers} {t : TimerRef} {p : PcpuId}

theorem activeInv_init (timer : TimerRef → Timer) (hw : PcpuId → TimerHw) :
    ActiveInv 0 (.init timer hw) fun _ => [] := by
  refine ⟨lists_empty, fun _ _ ht => absurd ht List.not_mem_nil, fun t ht => absurd rfl ht, ?_,
    fun p => Nat.le_refl 0⟩
  have hnone : {t | (TimerTrace.init timer hw).home t ≠ none} = ∅ := by
    simp [TimerTrace.init]
  rw [hnone]
  exact closed_empty

theorem TimerInv.activeInv (h : TimerInv n σ active) : ActiveInv n σ active :=
  ⟨h.lists, fun p t ht => by simp [((h.armed p t).mp ht).1], h.alone, h.inactive, h.length⟩

theorem ActiveInv.timerInv (h : ActiveInv n σ active)
    (harmed : ∀ p t, t ∈ active p ↔ ArmedOn σ p t) : TimerInv n σ active :=
  ⟨h.lists, harmed, h.alone, h.inactive, h.length⟩

theorem timerInv_init (timer : TimerRef → Timer) (hw : PcpuId → TimerHw) :
    TimerInv 0 (.init timer hw) fun _ => [] :=
  (activeInv_init timer hw).timerInv (by simp [ArmedOn, TimerTrace.init])

/-- Where the list holds the timers that are armed, the nearest expiration in it is the earliest
one. -/
theorem earliestArmed_nearest {ts : List TimerRef} (hts : ∀ t, t ∈ ts ↔ ArmedOn σ p t) :
    EarliestArmed σ p (nearest σ.timers.timer ts) := by
  rcases nearest_spec σ.timers.timer ts with ⟨rfl, hend⟩ | hleast
  · exact .inr ⟨fun t ht => absurd ((hts t).mpr ht) List.not_mem_nil, hend⟩
  · simp only [hts] at hleast
    exact .inl hleast

/-- The lists after a timer has been taken out of its list and put at the end of one. -/
def placed (active : PcpuId → List TimerRef) (p : PcpuId) (t : TimerRef) :
    PcpuId → List TimerRef :=
  Function.update (fun q => (active q).erase t) p ((active p).erase t ++ [t])

theorem mem_placed (hL : T.active.Lists active) {q : PcpuId} {t' : TimerRef} :
    t' ∈ placed active p t q ↔ if t' = t then q = p else t' ∈ active q := by
  have herase : ∀ q, t' ∈ (active q).erase t ↔ t' ≠ t ∧ t' ∈ active q := fun q =>
    (hL.isList q).nodup.mem_erase_iff
  by_cases hq : q = p
  · subst hq
    rw [placed, Function.update_self, List.mem_append, herase, List.mem_singleton]
    by_cases ht : t' = t <;> simp [ht]
  · rw [placed, Function.update_of_ne hq, herase]
    by_cases ht : t' = t <;> simp [ht, hq]

theorem length_placed (h : ∀ q, (active q).length ≤ n) (q : PcpuId) :
    (placed active p t q).length ≤ n + 1 := by
  have herase : ∀ q, ((active q).erase t).length ≤ n := fun q =>
    (List.length_erase_le ..).trans (h q)
  by_cases hq : q = p
  · subst hq
    rw [placed, Function.update_self, List.length_append]
    exact Nat.succ_le_succ (herase q)
  · rw [placed, Function.update_of_ne hq]
    exact (herase q).trans (Nat.le_succ n)

theorem timerMaintenance_some (hL : T.active.Lists active) (hfuel : (active p).length ≤ fuel) :
    timerMaintenance fuel conf p T =
      some (T.setAbsolute p (timerTimeToCountNs conf (nearest T.timer (active p)))) := by
  rw [timerMaintenance, entries_isList (hL.isList p) hfuel, Option.map_some]

/-! ## The operations -/

theorem tmRegisterTimer_some {R : Set TimerRef} (hL : T.active.Lists active)
    (ht : ∀ q, t ∉ active q) (hR : T.inactive.Closed R) (p : PcpuId) :
    ∃ T', tmRegisterTimer p t T = some T' ∧ T'.active.Lists active ∧
      (∀ t', t' = t ∨ T.active.Alone t' → T'.active.Alone t') ∧
      T'.inactive.Closed (insert t R) ∧ T'.timer = Function.update T.timer t ⟨0, 0⟩ ∧
      T'.hw = T.hw := by
  obtain ⟨hlists, halone, hothers⟩ := hL.inithead ht
  obtain ⟨inactive, hadd, hclosed⟩ := (hR.inithead t).addtail (Set.mem_insert t R) p
  refine ⟨⟨_, inactive, _, _⟩, ?_, hlists, fun t' ht' => ?_, hclosed, rfl, rfl⟩
  · rw [tmRegisterTimer, hadd]
    rfl
  · rcases ht' with rfl | ht'
    · exact halone
    · exact hothers t' ht'

theorem tmDeactivateTimer_some {R : Set TimerRef} (hL : T.active.Lists active)
    (ht : (∃ q, t ∈ active q) ∨ T.active.Alone t) (hR : T.inactive.Closed R) (htR : t ∈ R)
    (p : PcpuId) :
    ∃ T', tmDeactivateTimer p t T = some T' ∧ T'.active.Lists (fun q => (active q).erase t) ∧
      (∀ t', t' = t ∨ T.active.Alone t' → T'.active.Alone t') ∧ T'.inactive.Closed R ∧
      T'.timer = Function.update T.timer t { T.timer t with state := 0 } ∧ T'.hw = T.hw := by
  obtain ⟨L, hdel, hlists, halone, hothers⟩ := hL.delinit ht
  obtain ⟨inactive, hadd, hclosed⟩ := hR.addtail htR p
  refine ⟨⟨L, inactive, _, _⟩, ?_, hlists, fun t' ht' => ?_, hclosed, rfl, rfl⟩
  · rw [tmDeactivateTimer, Timers.setTimer]
    dsimp only
    rw [hdel, hadd]
    rfl
  · rcases ht' with rfl | ht'
    · exact halone
    · exact hothers t' ht'

theorem tmActivateTimer_some {R : Set TimerRef} (hL : T.active.Lists active)
    (ht : T.active.Alone t) (hR : T.inactive.Closed R) (htR : t ∈ R) (p : PcpuId) :
    ∃ T', tmActivateTimer p t T = some T' ∧
      T'.active.Lists (Function.update active p (active p ++ [t])) ∧
      (∀ t', t' ≠ t → T.active.Alone t' → T'.active.Alone t') ∧ T'.inactive.Closed R ∧
      T'.timer = Function.update T.timer t { T.timer t with state := 1 } ∧ T'.hw = T.hw := by
  obtain ⟨L, hadd, hlists, hothers⟩ := hL.addtail ht p
  obtain ⟨inactive, hdel, hclosed⟩ := hR.delinit htR
  refine ⟨⟨L, inactive, _, _⟩, ?_, hlists, hothers, hclosed, rfl, rfl⟩
  rw [tmActivateTimer, Timers.setTimer]
  dsimp only
  rw [hdel, hadd]
  rfl

/-- A timer that has been set is at the end of the list of the processor, which is programmed with
the nearest expiration in it. -/
theorem tmSetTimer_some (conf : TimerConf) {R : Set TimerRef} (hL : T.active.Lists active)
    (ht : (∃ q, t ∈ active q) ∨ T.active.Alone t) (hR : T.inactive.Closed R) (htR : t ∈ R)
    (hfuel : (placed active p t p).length ≤ fuel) (expiration : U64) (stopstart : Bool) :
    ∃ T', tmSetTimer fuel conf p t expiration stopstart T = some T' ∧
      T'.active.Lists (placed active p t) ∧
      (∀ t', t' ≠ t → T.active.Alone t' → T'.active.Alone t') ∧ T'.inactive.Closed R ∧
      T'.timer = Function.update T.timer t ⟨1, expiration⟩ ∧
      (T'.hw p).cval = some (timerTimeToCountNs conf (nearest T'.timer (placed active p t p))) := by
  generalize hstop : (if stopstart then T.timerStop p else T) = T₀
  have hsame : T₀.active = T.active ∧ T₀.inactive = T.inactive ∧ T₀.timer = T.timer := by
    rw [← hstop]
    cases stopstart <;> exact ⟨rfl, rfl, rfl⟩
  obtain ⟨hactive, hinactive, htimer⟩ := hsame
  rw [← hactive] at hL ht ⊢
  rw [← hinactive] at hR
  obtain ⟨T₁, h₁, hL₁, halone₁, hR₁, htimer₁, -⟩ := tmDeactivateTimer_some hL ht hR htR p
  generalize hset : T₁.setTimer t { T₁.timer t with expiration := expiration } = T₂
  obtain ⟨T₃, h₃, hL₃, halone₃, hR₃, htimer₃, -⟩ :=
    tmActivateTimer_some (T := T₂) (t := t) (R := R)
      (show T₂.active.Lists fun q => (active q).erase t by rw [← hset]; exact hL₁)
      (by rw [← hset]; exact halone₁ t (.inl rfl)) (by rw [← hset]; exact hR₁) htR p
  have h₄ : timerMaintenance fuel conf p T₃ = _ := timerMaintenance_some hL₃ hfuel
  have hnew : T₃.timer = Function.update T.timer t ⟨1, expiration⟩ := by
    rw [htimer₃, ← hset, Timers.setTimer, htimer₁, htimer]
    simp
  have hothers : ∀ t', t' ≠ t → T₀.active.Alone t' → T₃.active.Alone t' := fun t' hne ha =>
    halone₃ t' hne (by rw [← hset]; exact halone₁ t' (.inr ha))
  generalize hprog : T₃.setAbsolute p (timerTimeToCountNs conf (nearest T₃.timer _)) = T₄ at h₄
  have hlast : tmSetTimer fuel conf p t expiration stopstart T =
      some (if stopstart then T₄.timerStart p else T₄) := by
    rw [tmSetTimer, hstop, h₁]
    simp only [Option.bind_eq_bind, Option.bind_some, hset, h₃, h₄]
  have hcval : (T₄.hw p).cval =
      some (timerTimeToCountNs conf (nearest T₄.timer (placed active p t p))) := by
    rw [← hprog, Timers.setAbsolute]
    dsimp only
    rw [Function.update_self]
    rfl
  have hkeep : T₄.active = T₃.active ∧ T₄.inactive = T₃.inactive ∧ T₄.timer = T₃.timer := by
    rw [← hprog]
    exact ⟨rfl, rfl, rfl⟩
  obtain ⟨hactive₄, hinactive₄, htimer₄⟩ := hkeep
  rw [← hactive₄] at hL₃ hothers
  rw [← hinactive₄] at hR₃
  rw [← htimer₄] at hnew
  refine ⟨_, hlast, ?_⟩
  cases stopstart with
  | false => exact ⟨hL₃, hothers, hR₃, hnew, hcval⟩
  | true =>
      refine ⟨hL₃, hothers, hR₃, hnew, ?_⟩
      rw [if_pos rfl, Timers.timerStart]
      dsimp only
      rw [Function.update_self]
      exact hcval

/-- The handler of an interrupt visits the timers of the list, leaves the lists as they are, and
programs the processor with the nearest of the expirations that it leaves. -/
theorem timerIrqHandler_some (conf : TimerConf) (hL : T.active.Lists active)
    (hfuel : (active p).length ≤ fuel) (count : U64) (callback : TimerRef → U64 → U64) :
    ∃ T', timerIrqHandler fuel conf p count (pureCallback callback) (T, ()) = some (T', ()) ∧
      T'.active = T.active ∧ T'.inactive = T.inactive ∧
      (∀ t, T'.timer t = if t ∈ active p then
        (T.timer t).fired (callback t) (timerCountToTimeNs conf count) else T.timer t) ∧
      (T'.hw p).cval = some (timerTimeToCountNs conf (nearest T'.timer (active p))) := by
  have hloop := foldlM_visit_pure callback (timerCountToTimeNs conf count) (hL.isList p).nodup
    T.timer
  have hirq := timerIrqHandler_eq (hL.isList p) hfuel conf count (pureCallback callback) ()
  rw [hloop, Option.map_some] at hirq
  exact ⟨_, hirq, rfl, rfl, fun _ => rfl, by simp [Timers.timerStart, Timers.setAbsolute]⟩

/-! ## The invariant -/

theorem registered_update (home : TimerRef → Option PcpuId) (t : TimerRef) (p : PcpuId) :
    {t' | Function.update home t (some p) t' ≠ none} = insert t {t' | home t' ≠ none} := by
  ext t'
  by_cases ht : t' = t <;> simp [ht]

theorem ActiveInv.register (h : ActiveInv n σ active) (fuel : ℕ) (conf : TimerConf) (p : PcpuId)
    (hnot : ∀ q, t ∉ active q) :
    ∃ T, timerStep fuel conf σ (.register p t) = some ⟨T, Function.update σ.home t (some p)⟩ ∧
      ActiveInv (n + 1) ⟨T, Function.update σ.home t (some p)⟩ active ∧
      T.timer = Function.update σ.timers.timer t ⟨0, 0⟩ := by
  obtain ⟨T, hT, hlists, halone, hclosed, htimer, -⟩ :=
    tmRegisterTimer_some h.lists hnot h.inactive p
  refine ⟨T, by rw [timerStep, hT, Option.map_some], ⟨hlists, fun q t' hq => ?_,
    fun t' ht' hout => ?_, ?_, fun q => (h.length q).trans (Nat.le_succ n)⟩, htimer⟩
  · have htt : t' ≠ t := fun htt => hnot q (htt ▸ hq)
    simpa [htt] using h.home q t' hq
  · by_cases htt : t' = t
    · exact halone t' (.inl htt)
    · exact halone t' (.inr (h.alone t' (by simpa [htt] using ht') hout))
  · rw [registered_update]
    exact hclosed

theorem ActiveInv.set (h : ActiveInv n σ active) (conf : TimerConf) (ht : σ.home t ≠ none)
    (hfuel : (placed active p t p).length ≤ fuel) (expiration : U64) (stopstart : Bool) :
    ∃ T, timerStep fuel conf σ (.set p t expiration stopstart) =
        some ⟨T, Function.update σ.home t (some p)⟩ ∧
      ActiveInv (n + 1) ⟨T, Function.update σ.home t (some p)⟩ (placed active p t) ∧
      T.timer = Function.update σ.timers.timer t ⟨1, expiration⟩ ∧
      (T.hw p).cval = some (timerTimeToCountNs conf (nearest T.timer (placed active p t p))) := by
  have hwhere : (∃ q, t ∈ active q) ∨ σ.timers.active.Alone t := by
    by_cases hmem : ∃ q, t ∈ active q
    · exact .inl hmem
    · exact .inr (h.alone t ht fun q hq => hmem ⟨q, hq⟩)
  obtain ⟨T, hT, hlists, halone, hclosed, htimer, hcval⟩ :=
    tmSetTimer_some conf h.lists hwhere h.inactive ht hfuel expiration stopstart
  refine ⟨T, by rw [timerStep, hT, Option.map_some], ⟨hlists, fun q t' hq => ?_,
    fun t' ht' hout => ?_, ?_, length_placed h.length⟩, htimer, hcval⟩
  · by_cases htt : t' = t
    · simp [htt]
    · rw [mem_placed h.lists, if_neg htt] at hq
      simpa [htt] using h.home q t' hq
  · have htt : t' ≠ t := by
      rintro rfl
      exact hout p ((mem_placed h.lists).mpr (by rw [if_pos rfl]))
    refine halone t' htt (h.alone t' (by simpa [htt] using ht') fun q hq => ?_)
    exact hout q ((mem_placed h.lists).mpr (by rwa [if_neg htt]))
  · rw [registered_update, Set.insert_eq_of_mem ht]
    exact hclosed

theorem ActiveInv.irq (h : ActiveInv n σ active) (conf : TimerConf)
    (hfuel : (active p).length ≤ fuel) (count : U64) (callback : TimerRef → U64 → U64) :
    ∃ T, timerStep fuel conf σ (.irq p count callback) = some { σ with timers := T } ∧
      ActiveInv (n + 1) { σ with timers := T } active ∧
      (∀ t, T.timer t = if t ∈ active p then
        (σ.timers.timer t).fired (callback t) (timerCountToTimeNs conf count)
        else σ.timers.timer t) ∧
      (T.hw p).cval = some (timerTimeToCountNs conf (nearest T.timer (active p))) := by
  obtain ⟨T, hT, hactive, hinactive, htimer, hcval⟩ :=
    timerIrqHandler_some conf h.lists hfuel count callback
  refine ⟨T, by rw [timerStep, hT, Option.map_some], ⟨?_, h.home, fun t ht hout => ?_, ?_,
    fun q => (h.length q).trans (Nat.le_succ n)⟩, htimer, hcval⟩
  · dsimp only
    rw [hactive]
    exact h.lists
  · dsimp only
    rw [hactive]
    exact h.alone t ht hout
  · dsimp only
    rw [hinactive]
    exact h.inactive

theorem TimerInv.register (h : TimerInv n σ active) (ht : ¬ ∃ q, ArmedOn σ q t) :
    ∃ τ, timerStep fuel conf σ (.register p t) = some τ ∧ TimerInv (n + 1) τ active := by
  have hnot : ∀ q, t ∉ active q := fun q hmem => ht ⟨q, (h.armed q t).mp hmem⟩
  obtain ⟨T, hstep, hinv, htimer⟩ := h.activeInv.register fuel conf p hnot
  refine ⟨_, hstep, hinv.timerInv fun q t' => ?_⟩
  by_cases htt : t' = t
  · subst htt
    simp [hnot q, ArmedOn, htimer]
  · simp [h.armed q t', ArmedOn, htimer, htt]

theorem TimerInv.set (h : TimerInv n σ active) (ht : σ.home t ≠ none) (hfuel : n < fuel)
    (expiration : U64) (stopstart : Bool) :
    ∃ τ, timerStep fuel conf σ (.set p t expiration stopstart) = some τ ∧
      Programmed conf τ p ∧ TimerInv (n + 1) τ (placed active p t) := by
  obtain ⟨T, hstep, hinv, htimer, hcval⟩ :=
    h.activeInv.set conf ht ((length_placed h.length p).trans hfuel) expiration stopstart
  have harmed : ∀ q t', t' ∈ placed active p t q ↔
      ArmedOn ⟨T, Function.update σ.home t (some p)⟩ q t' := by
    intro q t'
    rw [mem_placed h.lists]
    by_cases htt : t' = t
    · subst htt
      simp [ArmedOn, htimer, eq_comm]
    · simp [h.armed q t', ArmedOn, htimer, htt]
  exact ⟨_, hstep, ⟨_, earliestArmed_nearest (harmed p), hcval⟩, hinv.timerInv harmed⟩

/-- A timer whose callback does not return zero is armed afterwards if it was before. -/
theorem fired_state {callback : U64 → U64} {now : U64} {x : Timer}
    (h : x.state = 1 → x.expiration < now → callback x.expiration ≠ 0) :
    (x.fired callback now).state = x.state := by
  rw [Timer.fired]
  by_cases hdue : x.state = 1 ∧ x.expiration < now
  · rw [if_pos hdue, if_neg (h hdue.1 hdue.2), hdue.1]
  · rw [if_neg hdue]

theorem TimerInv.irq (h : TimerInv n σ active) {count : U64} {callback : TimerRef → U64 → U64}
    (hcb : ¬ Upsets conf σ (.irq p count callback)) (hfuel : n ≤ fuel) :
    ∃ τ, timerStep fuel conf σ (.irq p count callback) = some τ ∧
      Programmed conf τ p ∧ TimerInv (n + 1) τ active := by
  obtain ⟨T, hstep, hinv, htimer, hcval⟩ :=
    h.activeInv.irq conf ((h.length p).trans hfuel) count callback
  have hstate : ∀ t, (T.timer t).state = (σ.timers.timer t).state := by
    intro t
    rw [htimer]
    by_cases ht : t ∈ active p
    · rw [if_pos ht]
      exact fired_state fun _ hdue hzero => hcb ⟨t, (h.armed p t).mp ht, hdue, hzero⟩
    · rw [if_neg ht]
  have harmed : ∀ q t, t ∈ active q ↔ ArmedOn { σ with timers := T } q t := by
    intro q t
    rw [h.armed, ArmedOn, ArmedOn, hstate]
  exact ⟨_, hstep, ⟨_, earliestArmed_nearest (harmed p), hcval⟩, hinv.timerInv harmed⟩

/-- Unless a timer is registered while it is armed, set before it is registered or finished by its
callback, every step programs the processor that it is executed on with the earliest expiration
of the timers that are armed there. -/
theorem deadline_follows (conf : TimerConf) (timer : TimerRef → Timer) (hw : PcpuId → TimerHw)
    {fuel : ℕ} {es : List TimerEvent} (hfuel : es.length ≤ fuel)
    (hes : ¬ Happened (timerStep fuel conf) (Upsets conf) (.init timer hw) es) :
    Follows (timerStep fuel conf) (DeadlineLaw conf) (.init timer hw) es := by
  refine follows_unless (I := fun n σ => ∃ active, TimerInv n σ active)
    ⟨_, timerInv_init timer hw⟩ hes fun n hn σ e _ hinv hnot => ?_
  obtain ⟨active, hinv⟩ := hinv
  have hlt : n < fuel := by omega
  cases e with
  | register p t =>
      obtain ⟨τ, hτ, hnext⟩ := hinv.register hnot
      exact ⟨τ, hτ, trivial, active, hnext⟩
  | set p t expiration stopstart =>
      obtain ⟨τ, hτ, hlaw, hnext⟩ := hinv.set hnot hlt expiration stopstart
      exact ⟨τ, hτ, hlaw, _, hnext⟩
  | irq p count callback =>
      obtain ⟨τ, hτ, hlaw, hnext⟩ := hinv.irq hnot hlt.le
      exact ⟨τ, hτ, hlaw, active, hnext⟩

/-- The timer of a scheduler, which is registered, set and fires once. -/
theorem deadline_follows_sched :
    Follows (timerStep 3 ⟨10, false⟩) (DeadlineLaw ⟨10, false⟩) (.init default default)
      [.register 0 (.sched 0), .set 0 (.sched 0) 5 true, .irq 0 1 fun _ _ => 2000] := by
  refine deadline_follows _ _ _ (by decide) fun h => ?_
  rcases h with ⟨p, hp⟩ | ⟨σ, hσ, h⟩
  · simp [TimerTrace.init, ArmedOn] at hp
  · obtain rfl := Option.some.inj hσ
    rcases h with h | ⟨σ, hσ, h⟩
    · simp [Upsets, TimerTrace.init] at h
    · rcases h with ⟨t, -, -, hzero⟩ | ⟨_, -, h⟩
      · simp at hzero
      · exact h

/-- A timer that is set and then finished by its callback, as that of a virtual timer is, leaves
the processor programmed with zero although no timer is armed. -/
theorem finished_timer_programs_zero :
    ∃ τ, run (timerStep 3 ⟨10, false⟩) (.init default default)
        [.register 0 (.vtimer 0), .set 0 (.vtimer 0) 5 true, .irq 0 1 fun _ _ => 0] = some τ ∧
      (τ.timers.hw 0).cval = some 0 ∧ (∀ t, ¬ ArmedOn τ 0 t) ∧
      ¬ Follows (timerStep 3 ⟨10, false⟩) (DeadlineLaw ⟨10, false⟩) (.init default default)
        [.register 0 (.vtimer 0), .set 0 (.vtimer 0) 5 true, .irq 0 1 fun _ _ => 0] := by
  have hidle : ∀ τ, run (timerStep 3 ⟨10, false⟩) (.init default default)
      [.register 0 (.vtimer 0), .set 0 (.vtimer 0) 5 true, .irq 0 1 fun _ _ => 0] = some τ →
      ∀ t, ¬ ArmedOn τ 0 t := by
    intro τ hτ t ht
    obtain rfl := Option.some.inj hτ
    by_cases hne : t = .vtimer 0
    · subst hne
      exact absurd ht.2 (by decide)
    · have hhome : Function.update (Function.update (fun _ => none) (.vtimer 0) (some 0))
          (.vtimer 0) (some 0) t = some 0 := ht.1
      simp [hne] at hhome
  refine ⟨_, rfl, rfl, hidle _ rfl, ?_⟩
  rintro ⟨σ₁, h₁, -, σ₂, h₂, -, σ₃, h₃, ⟨m, hm, hcval⟩, -⟩
  obtain rfl := Option.some.inj h₁
  obtain rfl := Option.some.inj h₂
  obtain rfl := Option.some.inj h₃
  rcases hm with ⟨⟨t, ht, -⟩, -⟩ | ⟨-, rfl⟩
  · exact hidle _ rfl t ht
  · exact absurd hcval (by decide)

end KHypervisor
