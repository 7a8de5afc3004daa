import KHypervisor.Timer.ListIntegrity
import KHypervisor.Timer.Service
import KHypervisor.Vdev.TimerView

/-!
# Guest timers that fire early

The software timer of a guest is set to its compare value and the offset, added and multiplied by
the resolution modulo 2^64. A sum whose product does not fit wraps to a time in the past, and the
next interrupt calls the guest's handler, unless the product wraps to the last tick that the
counter can have: `neverEarly_iff`.
-/

namespace KHypervisor

open Run Links

inductive CompareWrite
  | tval (x : U32)
  | cval (rt : U32 × U32)

namespace CompareWrite

/-- The timer that a write leaves, and the time that it sets the software timer to. -/
def access (conf : TimerConf) (c : U64) (v : VdevTimer) : CompareWrite → VdevTimer × Option U64
  | .tval x =>
      let r := vdevTimerAccess32 conf c false Cp32.cntpTval.code x v
      (r.v, r.expiration)
  | .cval rt =>
      let r := vdevTimerAccess64 conf c false Cp64.cntpCval.code rt v
      (r.v, r.expiration)

/-- The compare value that is written, at counter `c` with offset `off`. -/
def value (c off : U64) : CompareWrite → U64
  | .tval x => c - off + x.setWidth 64
  | .cval rt => ofPair rt

end CompareWrite

/-- The timers after a guest, by processor `cpu`, has written to its timer `v`, the software timer
of which is `t`. -/
def writeCompare (fuel : ℕ) (conf : TimerConf) (cpu : PcpuId) (t : TimerRef) (c : U64)
    (w : CompareWrite) (v : VdevTimer) (T : Timers) : Option (VdevTimer × Timers) := do
  let r := w.access conf c v
  let expiration ← r.2
  let T ← tmSetTimer fuel conf cpu t expiration true T
  some (r.1, T)

/-- No interrupt calls back the software timer before the counter has reached the compare value and
the offset, added without wrapping. -/
def NeverEarly {S : Type} (fuel : ℕ) (conf : TimerConf) (t : TimerRef)
    (callback : TimerRef → U64 → S → U64 × S) (s : S) (v : VdevTimer) (T : Timers) : Prop :=
  ∀ (p : PcpuId) (c : U64), c.toNat * conf.resolutionNs.toNat < 2 ^ 64 →
    c.toNat < v.pCval.toNat + v.pCtOffset.toNat →
    ∀ called, calledBack fuel conf p c callback T s = some called → t ∉ called

/-- The time at which the last tick begins that the counter can have before the time overflows. -/
def lastTick (conf : TimerConf) : ℕ :=
  (2 ^ 64 - 1) / conf.resolutionNs.toNat * conf.resolutionNs.toNat

/-- The time of the compare value does not overflow, or it wraps to the last tick. -/
def WrapsLate (conf : TimerConf) (value off : U64) : Prop :=
  (value.toNat + off.toNat) * conf.resolutionNs.toNat < 2 ^ 64 ∨
    lastTick conf ≤ (value.toNat + off.toNat) * conf.resolutionNs.toNat % 2 ^ 64

instance decidableWrapsLate (conf : TimerConf) (value off : U64) :
    Decidable (WrapsLate conf value off) :=
  inferInstanceAs (Decidable (_ ∨ _))

variable {S : Type} {fuel : ℕ} {conf : TimerConf} {t : TimerRef} {T : Timers}

/-- A write sets the compare value, leaves the offset, and sets the software timer to their sum. -/
theorem CompareWrite.access_spec (conf : TimerConf) (c : U64) (v : VdevTimer) (w : CompareWrite) :
    (w.access conf c v).1.pCval = w.value c v.pCtOffset ∧
      (w.access conf c v).1.pCtOffset = v.pCtOffset ∧
      (w.access conf c v).2 =
        some (timerCountToTimeNs conf (w.value c v.pCtOffset + v.pCtOffset)) := by
  cases w with
  | tval x =>
      obtain ⟨hcval, hoff, -, hexp⟩ := writeTval_eq conf c x v
      refine ⟨hcval, hoff, hexp.trans ?_⟩
      rw [hcval, hoff]
      rfl
  | cval rt =>
      obtain ⟨hcval, hoff, hexp⟩ := writeCval_eq conf c rt v
      refine ⟨hcval, hoff, hexp.trans ?_⟩
      rw [hcval, hoff]
      rfl

theorem toNat_compareTime (conf : TimerConf) (value off : U64) :
    (timerCountToTimeNs conf (value + off)).toNat =
      (value.toNat + off.toNat) * conf.resolutionNs.toNat % 2 ^ 64 := by
  rw [timerCountToTimeNs, BitVec.toNat_mul, BitVec.toNat_add, Nat.mod_mul_mod]

/-- Whether a counter that has not reached a sum can have a time that is later than the product that
the sum wraps to. -/
theorem forall_le_wrapped_iff (hres : 1 ≤ conf.resolutionNs.toNat) (value off : U64) :
    (∀ c : U64, c.toNat * conf.resolutionNs.toNat < 2 ^ 64 → c.toNat < value.toNat + off.toNat →
      c.toNat * conf.resolutionNs.toNat ≤
        (value.toNat + off.toNat) * conf.resolutionNs.toNat % 2 ^ 64) ↔
      WrapsLate conf value off := by
  generalize hk : value.toNat + off.toNat = k
  rw [WrapsLate, hk, lastTick]
  generalize conf.resolutionNs.toNat = r at hres ⊢
  have hlast : (2 ^ 64 - 1) / r * r ≤ 2 ^ 64 - 1 := Nat.div_mul_le_self _ _
  constructor
  · intro h
    by_contra hnot
    obtain ⟨hover, hwrap⟩ := not_or.mp hnot
    have hc : ((2 ^ 64 - 1) / r : ℕ) < 2 ^ 64 :=
      Nat.lt_of_le_of_lt (Nat.div_le_self _ _) (by norm_num)
    have htoNat : (BitVec.ofNat 64 ((2 ^ 64 - 1) / r)).toNat = (2 ^ 64 - 1) / r := by
      rw [BitVec.toNat_ofNat, Nat.mod_eq_of_lt hc]
    have hless : (2 ^ 64 - 1) / r < k :=
      Nat.lt_of_mul_lt_mul_right (a := r) (by omega)
    have hle := h (BitVec.ofNat 64 ((2 ^ 64 - 1) / r))
    rw [htoNat] at hle
    exact hwrap (hle (by omega) hless)
  · rintro (hfits | hlate) c hc hless
    · rw [Nat.mod_eq_of_lt hfits]
      exact Nat.mul_le_mul_right r hless.le
    · have hcount : c.toNat ≤ (2 ^ 64 - 1) / r := by
        rw [Nat.le_div_iff_mul_le hres]
        omega
      exact (Nat.mul_le_mul_right r hcount).trans hlate

/-- After a write to the compare value of a registered timer, no interrupt calls it back early if
and only if the time of the compare value fits or wraps to the last tick. -/
theorem neverEarly_iff (hres : 1 ≤ conf.resolutionNs.toNat) {timer : TimerRef → Timer}
    {hw : PcpuId → TimerHw} {es : List TimerEvent} {σ : TimerTrace}
    (hrun : run (timerStep fuel conf) (.init timer hw) es = some σ)
    (hes : ¬ Happened (timerStep fuel conf) Misuses (.init timer hw) es)
    (hfuel : es.length < fuel) (ht : σ.home t ≠ none)
    (cpu : PcpuId) (c : U64) (w : CompareWrite) (v : VdevTimer)
    (callback : TimerRef → U64 → S → U64 × S) (s : S) :
    (∃ r, writeCompare fuel conf cpu t c w v σ.timers = some r ∧
      NeverEarly fuel conf t callback s r.1 r.2) ↔
      WrapsLate conf (w.value c v.pCtOffset) v.pCtOffset := by
  obtain ⟨active, hinv⟩ := activeInv_run hrun hfuel.le hes
  obtain ⟨hcval, hoff, hexp⟩ := w.access_spec conf c v
  generalize he : timerCountToTimeNs conf (w.value c v.pCtOffset + v.pCtOffset) = e at hexp
  obtain ⟨T, hstep, hnext, htimer, -⟩ :=
    hinv.set conf ht ((length_placed hinv.length cpu).trans hfuel) e true
  obtain ⟨T', hset, hT'⟩ := Option.map_eq_some_iff.mp hstep
  obtain rfl : T' = T := congrArg TimerTrace.timers hT'
  have hwrite : writeCompare fuel conf cpu t c w v σ.timers =
      some ((w.access conf c v).1, T') := by
    rw [writeCompare, hexp]
    simp only [Option.bind_eq_bind, Option.bind_some, hset]
  have hmem : ∀ q, t ∈ placed active cpu t q ↔ q = cpu := fun q => by
    rw [mem_placed hinv.lists, if_pos rfl]
  have hcalled : ∀ (p : PcpuId) (c' : U64), c'.toNat * conf.resolutionNs.toNat < 2 ^ 64 →
      ((∃ called, calledBack fuel conf p c' callback T' s = some called ∧ t ∈ called) ↔
        p = cpu ∧ e.toNat < c'.toNat * conf.resolutionNs.toNat) := by
    intro p c' hc'
    have hlength : (placed active cpu t p).length ≤ fuel := (hnext.length p).trans hfuel
    rw [calledBack_eq (hnext.lists.isList p) hlength]
    simp only [Option.some.injEq, exists_eq_left', List.mem_filter, hmem, decide_eq_true_eq,
      Timer.Due, htimer, Function.update_self, true_and, BitVec.lt_def,
      toNat_timerCountToTimeNs hc']
  rw [hwrite]
  simp only [Option.some.injEq, exists_eq_left', NeverEarly, hcval, hoff]
  rw [← forall_le_wrapped_iff hres, ← toNat_compareTime, he]
  constructor
  · intro h c' hc' hless
    by_contra hlate
    obtain ⟨called, hback, hin⟩ := (hcalled cpu c' hc').mpr ⟨rfl, Nat.lt_of_not_le hlate⟩
    exact h cpu c' hc' hless called hback hin
  · intro h p c' hc' hless called hback hin
    obtain ⟨-, hlate⟩ := (hcalled p c' hc').mp ⟨called, hback, hin⟩
    exact absurd (h c' hc' hless) (Nat.not_le_of_lt hlate)

/-- A timer that is registered alone and set to a few ticks ahead. -/
theorem neverEarly_iff_near :
    ∃ σ, run (timerStep 2 ⟨10, false⟩) (.init default default) [.register 0 (.vtimer 0)] = some σ ∧
      ((∃ r, writeCompare 2 ⟨10, false⟩ 0 (.vtimer 0) 1000 (.tval 5) default σ.timers = some r ∧
        NeverEarly 2 ⟨10, false⟩ (.vtimer 0) (fun _ _ s => (0, s)) () r.1 r.2) ↔
        WrapsLate ⟨10, false⟩ (CompareWrite.value 1000 0 (.tval 5)) 0) := by
  refine ⟨_, rfl, ?_⟩
  have hes : ¬ Happened (timerStep 2 ⟨10, false⟩) Misuses (.init default default)
      [.register 0 (.vtimer 0)] := by
    rintro (h | ⟨σ, -, h⟩)
    · exact h rfl
    · exact h
  exact neverEarly_iff (by decide) rfl hes (by decide) (by decide) 0 1000 (.tval 5) default _ ()

/-- A guest with offset zero sets its compare value to 2^63, which it will never reach. With ticks
of 10 ns the software timer is set to time 0, and the guest's handler is called at counter 1. -/
theorem far_compare_fires_at_once :
    ∃ σ, run (timerStep 2 ⟨10, false⟩) (.init default default) [.register 0 (.vtimer 0)] = some σ ∧
      ∃ r, writeCompare 2 ⟨10, false⟩ 0 (.vtimer 0) 0 (.cval (0, 0x80000000)) default σ.timers =
          some r ∧
        r.1.pCval = 0x8000000000000000 ∧ (r.2.timer (.vtimer 0)).expiration = 0 ∧
        calledBack 2 ⟨10, false⟩ 0 1
          (fun _ e v => (vdevTimerHandler ⟨10, false⟩ e v).map id Prod.fst) r.2 r.1 =
            some [.vtimer 0] ∧
        ¬ NeverEarly 2 ⟨10, false⟩ (.vtimer 0)
          (fun _ e v => (vdevTimerHandler ⟨10, false⟩ e v).map id Prod.fst) r.1 r.1 r.2 := by
  refine ⟨_, rfl, _, rfl, rfl, rfl, rfl, fun h => ?_⟩
  exact h 0 1 (by decide) (by decide) _ rfl (List.mem_singleton_self _)

end KHypervisor
