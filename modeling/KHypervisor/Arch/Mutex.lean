import KHypervisor.Lib.Exclusive
import KHypervisor.Lib.Run
import KHypervisor.Types

/-!
# The mutex of several processors

`lock_mutex` and `unlock_mutex` of `arch/arm/v7/mutex.S` with `CONFIG_SMP`, instruction by
instruction: the processors may take turns after each of them, the mark of an exclusive load can be
lost at any time, and `wfe` may end at any time. Barriers, which order the accesses of a processor
for the others, do nothing here: every processor sees every access at once.
-/

namespace KHypervisor

open Run

/-- `UNLOCKED`, and `__ARCH_MUTEX_UNLOCKED`. -/
def unlocked : U32 := 0xFFFFFFFF

namespace Mutex

/-- The instruction that a processor is at. Those that only use its own registers belong to the one
before them. -/
inductive Point
  | client
  -- `lock_mutex`
  | ldrex
  | wfene
  | strex
  -- `unlock_mutex`
  | ldr
  | str
  | sev
  deriving DecidableEq

/-- A processor: where it is, `r1` of `lock_mutex`, its event register, what `unlock_mutex`
returned, and whether it has got the mutex. -/
structure Core where
  point : Point
  r1 : U32
  event : Bool
  r0 : U32
  inside : Bool

/-- The processor is in `lock_mutex`. -/
def Core.Locking (k : Core) : Prop := k.point = .ldrex ∨ k.point = .wfene ∨ k.point = .strex

instance (k : Core) : Decidable k.Locking :=
  inferInstanceAs (Decidable (k.point = .ldrex ∨ k.point = .wfene ∨ k.point = .strex))

/-- The processor is in `unlock_mutex`, and has not unlocked the mutex yet. -/
def Core.Unlocking (k : Core) : Prop := k.point = .ldr ∨ k.point = .str

structure State (C : Type*) where
  word : Exclusive U32 C
  core : C → Core

variable {C : Type*} [DecidableEq C]

inductive Event (C : Type*)
  | lockMutex (c : C)
  | unlockMutex (c : C)
  | instr (c : C)
  | loseMark (c : C)
  | wake (c : C)

/-- `MUTEX_UNLOCKED`. -/
def init : State C := ⟨⟨unlocked, fun _ => false⟩, fun _ => ⟨.client, 0, false, 0, false⟩⟩

def State.set (s : State C) (c : C) (k : Core) : State C :=
  { s with core := Function.update s.core c k }

/-- The bits of `MPIDR` for the processor in its cluster, "for cluster 0/1". -/
def number (mpidr : C → U32) (c : C) : U32 := mpidr c &&& (0x03 ||| 0x100)

/-- The next instruction of `c`, of which the `MPIDR` is `mpidr c`. -/
def instr (mpidr : C → U32) (s : State C) (c : C) : Option (State C) :=
  let k := s.core c
  match k.point with
  | .client => none
  | .ldrex =>
      some ({ s with word := s.word.mark c }.set c { k with point := .wfene, r1 := s.word.value })
  | .wfene =>
      if k.r1 = unlocked then some (s.set c { k with point := .strex })
      else if k.event then some (s.set c { k with point := .ldrex, event := false })
      -- asleep
      else none
  | .strex =>
      if s.word.marked c then
        some ({ s with word := s.word.storeMarked (number mpidr c) }.set c
          { k with point := .client, inside := true })
      else some (s.set c { k with point := .ldrex })
  | .ldr =>
      -- "is this CPU owned the mutex?"
      if number mpidr c ≠ s.word.value then some (s.set c { k with point := .client, r0 := 1 })
      else some (s.set c { k with point := .str })
  | .str =>
      some ({ s with word := s.word.store c unlocked }.set c
        { k with point := .sev, inside := false })
  | .sev =>
      let s := { s with core := fun d => { s.core d with event := true } }
      some (s.set c { s.core c with point := .client, r0 := 0 })

def step (mpidr : C → U32) (s : State C) : Event C → Option (State C)
  | .lockMutex c =>
      if (s.core c).point = .client then some (s.set c { s.core c with point := .ldrex }) else none
  | .unlockMutex c =>
      if (s.core c).point = .client then some (s.set c { s.core c with point := .ldr }) else none
  | .instr c => instr mpidr s c
  | .loseMark c => some { s with word := s.word.clear c }
  | .wake c => some (s.set c { s.core c with event := true })

/-- `sev` sets the event registers of all processors. -/
def State.send (s : State C) : State C :=
  { s with core := fun d => { s.core d with event := true } }

/-- What an instruction of `c` can do. -/
inductive Moves (mpidr : C → U32) (s : State C) (c : C) : State C → Prop
  | ldrex (hpoint : (s.core c).point = .ldrex) : Moves mpidr s c <|
      State.set { s with word := s.word.mark c } c
        { s.core c with point := .wfene, r1 := s.word.value }
  | found (hpoint : (s.core c).point = .wfene) (hfree : (s.core c).r1 = unlocked) :
      Moves mpidr s c (s.set c { s.core c with point := .strex })
  | woken (hpoint : (s.core c).point = .wfene) (hevent : (s.core c).event = true) :
      Moves mpidr s c (s.set c { s.core c with point := .ldrex, event := false })
  | locked (hpoint : (s.core c).point = .strex) (hmarked : s.word.marked c = true) :
      Moves mpidr s c <| State.set { s with word := s.word.storeMarked (number mpidr c) } c
        { s.core c with point := .client, inside := true }
  | failed (hpoint : (s.core c).point = .strex) :
      Moves mpidr s c (s.set c { s.core c with point := .ldrex })
  | refused (hpoint : (s.core c).point = .ldr) (hother : number mpidr c ≠ s.word.value) :
      Moves mpidr s c (s.set c { s.core c with point := .client, r0 := 1 })
  | own (hpoint : (s.core c).point = .ldr) (hown : number mpidr c = s.word.value) :
      Moves mpidr s c (s.set c { s.core c with point := .str })
  | str (hpoint : (s.core c).point = .str) : Moves mpidr s c <|
      State.set { s with word := s.word.store c unlocked } c
        { s.core c with point := .sev, inside := false }
  | sev (hpoint : (s.core c).point = .sev) : Moves mpidr s c <|
      s.send.set c { s.send.core c with point := .client, r0 := 0 }

theorem moves_of_instr {mpidr : C → U32} {s t : State C} {c : C} (ht : instr mpidr s c = some t) :
    Moves mpidr s c t := by
  simp only [instr] at ht
  cases hpoint : (s.core c).point <;> rw [hpoint] at ht <;> simp only at ht
  case client => cases ht
  case ldrex =>
    cases ht
    exact .ldrex hpoint
  case wfene =>
    split at ht
    · rename_i hfree
      cases ht
      exact .found hpoint hfree
    · split at ht
      · rename_i hevent
        cases ht
        exact .woken hpoint hevent
      · cases ht
  case strex =>
    split at ht
    · rename_i hmarked
      cases ht
      exact .locked hpoint hmarked
    · cases ht
      exact .failed hpoint
  case ldr =>
    split at ht
    · rename_i hother
      cases ht
      exact .refused hpoint hother
    · rename_i hown
      cases ht
      exact .own hpoint (not_not.mp hown)
  case str =>
    cases ht
    exact .str hpoint
  case sev =>
    cases ht
    exact .sev hpoint

/-- What a processor in `lock_mutex` has loaded. -/
def State.loaded (s : State C) (c : C) : Option U32 :=
  if (s.core c).point = .wfene ∨ (s.core c).point = .strex then some (s.core c).r1 else none

/-- A processor stores to the mutex only after it has found it unlocked, or its own. -/
structure Core.Ok (k : Core) : Prop where
  free : k.point = .strex → k.r1 = unlocked
  own : k.point = .str → k.inside = true

/-- The mutex holds the number of the processor that has got it, and who has marked it knows what it
holds. -/
structure State.Inv (mpidr : C → U32) (s : State C) : Prop where
  owner : ∀ c, (s.core c).inside = true ↔ s.word.value = number mpidr c
  known : s.word.Known s.loaded
  ok : ∀ c, (s.core c).Ok

/-- A processor that sleeps until the mutex is unlocked will be woken: the mutex is still locked, or
the event has come, or is to come from a processor that has unlocked it. -/
def State.Awaited (s : State C) : Prop :=
  ∀ c, (s.core c).point = .wfene → (s.core c).r1 ≠ unlocked →
    s.word.value ≠ unlocked ∨ (s.core c).event = true ∨ ∃ d, (s.core d).point = .sev

section Inv

variable {mpidr : C → U32} {s t : State C} {c d : C} {k : Core}

@[simp]
theorem set_word (s : State C) (c : C) (k : Core) : (s.set c k).word = s.word := rfl

@[simp]
theorem set_core_self (s : State C) (c : C) (k : Core) : (s.set c k).core c = k :=
  Function.update_self ..

@[simp]
theorem set_core_of_ne (s : State C) (h : d ≠ c) (k : Core) : (s.set c k).core d = s.core d :=
  Function.update_of_ne h ..

omit [DecidableEq C] in
theorem number_ne (mpidr : C → U32) (c : C) : number mpidr c ≠ unlocked := by
  intro heq
  have hbit := congrArg (fun x : U32 => x.getLsbD 31) heq
  simp [number, unlocked] at hbit

omit [DecidableEq C] in
theorem inv_init (mpidr : C → U32) : (init : State C).Inv mpidr :=
  { owner := fun c => by simpa [init] using (number_ne mpidr c).symm
    known := fun _ _ hmark _ => by simp [init] at hmark
    ok := fun _ => ⟨nofun, nofun⟩ }

theorem loaded_set (s : State C) (c : C) (k : Core) :
    (s.set c k).loaded = Function.update s.loaded c
      (if k.point = .wfene ∨ k.point = .strex then some k.r1 else none) := by
  funext d
  by_cases hdc : d = c
  · subst hdc
    simp [State.loaded]
  · simp [State.loaded, hdc]

theorem ok_set (h : ∀ d, (s.core d).Ok) (hk : k.Ok) (d : C) : ((s.set c k).core d).Ok := by
  by_cases hdc : d = c
  · subst hdc
    simpa using hk
  · simpa [hdc] using h d

theorem State.Inv.set (h : s.Inv mpidr) (hinside : k.inside = (s.core c).inside)
    (hloaded : s.loaded c = some k.r1 ∨ k.point ≠ .wfene ∧ k.point ≠ .strex) (hk : k.Ok) :
    (s.set c k).Inv mpidr := by
  refine ⟨fun d => ?_, ?_, ok_set h.ok hk⟩
  · by_cases hdc : d = c
    · subst hdc
      simpa [hinside] using h.owner d
    · simpa [hdc] using h.owner d
  · rw [loaded_set, set_word]
    rcases hloaded with heq | ⟨hwfene, hstrex⟩
    · split
      · rw [← heq, Function.update_eq_self]
        exact h.known
      · exact h.known.forget c
    · rw [if_neg (by simp [hwfene, hstrex])]
      exact h.known.forget c

omit [DecidableEq C] in
theorem State.Inv.send (h : s.Inv mpidr) : s.send.Inv mpidr :=
  ⟨h.owner, h.known, fun d => ⟨(h.ok d).free, (h.ok d).own⟩⟩

/-- `ldrex`. -/
theorem State.Inv.ldrex (h : s.Inv mpidr) (c : C) :
    (State.set { s with word := s.word.mark c } c
      { s.core c with point := .wfene, r1 := s.word.value }).Inv mpidr := by
  refine ⟨fun d => ?_, ?_, ok_set h.ok ⟨nofun, nofun⟩⟩
  · by_cases hdc : d = c
    · subst hdc
      simpa [Exclusive.mark] using h.owner d
    · simpa [hdc, Exclusive.mark] using h.owner d
  · rw [loaded_set, if_pos (.inl rfl)]
    exact h.known.mark c

omit [DecidableEq C] in
theorem State.Inv.value_of_marked (h : s.Inv mpidr) (hpoint : (s.core c).point = .strex)
    (hmarked : s.word.marked c = true) : s.word.value = unlocked := by
  have hloaded : s.loaded c = some (s.core c).r1 := by simp [loaded, hpoint]
  rw [h.known c _ hmarked hloaded, (h.ok c).free hpoint]

/-- `strex`, if it succeeds: the mutex is locked. -/
theorem State.Inv.strex (h : s.Inv mpidr) (hnum : Function.Injective (number mpidr))
    (hpoint : (s.core c).point = .strex) (hmarked : s.word.marked c = true) :
    (State.set { s with word := s.word.storeMarked (number mpidr c) } c
      { s.core c with point := .client, inside := true }).Inv mpidr := by
  have hvalue := h.value_of_marked hpoint hmarked
  have hnone : ∀ d, (s.core d).inside = false := by
    intro d
    rw [← Bool.not_eq_true, h.owner d, hvalue]
    exact (number_ne mpidr d).symm
  refine ⟨fun d => ?_, Exclusive.known_storeMarked s.word _ _, ok_set h.ok ⟨nofun, nofun⟩⟩
  by_cases hdc : d = c
  · subst hdc
    simp [Exclusive.storeMarked]
  · simpa [hdc, Exclusive.storeMarked, hnone d] using fun heq => hdc (hnum heq).symm

/-- `str`: the mutex is unlocked. -/
theorem State.Inv.str (h : s.Inv mpidr) (hnum : Function.Injective (number mpidr))
    (hpoint : (s.core c).point = .str) :
    (State.set { s with word := s.word.store c unlocked } c
      { s.core c with point := .sev, inside := false }).Inv mpidr := by
  have howner := (h.owner c).mp ((h.ok c).own hpoint)
  refine ⟨fun d => ?_, ?_, ok_set h.ok ⟨nofun, nofun⟩⟩
  · by_cases hdc : d = c
    · subst hdc
      simpa [Exclusive.store] using (number_ne mpidr d).symm
    · have hnot : (s.core d).inside ≠ true := by
        rw [Ne, h.owner d, howner]
        exact fun heq => hdc (hnum heq).symm
      simpa [hdc, Exclusive.store, hnot] using (number_ne mpidr d).symm
  · rw [loaded_set, if_neg (by simp)]
    exact Exclusive.Known.store (Function.update_self ..) unlocked

theorem State.Inv.moves (h : s.Inv mpidr) (hnum : Function.Injective (number mpidr))
    (ht : Moves mpidr s c t) : t.Inv mpidr := by
  cases ht with
  | ldrex hpoint => exact h.ldrex c
  | found hpoint hfree =>
      exact h.set rfl (.inl (by simp [loaded, hpoint])) ⟨fun _ => hfree, nofun⟩
  | woken hpoint hevent => exact h.set rfl (.inr ⟨nofun, nofun⟩) ⟨nofun, nofun⟩
  | locked hpoint hmarked => exact h.strex hnum hpoint hmarked
  | failed hpoint => exact h.set rfl (.inr ⟨nofun, nofun⟩) ⟨nofun, nofun⟩
  | refused hpoint hother => exact h.set rfl (.inr ⟨nofun, nofun⟩) ⟨nofun, nofun⟩
  | own hpoint hown =>
      exact h.set rfl (.inr ⟨nofun, nofun⟩) ⟨nofun, fun _ => (h.owner c).mpr hown.symm⟩
  | str hpoint => exact h.str hnum hpoint
  | sev hpoint => exact h.send.set rfl (.inr ⟨nofun, nofun⟩) ⟨nofun, nofun⟩

theorem State.Inv.step (h : s.Inv mpidr) (hnum : Function.Injective (number mpidr)) {e : Event C}
    (ht : step mpidr s e = some t) : t.Inv mpidr := by
  cases e with
  | lockMutex c =>
      simp only [Mutex.step] at ht
      split at ht <;> cases ht
      exact h.set rfl (.inr ⟨nofun, nofun⟩) ⟨nofun, nofun⟩
  | unlockMutex c =>
      simp only [Mutex.step] at ht
      split at ht <;> cases ht
      exact h.set rfl (.inr ⟨nofun, nofun⟩) ⟨nofun, nofun⟩
  | instr c => exact h.moves hnum (moves_of_instr ht)
  | loseMark c =>
      cases ht
      exact ⟨h.owner, h.known.clear c, h.ok⟩
  | wake c =>
      cases ht
      refine h.set rfl ?_ ⟨(h.ok c).free, (h.ok c).own⟩
      by_cases hpoint : (s.core c).point = .wfene ∨ (s.core c).point = .strex
      · exact .inl (by simp [loaded, hpoint])
      · exact .inr (not_or.mp hpoint)

/-! ## Sleeping processors -/

omit [DecidableEq C] in
theorem awaited_init : (init : State C).Awaited := fun _ hpoint => by simp [init] at hpoint

/-- A processor that moves, but not away from `sev`. -/
theorem State.Awaited.set (h : s.Awaited) (hsev : (s.core c).point = .sev → k.point = .sev)
    (hk : k.point = .wfene → k.r1 ≠ unlocked →
      s.word.value ≠ unlocked ∨ k.event = true ∨ ∃ d, (s.core d).point = .sev) :
    (s.set c k).Awaited := by
  have hsender : (∃ d, (s.core d).point = .sev) → ∃ d, ((s.set c k).core d).point = .sev := by
    rintro ⟨d, hd⟩
    refine ⟨d, ?_⟩
    by_cases hdc : d = c
    · subst hdc
      simpa using hsev hd
    · simpa [hdc] using hd
  intro d hpoint hr1
  by_cases hdc : d = c
  · subst hdc
    rw [set_core_self] at hpoint hr1 ⊢
    exact (hk hpoint hr1).imp_right (Or.imp_right hsender)
  · rw [set_core_of_ne s hdc] at hpoint hr1 ⊢
    exact (h d hpoint hr1).imp_right (Or.imp_right hsender)

theorem State.Awaited.moves (h : s.Awaited) (ht : Moves mpidr s c t) :
    t.Awaited := by
  cases ht with
  | ldrex hpoint =>
      exact State.Awaited.set (s := { s with word := s.word.mark c }) h (by simp [hpoint])
        fun _ hne => .inl hne
  | found hpoint _ => exact h.set (by simp [hpoint]) nofun
  | woken hpoint _ => exact h.set (by simp [hpoint]) nofun
  | locked hpoint _ => exact fun _ _ _ => .inl (number_ne mpidr c)
  | failed hpoint => exact h.set (by simp [hpoint]) nofun
  | refused hpoint _ => exact h.set (by simp [hpoint]) nofun
  | own hpoint _ => exact h.set (by simp [hpoint]) nofun
  | str hpoint => exact fun _ _ _ => .inr (.inr ⟨c, by simp⟩)
  | sev hpoint =>
      intro d hd _
      have hdc : d ≠ c := by
        rintro rfl
        simp at hd
      exact .inr (.inl (by simp [hdc, send]))

theorem State.Awaited.step (h : s.Awaited) {e : Event C} (ht : Mutex.step mpidr s e = some t) :
    t.Awaited := by
  cases e with
  | lockMutex c =>
      simp only [Mutex.step] at ht
      split at ht <;> cases ht
      rename_i hpoint
      exact h.set (by simp [hpoint]) nofun
  | unlockMutex c =>
      simp only [Mutex.step] at ht
      split at ht <;> cases ht
      rename_i hpoint
      exact h.set (by simp [hpoint]) nofun
  | instr c => exact h.moves (moves_of_instr ht)
  | loseMark c =>
      cases ht
      exact h
  | wake c =>
      cases ht
      exact h.set (fun hpoint => hpoint) fun _ _ => .inr (.inl rfl)

end Inv

/-! ## Runs -/

section Runs

variable {mpidr : C → U32} {s t : State C}

/-- What holds of every state that the processors can get to, whatever turns they take. -/
theorem inv_of_run (hnum : Function.Injective (number mpidr)) {es : List (Event C)}
    (hrun : run (step mpidr) init es = some t) : t.Inv mpidr :=
  run_invariant hrun (inv_init mpidr) fun _ _ _ _ h hstep => h.step hnum hstep

theorem awaited_of_run {es : List (Event C)} (hrun : run (step mpidr) init es = some t) :
    t.Awaited :=
  run_invariant hrun awaited_init fun _ _ _ _ h hstep => h.step hstep

/-- At most one processor has got the mutex, however the processors take turns, and the mutex holds
its number. -/
theorem mutual_exclusion (hnum : Function.Injective (number mpidr)) (es : List (Event C))
    (hrun : run (step mpidr) init es = some t) :
    (∀ c d, (t.core c).inside = true → (t.core d).inside = true → c = d) ∧
      ∀ c, (t.core c).inside = true ↔ t.word.value = number mpidr c := by
  have hinv := inv_of_run hnum hrun
  refine ⟨fun c d hc hd => hnum ?_, hinv.owner⟩
  rw [← (hinv.owner c).mp hc, ← (hinv.owner d).mp hd]

def twoProcessors : Bool → U32 := fun c => if c then 0x80000001 else 0x80000000

theorem injective_twoProcessors : Function.Injective (number twoProcessors) := by decide

/-- Two processors load the mutex before either stores to it. -/
theorem mutual_exclusion_race :
    ∃ t, run (step twoProcessors) init [.lockMutex true, .lockMutex false, .instr true,
        .instr false, .instr true, .instr false, .instr true, .instr false] = some t ∧
      (∀ c d, (t.core c).inside = true → (t.core d).inside = true → c = d) ∧
        ∀ c, (t.core c).inside = true ↔ t.word.value = number twoProcessors c := by
  obtain ⟨t, hrun⟩ := Option.isSome_iff_exists.mp
    (show (run (step twoProcessors) init [.lockMutex true, .lockMutex false, .instr true,
      .instr false, .instr true, .instr false, .instr true, .instr false]).isSome by decide)
  exact ⟨t, hrun, mutual_exclusion injective_twoProcessors _ hrun⟩

/-- A processor gets the mutex only if no one has it, and only gives it up itself, with the store of
`unlock_mutex`; that returns one to those that have not got it, and does not change the mutex
then. -/
structure Lawful (s : State C) (e : Event C) (t : State C) : Prop where
  locked : ∀ c, (s.core c).inside = false → (t.core c).inside = true →
    e = .instr c ∧ ∀ d, (s.core d).inside = false
  unlocked : ∀ c, (s.core c).inside = true → (t.core c).inside = false →
    e = .instr c ∧ (s.core c).point = .str ∧ t.word.value = unlocked
  refused : ∀ c, e = .instr c → (s.core c).point = .ldr →
    if (s.core c).inside = true then (t.core c).point = .str
    else (t.core c).point = .client ∧ (t.core c).r0 = 1 ∧ t.word = s.word

/-- A step that changes who has got the mutex for one processor at most. -/
theorem lawful_of_others {e : Event C} {c : C}
    (hothers : ∀ d, d ≠ c → (t.core d).inside = (s.core d).inside)
    (hlocked : (s.core c).inside = false → (t.core c).inside = true →
      e = .instr c ∧ ∀ d, (s.core d).inside = false)
    (hunlocked : (s.core c).inside = true → (t.core c).inside = false →
      e = .instr c ∧ (s.core c).point = .str ∧ t.word.value = unlocked)
    (hrefused : ∀ d, e = .instr d → (s.core d).point = .ldr →
      if (s.core d).inside = true then (t.core d).point = .str
      else (t.core d).point = .client ∧ (t.core d).r0 = 1 ∧ t.word = s.word) : Lawful s e t := by
  refine ⟨fun d hs ht => ?_, fun d hs ht => ?_, hrefused⟩
  · by_cases hdc : d = c
    · subst hdc
      exact hlocked hs ht
    · rw [hothers d hdc, hs] at ht
      cases ht
  · by_cases hdc : d = c
    · subst hdc
      exact hunlocked hs ht
    · rw [hothers d hdc, hs] at ht
      cases ht

/-- A processor that neither gets nor gives up the mutex, and does not ask whose it is. -/
theorem lawful_set {u : State C} {c : C} {k : Core} {e : Event C}
    (hcore : ∀ d, (u.core d).inside = (s.core d).inside) (hinside : k.inside = (s.core c).inside)
    (hldr : ∀ d, e = .instr d → (s.core d).point ≠ .ldr) : Lawful s e (u.set c k) := by
  refine lawful_of_others (c := c) (fun d hdc => by simpa [hdc] using hcore d) (fun hs ht => ?_)
    (fun hs ht => ?_) fun d he hpoint => absurd hpoint (hldr d he)
  · rw [set_core_self, hinside, hs] at ht
    cases ht
  · rw [set_core_self, hinside, hs] at ht
    cases ht

theorem State.Inv.lawful_moves (h : s.Inv mpidr) {c : C}
    (ht : Moves mpidr s c t) : Lawful s (.instr c) t := by
  have hldr : (s.core c).point ≠ .ldr →
      ∀ d, Event.instr c = .instr d → (s.core d).point ≠ .ldr := by
    rintro hne d ⟨⟩
    exact hne
  cases ht with
  | ldrex hpoint => exact lawful_set (fun _ => rfl) rfl (hldr (by simp [hpoint]))
  | found hpoint _ => exact lawful_set (fun _ => rfl) rfl (hldr (by simp [hpoint]))
  | woken hpoint _ => exact lawful_set (fun _ => rfl) rfl (hldr (by simp [hpoint]))
  | failed hpoint => exact lawful_set (fun _ => rfl) rfl (hldr (by simp [hpoint]))
  | sev hpoint => exact lawful_set (fun _ => rfl) rfl (hldr (by simp [hpoint]))
  | locked hpoint hmarked =>
      have hvalue := h.value_of_marked hpoint hmarked
      refine lawful_of_others (c := c) (fun d hdc => by simp [hdc])
        (fun _ _ => ⟨rfl, fun d => ?_⟩) (by simp)
        fun d he hd => absurd hd (hldr (by simp [hpoint]) d he)
      rw [← Bool.not_eq_true, h.owner d, hvalue]
      exact (number_ne mpidr d).symm
  | str hpoint =>
      exact lawful_of_others (c := c) (fun d hdc => by simp [hdc]) (by simp)
        (fun _ _ => ⟨rfl, hpoint, rfl⟩) fun d he hd => absurd hd (hldr (by simp [hpoint]) d he)
  | refused hpoint hother =>
      have hnot : (s.core c).inside ≠ true := by
        rw [Ne, h.owner c]
        exact fun heq => hother heq.symm
      refine lawful_of_others (c := c) (fun d hdc => by simp [hdc]) (by simp [hnot])
        (fun hs => absurd hs hnot) ?_
      rintro d ⟨⟩ -
      simp [hnot]
  | own hpoint hown =>
      have hinside := (h.owner c).mpr hown.symm
      refine lawful_of_others (c := c) (fun d hdc => by simp [hdc]) (by simp [hinside])
        (by simp [hinside]) ?_
      rintro d ⟨⟩ -
      simp [hinside]

theorem State.Inv.lawful (h : s.Inv mpidr) {e : Event C}
    (ht : Mutex.step mpidr s e = some t) : Lawful s e t := by
  cases e with
  | lockMutex c =>
      simp only [Mutex.step] at ht
      split at ht <;> cases ht
      exact lawful_set (fun _ => rfl) rfl nofun
  | unlockMutex c =>
      simp only [Mutex.step] at ht
      split at ht <;> cases ht
      exact lawful_set (fun _ => rfl) rfl nofun
  | instr c => exact h.lawful_moves (moves_of_instr ht)
  | loseMark c =>
      cases ht
      exact ⟨fun d hs ht => absurd (hs.symm.trans ht) nofun,
        fun d hs ht => absurd (hs.symm.trans ht) nofun, nofun⟩
  | wake c =>
      cases ht
      exact lawful_set (fun _ => rfl) rfl nofun

/-- Only a processor that has got the mutex gives it up, and it is got only when no one has it,
however the processors take turns. -/
theorem lock_unlock_lawful (hnum : Function.Injective (number mpidr)) (es : List (Event C))
    (hrun : run (step mpidr) init es = some s) {e : Event C} (ht : step mpidr s e = some t) :
    Lawful s e t :=
  (inv_of_run hnum hrun).lawful ht

/-- A processor tries to unlock the mutex of the other one. -/
theorem lock_unlock_lawful_other :
    ∃ s t, run (step twoProcessors) init [.lockMutex true, .instr true, .instr true, .instr true,
        .unlockMutex false] = some s ∧ step twoProcessors s (.instr false) = some t ∧
      Lawful s (.instr false) t := by
  obtain ⟨t, ht⟩ := Option.isSome_iff_exists.mp
    (show (run (step twoProcessors) init ([.lockMutex true, .instr true, .instr true, .instr true,
      .unlockMutex false] ++ [.instr false])).isSome by decide)
  obtain ⟨s, hs, hstep⟩ := run_concat_eq_some _ ht
  exact ⟨s, t, hs, hstep, lock_unlock_lawful injective_twoProcessors _ hs hstep⟩

/-- The processor gets the mutex with some more instructions of the processors. -/
def Gets (mpidr : C → U32) (s : State C) (c : C) (n : ℕ) : Prop :=
  ∃ cs : List C, cs.length ≤ n ∧
    ∃ t, run (step mpidr) s (cs.map .instr) = some t ∧ (t.core c).inside = true

theorem Gets.cons {c d : C} {n : ℕ} (hs : instr mpidr s d = some t) (h : Gets mpidr t c n) :
    Gets mpidr s c (n + 1) := by
  obtain ⟨cs, hlen, u, hu, hinside⟩ := h
  refine ⟨d :: cs, Nat.succ_le_succ hlen, u, ?_, hinside⟩
  rw [List.map_cons, run_cons, step, hs, Option.bind_some, hu]

theorem Gets.mono {c : C} {m n : ℕ} (h : Gets mpidr s c m) (hmn : m ≤ n) : Gets mpidr s c n := by
  obtain ⟨cs, hlen, hrest⟩ := h
  exact ⟨cs, hlen.trans hmn, hrest⟩

theorem gets_of_ldrex {c : C} (hfree : s.word.value = unlocked)
    (hpoint : (s.core c).point = .ldrex) : Gets mpidr s c 3 := by
  refine Gets.cons (d := c) (by rw [instr, hpoint]) <| Gets.cons (d := c)
    (by simp only [instr, set_core_self]; rw [if_pos hfree]) <| Gets.cons (d := c)
    (by simp only [instr, set_core_self]; rw [if_pos (by simp [Exclusive.mark])])
    ⟨[], Nat.zero_le _, _, rfl, by simp⟩

theorem gets_of_strex {c : C} (hfree : s.word.value = unlocked)
    (hpoint : (s.core c).point = .strex) : Gets mpidr s c 4 := by
  by_cases hmarked : s.word.marked c = true
  · exact (Gets.cons (d := c) (by simp only [instr, hpoint]; rw [if_pos hmarked])
      ⟨[], Nat.zero_le 0, _, rfl, by simp⟩).mono (by decide)
  · have hstep : instr mpidr s c = some (s.set c { s.core c with point := .ldrex }) := by
      simp only [instr, hpoint]
      rw [if_neg hmarked]
    exact Gets.cons hstep (gets_of_ldrex hfree (by simp))

theorem gets_of_event {c : C} (hfree : s.word.value = unlocked)
    (hpoint : (s.core c).point = .wfene) (hr1 : (s.core c).r1 ≠ unlocked)
    (hevent : (s.core c).event = true) : Gets mpidr s c 4 := by
  have hstep : instr mpidr s c =
      some (s.set c { s.core c with point := .ldrex, event := false }) := by
    simp only [instr, hpoint]
    rw [if_neg hr1, if_pos hevent]
  exact Gets.cons hstep (gets_of_ldrex hfree (by simp))

/-- A processor in `lock_mutex` gets the mutex once it is unlocked, if the processors go on: it does
not sleep while no one is there to wake it. -/
theorem lock_available (es : List (Event C))
    (hrun : run (step mpidr) init es = some s) (hfree : s.word.value = unlocked) {c : C}
    (hc : (s.core c).Locking) : Gets mpidr s c 5 := by
  rcases hc with hpoint | hpoint | hpoint
  · exact (gets_of_ldrex hfree hpoint).mono (by decide)
  · by_cases hr1 : (s.core c).r1 = unlocked
    · have hstep : instr mpidr s c = some (s.set c { s.core c with point := .strex }) := by
        simp only [instr, hpoint]
        rw [if_pos hr1]
      exact Gets.cons hstep (gets_of_strex hfree (by simp))
    · rcases awaited_of_run hrun c hpoint hr1 with hlocked | hevent | ⟨d, hd⟩
      · exact absurd hfree hlocked
      · exact (gets_of_event hfree hpoint hr1 hevent).mono (by decide)
      · -- the event is still to be sent
        have hne : c ≠ d := by
          rintro rfl
          rw [hpoint] at hd
          cases hd
        have hstep : instr mpidr s d =
            some (s.send.set d { s.send.core d with point := .client, r0 := 0 }) := by
          simp only [instr, hd]
          rfl
        refine Gets.cons hstep (gets_of_event hfree ?_ ?_ ?_)
        · simpa [hne, State.send] using hpoint
        · simpa [hne, State.send] using hr1
        · simp [hne, State.send]
  · exact (gets_of_strex hfree hpoint).mono (by decide)

/-- A processor sleeps when the mutex is unlocked, before the event. -/
theorem lock_available_asleep :
    ∃ s, run (step twoProcessors) init [.lockMutex true, .instr true, .instr true, .instr true,
        .lockMutex false, .instr false, .unlockMutex true, .instr true, .instr true] = some s ∧
      Gets twoProcessors s false 5 := by
  have hall : ∀ s ∈ run (step twoProcessors) init [.lockMutex true, .instr true, .instr true,
      .instr true, .lockMutex false, .instr false, .unlockMutex true, .instr true, .instr true],
      s.word.value = unlocked ∧ (s.core false).point = .wfene := by decide
  obtain ⟨s, hrun⟩ := Option.isSome_iff_exists.mp
    (show (run (step twoProcessors) init [.lockMutex true, .instr true, .instr true, .instr true,
      .lockMutex false, .instr false, .unlockMutex true, .instr true,
      .instr true]).isSome by decide)
  obtain ⟨hfree, hpoint⟩ := hall s hrun
  exact ⟨s, hrun, lock_available _ hrun hfree (.inr (.inl hpoint))⟩

end Runs

end Mutex

end KHypervisor
