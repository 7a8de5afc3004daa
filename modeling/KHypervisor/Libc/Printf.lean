import KHypervisor.Arch.Mutex

/-!
# Messages of several processors

`do_printf` of `lib/c/src/printf.c` with `CONFIG_SMP`: a processor locks `PRINT_MUTEX`, puts the
message out byte by byte, and unlocks it. How `vfprintf` makes the bytes of a message is not part of
this.
-/

namespace KHypervisor

open Run Mutex

/-- The processors with `PRINT_MUTEX`, what each of them has still to put out of its message, the
messages in the order in which the processors got the mutex, and all that has been put out. -/
structure PrintRun (C : Type*) where
  mutex : Mutex.State C
  text : C → List U8
  log : List (C × List U8)
  output : List U8

namespace PrintRun

variable {C : Type*} [DecidableEq C]

inductive Event (C : Type*)
  | call (c : C) (message : List U8)
  | put (c : C)
  | finish (c : C)
  | instr (c : C)
  | loseMark (c : C)
  | wake (c : C)

def init : PrintRun C := ⟨Mutex.init, fun _ => [], [], []⟩

def turn (s : PrintRun C) (c : C) (m : Mutex.State C) : PrintRun C :=
  { s with
    mutex := m
    log := if (s.mutex.core c).inside = false ∧ (m.core c).inside = true then
        s.log ++ [(c, s.text c)] else s.log }

def step (mpidr : C → U32) (s : PrintRun C) : Event C → Option (PrintRun C)
  | .call c message =>
      if (s.mutex.core c).inside then none
      else (Mutex.step mpidr s.mutex (.lockMutex c)).map fun m =>
        { s with mutex := m, text := Function.update s.text c message }
  | .put c =>
      if (s.mutex.core c).point = .client ∧ (s.mutex.core c).inside = true then
        match s.text c with
        | [] => none
        | b :: rest =>
            some { s with text := Function.update s.text c rest, output := s.output ++ [b] }
      else none
  | .finish c =>
      if (s.mutex.core c).inside = true ∧ s.text c = [] then
        (Mutex.step mpidr s.mutex (.unlockMutex c)).map fun m => { s with mutex := m }
      else none
  | .instr c => (Mutex.step mpidr s.mutex (.instr c)).map (s.turn c)
  | .loseMark c => (Mutex.step mpidr s.mutex (.loseMark c)).map fun m => { s with mutex := m }
  | .wake c => (Mutex.step mpidr s.mutex (.wake c)).map fun m => { s with mutex := m }

/-- The messages that `c` has called `do_printf` with. -/
def calls (c : C) : List (Event C) → List (List U8)
  | [] => []
  | .call d message :: es => if d = c then message :: calls c es else calls c es
  | _ :: es => calls c es

/-- The messages of `c` that have been put out, or are being put out. -/
def printed (s : PrintRun C) (c : C) : List (List U8) :=
  (s.log.filter fun entry => entry.1 = c).map Prod.snd

def waiting (s : PrintRun C) (c : C) : List (List U8) :=
  if (s.mutex.core c).Locking then [s.text c] else []

def bytes (s : PrintRun C) : List U8 := (s.log.map Prod.snd).flatten

/-- What is to be put out is a tail of the last message. -/
def TailOfLast (s : PrintRun C) (rest : List U8) : Prop :=
  ∃ entry, s.log.getLast? = some entry ∧ rest <:+ entry.2

/-- The processor that has the mutex puts its message out, and unlocks the mutex after it. -/
structure Inv (mpidr : C → U32) (s : PrintRun C) : Prop where
  mutex : s.mutex.Inv mpidr
  rest : ∀ c, (s.mutex.core c).inside = true →
    s.output ++ s.text c = s.bytes ∧ s.TailOfLast (s.text c)
  all : (∀ c, (s.mutex.core c).inside = false) → s.output = s.bytes
  lock : ∀ c, (s.mutex.core c).Locking → (s.mutex.core c).inside = false
  unlock : ∀ c, (s.mutex.core c).Unlocking → (s.mutex.core c).inside = true ∧ s.text c = []

section Inv

variable {mpidr : C → U32} {s t : PrintRun C} {m : Mutex.State C} {c d : C}

omit [DecidableEq C] in
theorem inv_init (mpidr : C → U32) : (init : PrintRun C).Inv mpidr :=
  { mutex := Mutex.inv_init mpidr
    rest := fun _ hinside => by simp [init, Mutex.init] at hinside
    all := fun _ => rfl
    lock := fun _ _ => rfl
    unlock := fun _ hc => by simp [init, Mutex.init, Core.Unlocking] at hc }

omit [DecidableEq C] in
theorem Inv.move (h : s.Inv mpidr) (hm : m.Inv mpidr)
    (hinside : ∀ d, (m.core d).inside = (s.mutex.core d).inside)
    (hlock : ∀ d, (m.core d).Locking → (s.mutex.core d).inside = false)
    (hunlock : ∀ d, (m.core d).Unlocking → (s.mutex.core d).inside = true ∧ s.text d = []) :
    Inv mpidr { s with mutex := m } :=
  { mutex := hm
    rest := fun d hd => h.rest d ((hinside d).symm.trans hd)
    all := fun hnone => h.all fun d => (hinside d).symm.trans (hnone d)
    lock := fun d hd => (hinside d).trans (hlock d hd)
    unlock := fun d hd => ⟨(hinside d).trans (hunlock d hd).1, (hunlock d hd).2⟩ }

theorem Inv.set (h : s.Inv mpidr) {u : Mutex.State C} {k : Core} (hm : (u.set c k).Inv mpidr)
    (hu : ∀ d, (u.core d).inside = (s.mutex.core d).inside ∧
      (u.core d).point = (s.mutex.core d).point)
    (hk : k.inside = (s.mutex.core c).inside)
    (hlock : k.Locking → (s.mutex.core c).inside = false)
    (hunlock : k.Unlocking → (s.mutex.core c).inside = true ∧ s.text c = []) :
    Inv mpidr { s with mutex := u.set c k } := by
  refine h.move hm (fun d => ?_) (fun d hd => ?_) fun d hd => ?_
  · by_cases hdc : d = c
    · subst hdc
      simpa using hk
    · simpa [hdc] using (hu d).1
  · by_cases hdc : d = c
    · subst hdc
      exact hlock (by simpa using hd)
    · rw [set_core_of_ne u hdc, Core.Locking, (hu d).2] at hd
      exact h.lock d hd
  · by_cases hdc : d = c
    · subst hdc
      exact hunlock (by simpa using hd)
    · rw [set_core_of_ne u hdc, Core.Unlocking, (hu d).2] at hd
      exact h.unlock d hd

omit [DecidableEq C] in
theorem turn_of_same (hsame : (m.core c).inside = (s.mutex.core c).inside) :
    s.turn c m = { s with mutex := m } := by
  rw [turn, hsame, if_neg (by simp)]

theorem Inv.turn_locked (h : s.Inv mpidr) (hnum : Function.Injective (number mpidr))
    (hpoint : (s.mutex.core c).point = .strex) (hmarked : s.mutex.word.marked c = true) :
    (s.turn c (State.set { s.mutex with word := s.mutex.word.storeMarked (number mpidr c) } c
      { s.mutex.core c with point := .client, inside := true })).Inv mpidr := by
  have hmoves : Moves mpidr s.mutex c _ := .locked hpoint hmarked
  have hself := h.lock c (.inr (.inr hpoint))
  have hnone := ((h.mutex.lawful_moves hmoves).locked c hself (by simp)).2
  have hoff : ∀ d, d ≠ c → (s.mutex.core d).inside ≠ true := fun d _ => by simp [hnone d]
  refine ⟨h.mutex.moves hnum hmoves, fun d hd => ?_, fun hall => ?_, fun d hd => ?_, fun d hd => ?_⟩
  · by_cases hdc : d = c
    · subst hdc
      refine ⟨by simp [turn, hself, bytes, h.all hnone], (d, s.text d), ?_, List.suffix_refl _⟩
      simp [turn, hself]
    · simp [turn, hdc, hnone d] at hd
  · have hc := hall c
    simp [turn] at hc
  · by_cases hdc : d = c
    · subst hdc
      simp [turn, Core.Locking] at hd
    · simp [turn, hdc, hnone d]
  · by_cases hdc : d = c
    · subst hdc
      simp [turn, Core.Unlocking] at hd
    · have hinside := (h.unlock d (by simpa [turn, hdc] using hd)).1
      exact absurd hinside (hoff d hdc)

theorem Inv.turn_str (h : s.Inv mpidr) (hnum : Function.Injective (number mpidr))
    (hpoint : (s.mutex.core c).point = .str) :
    (s.turn c (State.set { s.mutex with word := s.mutex.word.store c unlocked } c
      { s.mutex.core c with point := .sev, inside := false })).Inv mpidr := by
  have hmoves : Moves mpidr s.mutex c _ := .str hpoint
  obtain ⟨hself, htext⟩ := h.unlock c (.inr hpoint)
  have hoff : ∀ d, d ≠ c → (s.mutex.core d).inside ≠ true := by
    intro d hdc
    rw [Ne, h.mutex.owner d, (h.mutex.owner c).mp hself]
    exact fun heq => hdc (hnum heq).symm
  refine ⟨h.mutex.moves hnum hmoves, fun d hd => ?_, fun hall => ?_, fun d hd => ?_, fun d hd => ?_⟩
  · by_cases hdc : d = c
    · subst hdc
      simp [turn] at hd
    · exact absurd (by simpa [turn, hdc] using hd) (hoff d hdc)
  · have hrest := (h.rest c hself).1
    simpa [turn, hself, htext, bytes] using hrest
  · by_cases hdc : d = c
    · subst hdc
      simp [turn]
    · simpa [turn, hdc] using hoff d hdc
  · by_cases hdc : d = c
    · subst hdc
      simp [turn, Core.Unlocking] at hd
    · have hinside := (h.unlock d (by simpa [turn, hdc] using hd)).1
      exact absurd hinside (hoff d hdc)

theorem Inv.turn (h : s.Inv mpidr) (hnum : Function.Injective (number mpidr))
    (ht : Moves mpidr s.mutex c m) : (s.turn c m).Inv mpidr := by
  have hinv := h.mutex.moves hnum ht
  cases ht with
  | ldrex hpoint =>
      rw [turn_of_same (by simp)]
      exact h.set hinv (fun _ => ⟨rfl, rfl⟩) rfl (fun _ => h.lock c (.inl hpoint))
        (by simp [Core.Unlocking])
  | found hpoint hfree =>
      rw [turn_of_same (by simp)]
      exact h.set hinv (fun _ => ⟨rfl, rfl⟩) rfl (fun _ => h.lock c (.inr (.inl hpoint)))
        (by simp [Core.Unlocking])
  | woken hpoint hevent =>
      rw [turn_of_same (by simp)]
      exact h.set hinv (fun _ => ⟨rfl, rfl⟩) rfl (fun _ => h.lock c (.inr (.inl hpoint)))
        (by simp [Core.Unlocking])
  | failed hpoint =>
      rw [turn_of_same (by simp)]
      exact h.set hinv (fun _ => ⟨rfl, rfl⟩) rfl (fun _ => h.lock c (.inr (.inr hpoint)))
        (by simp [Core.Unlocking])
  | locked hpoint hmarked => exact h.turn_locked hnum hpoint hmarked
  | str hpoint => exact h.turn_str hnum hpoint
  | refused hpoint hother =>
      rw [turn_of_same (by simp)]
      exact h.set hinv (fun _ => ⟨rfl, rfl⟩) rfl (by simp [Core.Locking]) (by simp [Core.Unlocking])
  | own hpoint hown =>
      rw [turn_of_same (by simp)]
      exact h.set hinv (fun _ => ⟨rfl, rfl⟩) rfl (by simp [Core.Locking])
        fun _ => h.unlock c (.inl hpoint)
  | sev hpoint =>
      rw [turn_of_same (by simp [State.send])]
      exact h.set hinv (fun _ => ⟨rfl, rfl⟩) rfl (by simp [Core.Locking]) (by simp [Core.Unlocking])

omit [DecidableEq C] in
/-- The text of a processor that has not got the mutex, and is not about to give it up, does not
matter. -/
theorem Inv.text (h : s.Inv mpidr) {f : C → List U8}
    (hf : ∀ d, (s.mutex.core d).inside = true → f d = s.text d) :
    Inv mpidr { s with text := f } :=
  { mutex := h.mutex
    rest := fun d hd => by
      show s.output ++ f d = s.bytes ∧ s.TailOfLast (f d)
      rw [hf d hd]
      exact h.rest d hd
    all := h.all
    lock := h.lock
    unlock := fun d hd => by
      obtain ⟨hinside, htext⟩ := h.unlock d hd
      exact ⟨hinside, (hf d hinside).trans htext⟩ }

/-- What the call of `do_printf` does. -/
theorem call_cases {message : List U8} (ht : step mpidr s (.call c message) = some t) :
    (s.mutex.core c).inside = false ∧ (s.mutex.core c).point = .client ∧
      t = { s with
        mutex := s.mutex.set c { s.mutex.core c with point := .ldrex }
        text := Function.update s.text c message } := by
  simp only [step] at ht
  split at ht
  · cases ht
  · rename_i hinside
    obtain ⟨m, hm, rfl⟩ := Option.map_eq_some_iff.mp ht
    simp only [Mutex.step] at hm
    split at hm <;> cases hm
    rename_i hpoint
    exact ⟨by simpa using hinside, hpoint, rfl⟩

theorem put_cases (ht : step mpidr s (.put c) = some t) :
    (s.mutex.core c).point = .client ∧ (s.mutex.core c).inside = true ∧
      ∃ b rest, s.text c = b :: rest ∧
        t = { s with text := Function.update s.text c rest, output := s.output ++ [b] } := by
  simp only [step] at ht
  split at ht
  · rename_i hc
    split at ht
    · cases ht
    · rename_i b rest htext
      cases ht
      exact ⟨hc.1, hc.2, b, rest, htext, rfl⟩
  · cases ht

theorem finish_cases (ht : step mpidr s (.finish c) = some t) :
    (s.mutex.core c).inside = true ∧ s.text c = [] ∧ (s.mutex.core c).point = .client ∧
      t = { s with mutex := s.mutex.set c { s.mutex.core c with point := .ldr } } := by
  simp only [step] at ht
  split at ht
  · rename_i hc
    obtain ⟨m, hm, rfl⟩ := Option.map_eq_some_iff.mp ht
    simp only [Mutex.step] at hm
    split at hm <;> cases hm
    rename_i hpoint
    exact ⟨hc.1, hc.2, hpoint, rfl⟩
  · cases ht

/-- The next byte of the message of the processor that has the mutex. -/
theorem Inv.put (h : s.Inv mpidr) (hnum : Function.Injective (number mpidr))
    (hpoint : (s.mutex.core c).point = .client) (hinside : (s.mutex.core c).inside = true)
    {b : U8} {rest : List U8} (htext : s.text c = b :: rest) :
    Inv mpidr { s with text := Function.update s.text c rest, output := s.output ++ [b] } := by
  have honly : ∀ d, (s.mutex.core d).inside = true → d = c := by
    intro d hd
    rw [h.mutex.owner d, (h.mutex.owner c).mp hinside] at hd
    exact (hnum hd).symm
  obtain ⟨hall, entry, hlast, htail⟩ := h.rest c hinside
  rw [htext] at hall htail
  refine ⟨h.mutex, fun d hd => ?_, fun hnone => ?_, h.lock, fun d hd => ?_⟩
  · rw [honly d hd]
    refine ⟨by simpa [bytes] using hall, entry, hlast, ?_⟩
    simpa using (List.suffix_cons b rest).trans htail
  · rw [hnone c] at hinside
    cases hinside
  · obtain rfl := honly d (h.unlock d hd).1
    rw [Core.Unlocking, hpoint] at hd
    simp at hd

theorem Inv.step (h : s.Inv mpidr) (hnum : Function.Injective (number mpidr)) {e : Event C}
    (ht : step mpidr s e = some t) : t.Inv mpidr := by
  cases e with
  | call c message =>
      obtain ⟨hinside, hpoint, rfl⟩ := call_cases ht
      have hother : ∀ d, (s.mutex.core d).inside = true →
          Function.update s.text c message d = s.text d := by
        intro d hd
        refine Function.update_of_ne (fun hdc => ?_) _ _
        rw [hdc, hinside] at hd
        cases hd
      have hm : (s.mutex.set c { s.mutex.core c with point := .ldrex }).Inv mpidr :=
        h.mutex.step hnum (e := .lockMutex c) (if_pos hpoint)
      exact (h.text hother).set hm (fun _ => ⟨rfl, rfl⟩) rfl (fun _ => hinside)
        (by simp [Core.Unlocking])
  | put c =>
      obtain ⟨hpoint, hinside, b, rest, htext, rfl⟩ := put_cases ht
      exact h.put hnum hpoint hinside htext
  | finish c =>
      obtain ⟨hinside, htext, hpoint, rfl⟩ := finish_cases ht
      have hm : (s.mutex.set c { s.mutex.core c with point := .ldr }).Inv mpidr :=
        h.mutex.step hnum (e := .unlockMutex c) (if_pos hpoint)
      exact h.set hm (fun _ => ⟨rfl, rfl⟩) rfl (by simp [Core.Locking])
        fun _ => ⟨hinside, htext⟩
  | instr c =>
      obtain ⟨m, hm, rfl⟩ := Option.map_eq_some_iff.mp ht
      exact h.turn hnum (moves_of_instr hm)
  | loseMark c =>
      cases ht
      exact h.move (h.mutex.step hnum (e := .loseMark c) rfl) (fun _ => rfl) h.lock h.unlock
  | wake c =>
      cases ht
      exact h.set (h.mutex.step hnum (e := .wake c) rfl) (fun _ => ⟨rfl, rfl⟩) rfl (h.lock c)
        (h.unlock c)

/-! ## The messages of a processor -/

theorem calls_append (c : C) (es es' : List (Event C)) :
    calls c (es ++ es') = calls c es ++ calls c es' := by
  induction es with
  | nil => rfl
  | cons e es ih =>
      cases e with
      | call d message => by_cases hdc : d = c <;> simp [calls, hdc, ih]
      | put d => simpa [calls] using ih
      | finish d => simpa [calls] using ih
      | instr d => simpa [calls] using ih
      | loseMark d => simpa [calls] using ih
      | wake d => simpa [calls] using ih

theorem calls_singleton {e : Event C} (he : ∀ d message, e ≠ .call d message) (c : C) :
    calls c [e] = [] := by
  cases e with
  | call d message => exact absurd rfl (he d message)
  | put d => rfl
  | finish d => rfl
  | instr d => rfl
  | loseMark d => rfl
  | wake d => rfl

/-- The messages of `c`, in the order of its calls. -/
def history (s : PrintRun C) (c : C) : List (List U8) := s.printed c ++ s.waiting c

/-- No processor calls `do_printf`, or gets the mutex. -/
theorem history_of_same (hlog : t.log = s.log)
    (hwaiting : ∀ d, (s.mutex.core d).Locking → t.text d = s.text d)
    (hlocking : ∀ d, (t.mutex.core d).Locking ↔ (s.mutex.core d).Locking) (d : C) :
    t.history d = s.history d := by
  by_cases hd : (s.mutex.core d).Locking
  · simp [history, printed, waiting, hlog, hlocking, hd, hwaiting d hd]
  · simp [history, printed, waiting, hlog, hlocking, hd]

theorem locking_set {u : Mutex.State C} {k : Core}
    (hu : ∀ d, (u.core d).point = (s.mutex.core d).point)
    (hk : k.Locking ↔ (s.mutex.core c).Locking) (d : C) :
    ((u.set c k).core d).Locking ↔ (s.mutex.core d).Locking := by
  by_cases hdc : d = c
  · subst hdc
    simpa using hk
  · simp [hdc, Core.Locking, hu d]

theorem history_set {u : Mutex.State C} {k : Core}
    (hu : ∀ d, (u.core d).point = (s.mutex.core d).point)
    (hk : k.Locking ↔ (s.mutex.core c).Locking) (d : C) :
    history { s with mutex := u.set c k } d = s.history d :=
  history_of_same (s := s) (t := { s with mutex := u.set c k }) rfl (fun _ _ => rfl)
    (locking_set hu hk) d

theorem history_turn (h : s.Inv mpidr) (ht : Moves mpidr s.mutex c m) :
    (s.turn c m).history d = s.history d := by
  cases ht with
  | ldrex hpoint =>
      rw [turn_of_same (by simp)]
      exact history_set (fun _ => rfl) (by simp [Core.Locking, hpoint]) d
  | found hpoint hfree =>
      rw [turn_of_same (by simp)]
      exact history_set (fun _ => rfl) (by simp [Core.Locking, hpoint]) d
  | woken hpoint hevent =>
      rw [turn_of_same (by simp)]
      exact history_set (fun _ => rfl) (by simp [Core.Locking, hpoint]) d
  | failed hpoint =>
      rw [turn_of_same (by simp)]
      exact history_set (fun _ => rfl) (by simp [Core.Locking, hpoint]) d
  | refused hpoint hother =>
      rw [turn_of_same (by simp)]
      exact history_set (fun _ => rfl) (by simp [Core.Locking, hpoint]) d
  | own hpoint hown =>
      rw [turn_of_same (by simp)]
      exact history_set (fun _ => rfl) (by simp [Core.Locking, hpoint]) d
  | sev hpoint =>
      have hsame : ∀ d, (s.mutex.send.core d).point = (s.mutex.core d).point := fun _ => rfl
      rw [turn_of_same (by simp [State.send])]
      exact history_set hsame (by simp [Core.Locking, hpoint]) d
  | str hpoint =>
      have hself := (h.unlock c (.inr hpoint)).1
      simp only [turn, hself]
      exact history_set (fun _ => rfl) (by simp [Core.Locking, hpoint]) d
  | locked hpoint hmarked =>
      have hself := h.lock c (.inr (.inr hpoint))
      by_cases hdc : d = c
      · subst hdc
        simp [history, printed, waiting, turn, hself, Core.Locking, hpoint]
      · have hcd : c ≠ d := fun heq => hdc heq.symm
        simp [history, printed, waiting, turn, hself, hdc, hcd]

theorem history_step (h : s.Inv mpidr) {e : Event C} (ht : step mpidr s e = some t) :
    t.history d = s.history d ++ calls d [e] := by
  cases e with
  | call c message =>
      obtain ⟨-, hpoint, rfl⟩ := call_cases ht
      by_cases hdc : d = c
      · subst hdc
        simp [history, printed, waiting, calls, Core.Locking, hpoint]
      · have hcd : c ≠ d := fun heq => hdc heq.symm
        simp [history, printed, waiting, calls, hdc, hcd]
  | put c =>
      obtain ⟨hpoint, -, b, rest, -, rfl⟩ := put_cases ht
      rw [calls_singleton nofun, List.append_nil]
      have hother : ∀ d, (s.mutex.core d).Locking → Function.update s.text c rest d = s.text d := by
        intro d hd
        refine Function.update_of_ne (fun hdc => ?_) _ _
        simp [hdc, Core.Locking, hpoint] at hd
      refine history_of_same (s := s) ?_ hother (fun _ => ?_) d
      · rfl
      · rfl
  | finish c =>
      obtain ⟨-, -, hpoint, rfl⟩ := finish_cases ht
      rw [calls_singleton nofun, List.append_nil]
      exact history_set (fun _ => rfl) (by simp [Core.Locking, hpoint]) d
  | instr c =>
      obtain ⟨m, hm, rfl⟩ := Option.map_eq_some_iff.mp ht
      rw [calls_singleton nofun, List.append_nil]
      exact history_turn h (moves_of_instr hm)
  | loseMark c =>
      cases ht
      rw [calls_singleton nofun, List.append_nil]
      exact history_of_same (s := s) rfl (fun _ _ => rfl) (fun _ => Iff.rfl) d
  | wake c =>
      cases ht
      rw [calls_singleton nofun, List.append_nil]
      exact history_set (s := s) (u := s.mutex) (c := c)
        (k := { s.mutex.core c with event := true }) (fun _ => rfl) Iff.rfl d

end Inv

/-- The messages are put out one after the other, however the processors take turns, but for a tail
of the last one; and of each processor every message is put out once, in the order of its calls, but
for one that it waits to put out. -/
theorem messages_whole {mpidr : C → U32} (hnum : Function.Injective (number mpidr))
    (es : List (Event C)) {t : PrintRun C} (hrun : run (step mpidr) init es = some t) :
    (∃ rest, t.output ++ rest = t.bytes ∧ (rest = [] ∨ t.TailOfLast rest)) ∧
      ((∀ c, (t.mutex.core c).inside = false) → t.output = t.bytes) ∧
      ∀ c, t.printed c ++ t.waiting c = calls c es := by
  obtain ⟨hinv, hhistory⟩ : t.Inv mpidr ∧ ∀ c, t.history c = calls c es := by
    refine run_induction (I := fun es t => t.Inv mpidr ∧ ∀ c, t.history c = calls c es)
      ⟨inv_init mpidr, fun c => by simp [history, printed, waiting, init, Mutex.init, calls,
        Core.Locking]⟩ ?_ hrun
    rintro es e u v - ⟨hu, hes⟩ hstep
    exact ⟨hu.step hnum hstep, fun c => by rw [history_step hu hstep, hes c, calls_append]⟩
  refine ⟨?_, hinv.all, hhistory⟩
  by_cases hone : ∃ c, (t.mutex.core c).inside = true
  · obtain ⟨c, hc⟩ := hone
    exact ⟨t.text c, (hinv.rest c hc).1, .inr (hinv.rest c hc).2⟩
  · refine ⟨[], ?_, .inl rfl⟩
    rw [List.append_nil]
    exact hinv.all fun c => by simpa using fun hc => hone ⟨c, hc⟩

/-- Two processors print at the same time. -/
theorem messages_whole_race :
    ∃ t, run (step twoProcessors) init [.call true [1, 2], .call false [3], .instr true,
        .instr false, .instr true, .instr true, .put true, .instr false, .instr false,
        .instr false, .put true, .finish true, .instr true, .instr true, .instr true, .instr false,
        .instr false, .instr false, .instr false, .put false] = some t ∧
      (∃ rest, t.output ++ rest = t.bytes ∧ (rest = [] ∨ t.TailOfLast rest)) ∧
        ((∀ c, (t.mutex.core c).inside = false) → t.output = t.bytes) ∧
        ∀ c, t.printed c ++ t.waiting c = calls c [.call true [1, 2], .call false [3], .instr true,
          .instr false, .instr true, .instr true, .put true, .instr false, .instr false,
          .instr false, .put true, .finish true, .instr true, .instr true, .instr true,
          .instr false, .instr false, .instr false, .instr false, .put false] := by
  obtain ⟨t, hrun⟩ := Option.isSome_iff_exists.mp
    (show (run (step twoProcessors) init [.call true [1, 2], .call false [3], .instr true,
        .instr false, .instr true, .instr true, .put true, .instr false, .instr false,
        .instr false, .put true, .finish true, .instr true, .instr true, .instr true, .instr false,
        .instr false, .instr false, .instr false, .put false]).isSome by decide)
  exact ⟨t, hrun, messages_whole injective_twoProcessors _ hrun⟩

end PrintRun

end KHypervisor
