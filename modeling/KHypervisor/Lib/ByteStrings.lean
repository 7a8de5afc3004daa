import KHypervisor.Lib.ByteMemory

/-!
# Words and strings from an address on

A structure in memory is read and written as words at multiples of four bytes from its address, and
a string as its bytes with a zero after them. As long as addresses do not wrap, writing from an
address on leaves what is below it: `SameBelow`.
-/

namespace ByteMemory

variable {w : ℕ}

/-! ## Memories that agree below an address -/

/-- The bytes below `n` are the same. -/
def SameBelow (n : ℕ) (m m' : Memory w) : Prop := ∀ b : BitVec w, b.toNat < n → m' b = m b

theorem SameBelow.refl (n : ℕ) (m : Memory w) : SameBelow n m m := fun _ _ => rfl

theorem SameBelow.trans {n : ℕ} {m m' m'' : Memory w} (h : SameBelow n m m')
    (h' : SameBelow n m' m'') : SameBelow n m m'' := by
  intro b hb
  rw [h' b hb, h b hb]

theorem SameBelow.mono {n n' : ℕ} {m m' : Memory w} (h : SameBelow n m m') (hn : n' ≤ n) :
    SameBelow n' m m' :=
  fun b hb => h b (by omega)

/-! ## Words -/

/-- The word `i` from `a` on. -/
def word (m : Memory w) (a : BitVec w) (i : ℕ) : BitVec 32 := read32 m (a + BitVec.ofNat w (4 * i))

/-- The memory after storing `v` as the word `i` from `a` on. -/
def setWord (m : Memory w) (a : BitVec w) (i : ℕ) (v : BitVec 32) : Memory w :=
  write32 m (a + BitVec.ofNat w (4 * i)) v

theorem toNat_add_ofNat {a : BitVec w} {k : ℕ} (h : a.toNat + k < 2 ^ w) :
    (a + BitVec.ofNat w k).toNat = a.toNat + k := by
  rw [BitVec.toNat_add, BitVec.toNat_ofNat, Nat.mod_eq_of_lt (show k < 2 ^ w by omega),
    Nat.mod_eq_of_lt h]

theorem read32_congr {m m' : Memory w} {a : BitVec w}
    (h : ∀ k < 4, m' (a + BitVec.ofNat w k) = m (a + BitVec.ofNat w k)) :
    read32 m' a = read32 m a := by
  apply BitVec.eq_of_getLsbD_eq
  intro i hi
  rw [getLsbD_read32 m' a hi, getLsbD_read32 m a hi, h (i / 8) (by omega)]

theorem write32_of_far (m : Memory w) {a b : BitVec w} (v : BitVec 32) (ha : a.toNat + 4 ≤ 2 ^ w)
    (h : b.toNat < a.toNat ∨ a.toNat + 4 ≤ b.toNat) : write32 m a v b = m b := by
  have hb := b.isLt
  have hoff : 4 ≤ (b - a).toNat := by
    rw [BitVec.toNat_sub]
    rcases h with h | h
    · rw [Nat.mod_eq_of_lt (by omega)]
      omega
    · rw [show 2 ^ w - a.toNat + b.toNat = b.toNat - a.toNat + 2 ^ w by omega,
        Nat.add_mod_right, Nat.mod_eq_of_lt (by omega)]
      omega
  rw [write32, if_neg (by omega)]

theorem sameBelow_setWord (m : Memory w) {a : BitVec w} {i : ℕ} (v : BitVec 32)
    (h : a.toNat + 4 * i + 4 ≤ 2 ^ w) : SameBelow (a.toNat + 4 * i) m (setWord m a i v) := by
  have haddr := toNat_add_ofNat (show a.toNat + 4 * i < 2 ^ w by omega)
  intro b hb
  exact write32_of_far m v (by omega) (.inl (by omega))

theorem word_congr {n : ℕ} {m m' : Memory w} {a : BitVec w} {i : ℕ} (h : SameBelow n m m')
    (hn : a.toNat + 4 * i + 4 ≤ n) (hfit : a.toNat + 4 * i + 4 ≤ 2 ^ w) :
    word m' a i = word m a i := by
  have haddr := toNat_add_ofNat (show a.toNat + 4 * i < 2 ^ w by omega)
  apply read32_congr
  intro k hk
  apply h
  rw [toNat_add_ofNat (by omega)]
  omega

theorem word_setWord (hw : 3 ≤ w) (m : Memory w) {a : BitVec w} {i j : ℕ} (v : BitVec 32)
    (hi : a.toNat + 4 * i + 4 ≤ 2 ^ w) (hj : a.toNat + 4 * j + 4 ≤ 2 ^ w) :
    word (setWord m a i v) a j = if j = i then v else word m a j := by
  have haddri := toNat_add_ofNat (show a.toNat + 4 * i < 2 ^ w by omega)
  have haddrj := toNat_add_ofNat (show a.toNat + 4 * j < 2 ^ w by omega)
  by_cases h : j = i
  · rw [if_pos h, h]
    exact read32_write32_same hw m _ v
  · rw [if_neg h]
    apply read32_congr
    intro k hk
    have hbyte := toNat_add_ofNat
      (show (a + BitVec.ofNat w (4 * j)).toNat + k < 2 ^ w by omega)
    exact write32_of_far m v (by omega) (by omega)

/-! ## Strings -/

structure CString where
  bytes : List (BitVec 8)
  nul_notMem : 0 ∉ bytes

/-- The memory after storing the bytes from `a` on, the first one first. -/
def writeBytes (m : Memory w) (a : BitVec w) : List (BitVec 8) → Memory w
  | [] => m
  | b :: bs => writeBytes (Function.update m a b) (a + 1) bs

def strcpy (m : Memory w) (a : BitVec w) (s : CString) : Memory w := writeBytes m a (s.bytes ++ [0])

/-- The string at `a`, if it ends within `n` bytes. -/
def readString (m : Memory w) (a : BitVec w) : ℕ → Option (List (BitVec 8))
  | 0 => none
  | n + 1 => if m a = 0 then some [] else (readString m (a + 1) n).map (m a :: ·)

theorem readString_succ (m : Memory w) (a : BitVec w) (n : ℕ) :
    readString m a (n + 1) = if m a = 0 then some [] else (readString m (a + 1) n).map (m a :: ·) :=
  rfl

theorem writeBytes_cons (m : Memory w) (a : BitVec w) (b : BitVec 8) (bs : List (BitVec 8)) :
    writeBytes m a (b :: bs) = writeBytes (Function.update m a b) (a + 1) bs := rfl

theorem toNat_add_one {a : BitVec w} (h : a.toNat + 1 < 2 ^ w) : (a + 1).toNat = a.toNat + 1 :=
  toNat_add_ofNat h

theorem sameBelow_writeBytes (m : Memory w) {a : BitVec w} {bs : List (BitVec 8)}
    (h : a.toNat + bs.length ≤ 2 ^ w) : SameBelow a.toNat m (writeBytes m a bs) := by
  induction bs generalizing m a with
  | nil => exact .refl _ m
  | cons b bs ih =>
    have hupdate : SameBelow a.toNat m (Function.update m a b) := by
      intro c hc
      rw [Function.update_of_ne (by rintro rfl; omega)]
    cases bs with
    | nil => exact hupdate
    | cons b' bs =>
      rw [List.length_cons] at h
      rw [List.length_cons] at h
      have hnext := toNat_add_one (show a.toNat + 1 < 2 ^ w by omega)
      have hrest := ih (Function.update m a b) (a := a + 1) (by rw [List.length_cons]; omega)
      exact hupdate.trans (hrest.mono (by omega))

theorem sameBelow_strcpy (m : Memory w) {a : BitVec w} {s : CString}
    (h : a.toNat + s.bytes.length + 1 ≤ 2 ^ w) : SameBelow a.toNat m (strcpy m a s) :=
  sameBelow_writeBytes m (by rw [List.length_append, List.length_singleton]; omega)

theorem readString_congr {n k : ℕ} {m m' : Memory w} {a : BitVec w} (h : SameBelow n m m')
    (hn : a.toNat + k ≤ n) (hfit : a.toNat + k ≤ 2 ^ w) : readString m' a k = readString m a k := by
  induction k generalizing a with
  | zero => rfl
  | succ k ih =>
    have hbyte : m' a = m a := h a (by omega)
    cases k with
    | zero => simp only [readString, hbyte]
    | succ k =>
      have hnext := toNat_add_one (show a.toNat + 1 < 2 ^ w by omega)
      have hrest : readString m' (a + 1) (k + 1) = readString m (a + 1) (k + 1) :=
        ih (by omega) (by omega)
      rw [readString_succ m' a, readString_succ m a, hbyte, hrest]

theorem readString_writeBytes (m : Memory w) {a : BitVec w} {bs : List (BitVec 8)} {k : ℕ}
    (hnul : 0 ∉ bs) (h : a.toNat + bs.length + 1 ≤ 2 ^ w) (hk : bs.length + 1 ≤ k) :
    readString (writeBytes m a (bs ++ [0])) a k = some bs := by
  induction bs generalizing m a k with
  | nil =>
    obtain ⟨k, rfl⟩ : ∃ k', k = k' + 1 := ⟨k - 1, by simp at hk; omega⟩
    simp [readString, writeBytes]
  | cons b bs ih =>
    simp only [List.length_cons] at h hk
    obtain ⟨k, rfl⟩ : ∃ k', k = k' + 1 := ⟨k - 1, by omega⟩
    simp only [List.mem_cons, not_or] at hnul
    have hnext := toNat_add_one (show a.toNat + 1 < 2 ^ w by omega)
    have hbyte : writeBytes (Function.update m a b) (a + 1) (bs ++ [0]) a = b := by
      have hbelow : SameBelow (a + 1).toNat (Function.update m a b)
          (writeBytes (Function.update m a b) (a + 1) (bs ++ [0])) :=
        sameBelow_writeBytes _ (by rw [List.length_append, List.length_singleton]; omega)
      rw [hbelow a (by omega), Function.update_self]
    rw [List.cons_append, writeBytes_cons, readString_succ, hbyte, if_neg (Ne.symm hnul.1),
      ih _ hnul.2 (by omega) (by omega)]
    rfl

/-- What was copied is read back, by any reader that looks far enough. -/
theorem readString_strcpy (m : Memory w) {a : BitVec w} {s : CString} {k : ℕ}
    (h : a.toNat + s.bytes.length + 1 ≤ 2 ^ w) (hk : s.bytes.length + 1 ≤ k) :
    readString (strcpy m a s) a k = some s.bytes :=
  readString_writeBytes m s.nul_notMem h hk

end ByteMemory
