import Mathlib.Data.List.Chain

/-!
# Arenas

An arena is a row of cells without gaps between them, some of them free. It is given by the sizes
of the cells, in order of their addresses, so that cells cannot overlap. In a sound arena no cell
is empty and no two free cells are next to each other; then a gap between the used cells is always
in one free cell: `Sound.exists_free`.
-/

namespace Arena

structure Cell where
  free : Bool
  size : ℕ

structure Block where
  start : ℕ
  size : ℕ

def Block.stop (b : Block) : ℕ := b.start + b.size

def total : List Cell → ℕ
  | [] => 0
  | c :: cs => c.size + total cs

def blocks (free : Bool) : ℕ → List Cell → List Block
  | _, [] => []
  | u, c :: cs =>
      if c.free = free then ⟨u, c.size⟩ :: blocks free (u + c.size) cs
      else blocks free (u + c.size) cs

/-- No cell is empty, and of two neighbours one is used. -/
structure Sound (cs : List Cell) : Prop where
  pos : ∀ c ∈ cs, 0 < c.size
  used : cs.IsChain fun c d => c.free = false ∨ d.free = false

variable {f g : Bool} {u n k : ℕ} {cs ds : List Cell} {b c : Block}

@[simp]
theorem total_nil : total [] = 0 := rfl

@[simp]
theorem total_cons (c : Cell) (cs : List Cell) : total (c :: cs) = c.size + total cs := rfl

@[simp]
theorem total_append (cs ds : List Cell) : total (cs ++ ds) = total cs + total ds := by
  induction cs with
  | nil => simp
  | cons c cs ih => simp [ih, Nat.add_assoc]

@[simp]
theorem blocks_nil : blocks f u [] = [] := rfl

@[simp]
theorem blocks_cons (c : Cell) :
    blocks f u (c :: cs) =
      if c.free = f then ⟨u, c.size⟩ :: blocks f (u + c.size) cs else blocks f (u + c.size) cs :=
  rfl

@[simp]
theorem blocks_append (f : Bool) (u : ℕ) (cs ds : List Cell) :
    blocks f u (cs ++ ds) = blocks f u cs ++ blocks f (u + total cs) ds := by
  induction cs generalizing u with
  | nil => rfl
  | cons c cs ih =>
      rw [List.cons_append, blocks_cons, blocks_cons, ih, total_cons, Nat.add_assoc]
      split <;> rfl

theorem bounds_of_mem (hb : b ∈ blocks f u cs) : u ≤ b.start ∧ b.stop ≤ u + total cs := by
  induction cs generalizing u with
  | nil => cases hb
  | cons c cs ih =>
      rw [total_cons]
      have htail : b ∈ blocks f (u + c.size) cs → u ≤ b.start ∧ b.stop ≤ u + (c.size + total cs) :=
        fun h => by
          obtain ⟨hlow, hhigh⟩ := ih h
          omega
      rw [blocks_cons] at hb
      split at hb
      · rcases List.mem_cons.mp hb with rfl | hb
        · simp only [Block.stop]
          omega
        · exact htail hb
      · exact htail hb

/-- A block in a list of blocks is a cell of the arena, and what is before and after it are the
blocks of the cells before and after it. -/
theorem exists_cell {bs bs' : List Block} (h : blocks f u cs = bs ++ b :: bs') :
    ∃ A B, cs = A ++ ⟨f, b.size⟩ :: B ∧ b.start = u + total A ∧ blocks f u A = bs ∧
      blocks f b.stop B = bs' := by
  induction cs generalizing u bs with
  | nil => simp at h
  | cons c cs ih =>
      rw [blocks_cons] at h
      split at h
      · rename_i hfree
        cases bs with
        | nil =>
            rw [List.nil_append, List.cons.injEq] at h
            obtain ⟨rfl, hrest⟩ := h
            exact ⟨[], cs, by rw [← hfree]; rfl, rfl, rfl, hrest⟩
        | cons b' bs =>
            rw [List.cons_append, List.cons.injEq] at h
            obtain ⟨rfl, hrest⟩ := h
            obtain ⟨A, B, rfl, hstart, hA, hB⟩ := ih hrest
            refine ⟨c :: A, B, rfl, ?_, ?_, hB⟩
            · rw [hstart, total_cons, Nat.add_assoc]
            · rw [blocks_cons, if_pos hfree, hA]
      · rename_i hfree
        obtain ⟨A, B, rfl, hstart, hA, hB⟩ := ih h
        refine ⟨c :: A, B, rfl, ?_, ?_, hB⟩
        · rw [hstart, total_cons, Nat.add_assoc]
        · rw [blocks_cons, if_neg hfree, hA]

theorem exists_cell_of_mem (hb : b ∈ blocks f u cs) :
    ∃ A B, cs = A ++ ⟨f, b.size⟩ :: B ∧ b.start = u + total A := by
  obtain ⟨bs, bs', hsplit⟩ := List.append_of_mem hb
  obtain ⟨A, B, hcs, hstart, -⟩ := exists_cell hsplit
  exact ⟨A, B, hcs, hstart⟩

theorem mem_blocks_middle (A B : List Cell) (f : Bool) (u n : ℕ) :
    (⟨u + total A, n⟩ : Block) ∈ blocks f u (A ++ ⟨f, n⟩ :: B) := by
  simp

theorem pairwise_blocks (f : Bool) (u : ℕ) (cs : List Cell) :
    (blocks f u cs).Pairwise fun b c => b.stop ≤ c.start := by
  induction cs generalizing u with
  | nil => exact .nil
  | cons c cs ih =>
      rw [blocks_cons]
      split
      · exact List.pairwise_cons.mpr ⟨fun b hb => (bounds_of_mem hb).1, ih _⟩
      · exact ih _

theorem apart_of_mem (hb : b ∈ blocks f u cs) (hc : c ∈ blocks g u cs)
    (hne : b.start ≠ c.start) : b.stop ≤ c.start ∨ c.stop ≤ b.start := by
  induction cs generalizing u with
  | nil => cases hb
  | cons d cs ih =>
      have hhead : ∀ {h : Bool} {e : Block}, e ∈ blocks h u (d :: cs) →
          e = ⟨u, d.size⟩ ∨ e ∈ blocks h (u + d.size) cs := by
        intro h e he
        rw [blocks_cons] at he
        split at he
        · exact List.mem_cons.mp he
        · exact .inr he
      rcases hhead hb with rfl | hb' <;> rcases hhead hc with rfl | hc'
      · exact absurd rfl hne
      · exact .inl (bounds_of_mem hc').1
      · exact .inr (bounds_of_mem hb').1
      · exact ih hb' hc'

/-! ## Sound arenas -/

theorem sound_append_cons {A B : List Cell} {c : Cell} (h : Sound (A ++ c :: B)) :
    Sound A ∧ Sound B ∧ 0 < c.size ∧ (∀ a ∈ A.getLast?, a.free = false ∨ c.free = false) ∧
      ∀ b ∈ B.head?, c.free = false ∨ b.free = false := by
  obtain ⟨hpos, hused⟩ := h
  obtain ⟨hA, hcB, hmid⟩ := List.isChain_append.mp hused
  obtain ⟨hc, hB⟩ := List.isChain_cons.mp hcB
  refine ⟨⟨fun a ha => hpos a (List.mem_append_left _ ha), hA⟩,
    ⟨fun b hb => hpos b (by simp [hb]), hB⟩, hpos c (by simp), ?_, hc⟩
  exact fun a ha => hmid a ha c rfl

theorem Sound.append_cons {A B : List Cell} {c : Cell} (hA : Sound A) (hB : Sound B)
    (hc : 0 < c.size) (hleft : ∀ a ∈ A.getLast?, a.free = false ∨ c.free = false)
    (hright : ∀ b ∈ B.head?, c.free = false ∨ b.free = false) : Sound (A ++ c :: B) := by
  constructor
  · intro d hd
    rcases List.mem_append.mp hd with hd | hd
    · exact hA.pos d hd
    · rcases List.mem_cons.mp hd with rfl | hd
      · exact hc
      · exact hB.pos d hd
  · refine List.isChain_append.mpr ⟨hA.used, List.isChain_cons.mpr ⟨hright, hB.used⟩, ?_⟩
    intro a ha d hd
    obtain rfl : c = d := Option.some.inj hd
    exact hleft a ha

theorem Sound.pos_of_mem (h : Sound cs) (hb : b ∈ blocks f u cs) : 0 < b.size := by
  obtain ⟨A, B, rfl, -⟩ := exists_cell_of_mem hb
  exact h.pos ⟨f, b.size⟩ (by simp)

theorem Sound.pairwise_start (h : Sound cs) (f : Bool) (u : ℕ) :
    (blocks f u cs).Pairwise fun b c => b.start < c.start := by
  refine (pairwise_blocks f u cs).imp_of_mem fun hb _ hstop => ?_
  have hpos := h.pos_of_mem hb
  simp only [Block.stop] at hstop
  omega

theorem Sound.start_ne (h : Sound cs) (hb : b ∈ blocks true u cs) (hc : c ∈ blocks false u cs) :
    b.start ≠ c.start := by
  induction cs generalizing u with
  | nil => cases hb
  | cons d cs ih =>
      obtain ⟨-, hcs, hpos, -⟩ := sound_append_cons (A := []) h
      rw [blocks_cons] at hb hc
      cases hd : d.free
      · rw [if_neg (by simp [hd])] at hb
        rw [if_pos hd] at hc
        rcases List.mem_cons.mp hc with rfl | hc
        · have hlow := (bounds_of_mem hb).1
          exact fun heq => by
            simp only at heq
            omega
        · exact ih hcs hb hc
      · rw [if_pos hd] at hb
        rw [if_neg (by simp [hd])] at hc
        rcases List.mem_cons.mp hb with rfl | hb
        · have hlow := (bounds_of_mem hc).1
          exact fun heq => by
            simp only at heq
            omega
        · exact ih hcs hb hc

theorem Sound.exists_free (h : Sound cs) {v : ℕ} (hn : 0 < n) (hu : u ≤ v)
    (hv : v + n ≤ u + total cs)
    (hgap : ∀ b ∈ blocks false u cs, v + n ≤ b.start ∨ b.stop ≤ v) :
    ∃ b ∈ blocks true u cs, n ≤ b.size := by
  induction cs generalizing u with
  | nil =>
      rw [total_nil] at hv
      omega
  | cons c cs ih =>
      obtain ⟨-, hcs, hpos, -, hnext⟩ := sound_append_cons (A := []) h
      rw [total_cons] at hv
      by_cases hin : v < u + c.size
      · have hfree : c.free = true := by
          by_contra hused
          rw [Bool.not_eq_true] at hused
          rcases hgap ⟨u, c.size⟩ (by simp [hused]) with hlow | hhigh
          · simp only at hlow
            omega
          · simp only [Block.stop] at hhigh
            omega
        refine ⟨⟨u, c.size⟩, by simp [hfree], ?_⟩
        cases cs with
        | nil =>
            rw [total_nil] at hv
            simp only
            omega
        | cons d ds =>
            have hused : d.free = false := (hnext d rfl).resolve_left (by simp [hfree])
            have hd := (sound_append_cons (A := []) hcs).2.2.1
            rcases hgap ⟨u + c.size, d.size⟩ (by simp [hfree, hused]) with hlow | hhigh
            · simp only at hlow ⊢
              omega
            · simp only [Block.stop] at hhigh
              omega
      · obtain ⟨b, hb, hsize⟩ := ih hcs (u := u + c.size) (by omega) (by omega) fun b hb =>
          hgap b (by rw [blocks_cons]; split <;> simp [hb])
        exact ⟨b, by rw [blocks_cons]; split <;> simp [hb], hsize⟩

/-! ## Use and release of cells -/

def rest (k n : ℕ) : List Cell := if k = n then [] else [⟨true, k - n⟩]

def take (A B : List Cell) (k n : ℕ) : List Cell := A ++ (rest k n ++ ⟨false, n⟩ :: B)

theorem total_rest (k n : ℕ) : total (rest k n) = k - n := by
  rw [rest]
  split
  · rw [total_nil]
    omega
  · exact Nat.add_zero _

theorem total_take (A B : List Cell) (h : n ≤ k) :
    total (take A B k n) = total (A ++ ⟨true, k⟩ :: B) := by
  simp only [take, total_append, total_cons, total_rest]
  omega

theorem blocks_rest_false : blocks false u (rest k n) = [] := by
  rw [rest]
  split <;> simp

theorem blocks_true_take (A B : List Cell) (h : n ≤ k) :
    blocks true u (take A B k n) = blocks true u A ++
      (blocks true (u + total A) (rest k n) ++ blocks true (u + total A + k) B) := by
  have hstop : u + total A + (k - n) + n = u + total A + k := by omega
  simp [take, total_rest, hstop]

theorem blocks_false_take (A B : List Cell) (h : n ≤ k) :
    blocks false u (take A B k n) = blocks false u A ++
      ⟨u + total A + (k - n), n⟩ :: blocks false (u + total A + k) B := by
  have hstop : u + total A + (k - n) + n = u + total A + k := by omega
  simp [take, total_rest, blocks_rest_false, hstop]

theorem Sound.take {A B : List Cell} (h : Sound (A ++ ⟨true, k⟩ :: B)) (hn : 0 < n) (hk : n ≤ k) :
    Sound (take A B k n) := by
  obtain ⟨hA, hB, hpos, hleft, hright⟩ := sound_append_cons h
  have hused : Sound ([] ++ ⟨false, n⟩ :: B) :=
    Sound.append_cons ⟨by simp, .nil⟩ hB hn (by simp) fun _ _ => .inl rfl
  rw [Arena.take, rest]
  split
  · exact hA.append_cons hB hn (fun _ _ => .inr rfl) fun _ _ => .inl rfl
  · refine hA.append_cons hused (c := ⟨true, k - n⟩) ?_ hleft ?_
    · simp only
      omega
    · intro b hb
      obtain rfl : ⟨false, n⟩ = b := Option.some.inj hb
      exact .inr rfl

/-- The size of a free cell and the cells after it, joined if the next cell is free. -/
def absorb (n : ℕ) : List Cell → ℕ × List Cell
  | ⟨true, k⟩ :: B => (n + k, B)
  | B => (n, B)

/-- The arena after a used cell was released: it is joined with free neighbours. -/
def release (A B : List Cell) (n : ℕ) : List Cell :=
  match A.getLast? with
  | some ⟨true, k⟩ => A.dropLast ++ ⟨true, k + (absorb n B).1⟩ :: (absorb n B).2
  | _ => A ++ ⟨true, (absorb n B).1⟩ :: (absorb n B).2

theorem absorb_cases (n : ℕ) (B : List Cell) :
    (∃ k B', B = ⟨true, k⟩ :: B' ∧ absorb n B = (n + k, B')) ∨
      (∀ b ∈ B.head?, b.free = false) ∧ absorb n B = (n, B) := by
  rcases B with - | ⟨⟨free, k⟩, B⟩
  · exact .inr ⟨by simp, rfl⟩
  · cases free
    · exact .inr ⟨by simp, rfl⟩
    · exact .inl ⟨k, B, rfl, rfl⟩

theorem release_cases (A B : List Cell) (n : ℕ) :
    (∃ A' k, A = A' ++ [⟨true, k⟩] ∧
      release A B n = A' ++ ⟨true, k + (absorb n B).1⟩ :: (absorb n B).2) ∨
    (∀ a ∈ A.getLast?, a.free = false) ∧
      release A B n = A ++ ⟨true, (absorb n B).1⟩ :: (absorb n B).2 := by
  rcases List.eq_nil_or_concat' A with rfl | ⟨A, ⟨free, k⟩, rfl⟩
  · exact .inr ⟨by simp, rfl⟩
  · cases free
    · exact .inr ⟨by simp, by simp [release]⟩
    · exact .inl ⟨A, k, rfl, by simp [release]⟩

theorem total_absorb (n : ℕ) (B : List Cell) :
    (absorb n B).1 + total (absorb n B).2 = n + total B := by
  rcases absorb_cases n B with ⟨k, B', rfl, h⟩ | ⟨-, h⟩
  · rw [h, total_cons, Nat.add_assoc]
  · rw [h]

theorem blocks_false_absorb (n : ℕ) (B : List Cell) :
    blocks false (u + (absorb n B).1) (absorb n B).2 = blocks false (u + n) B := by
  rcases absorb_cases n B with ⟨k, B', rfl, h⟩ | ⟨-, h⟩
  · simp [h, Nat.add_assoc]
  · rw [h]

theorem mem_of_mem_absorb {B : List Cell}
    (hb : b ∈ blocks f (u + (absorb n B).1) (absorb n B).2) : b ∈ blocks f (u + n) B := by
  rcases absorb_cases n B with ⟨k, B', rfl, h⟩ | ⟨-, h⟩
  · rw [h, ← Nat.add_assoc] at hb
    rw [blocks_cons]
    split
    · exact List.mem_cons_of_mem _ hb
    · exact hb
  · rwa [h] at hb

theorem Sound.absorb (h : Sound ds) (n : ℕ) :
    Sound (absorb n ds).2 ∧ ∀ b ∈ (absorb n ds).2.head?, b.free = false := by
  rcases absorb_cases n ds with ⟨k, B', rfl, heq⟩ | ⟨hhead, heq⟩
  · obtain ⟨-, hB, -, -, hnext⟩ := sound_append_cons (A := []) h
    rw [heq]
    exact ⟨hB, fun b hb => (hnext b hb).resolve_left (by simp)⟩
  · rw [heq]
    exact ⟨h, hhead⟩

theorem le_absorb (n : ℕ) (B : List Cell) : n ≤ (absorb n B).1 := by
  rcases absorb_cases n B with ⟨k, B', rfl, h⟩ | ⟨-, h⟩
  · rw [h]
    exact Nat.le_add_right n k
  · rw [h]

theorem total_release (A B : List Cell) (n : ℕ) :
    total (release A B n) = total (A ++ ⟨false, n⟩ :: B) := by
  have htotal := total_absorb n B
  rcases release_cases A B n with ⟨A', k, rfl, h⟩ | ⟨-, h⟩
  · rw [h]
    simp only [total_append, total_cons, total_nil]
    omega
  · rw [h]
    simp only [total_append, total_cons]
    omega

theorem blocks_false_release (A B : List Cell) (n : ℕ) :
    blocks false u (release A B n) = blocks false u A ++ blocks false (u + total A + n) B := by
  rcases release_cases A B n with ⟨A', k, rfl, h⟩ | ⟨-, h⟩
  · have hB := blocks_false_absorb (u := u + total A' + k) n B
    simp only [Nat.add_assoc] at hB
    rw [h]
    simp [hB, Nat.add_assoc]
  · have hB := blocks_false_absorb (u := u + total A) n B
    rw [h]
    simp [hB]

theorem Sound.release {A B : List Cell} (h : Sound (A ++ ⟨false, n⟩ :: B)) :
    Sound (release A B n) := by
  obtain ⟨hA, hB, hpos, -, -⟩ := sound_append_cons h
  obtain ⟨hrest, hnext⟩ := hB.absorb n
  have hle := le_absorb n B
  rcases release_cases A B n with ⟨A', k, rfl, heq⟩ | ⟨hleft, heq⟩
  · obtain ⟨hA', -, hk, hleft, -⟩ := sound_append_cons hA
    rw [heq]
    refine hA'.append_cons hrest ?_ hleft fun b hb => .inr (hnext b hb)
    simp only at hk ⊢
    omega
  · rw [heq]
    refine hA.append_cons hrest ?_ (fun a ha => .inl (hleft a ha)) fun b hb => .inr (hnext b hb)
    simp only at hpos ⊢
    omega

theorem Sound.mem_release {A B : List Cell} (h : Sound (A ++ ⟨false, n⟩ :: B)) :
    b ∈ blocks false u (Arena.release A B n) ↔
      b ∈ blocks false u (A ++ ⟨false, n⟩ :: B) ∧ b.start ≠ u + total A := by
  have hpos := (sound_append_cons h).2.2.1
  have hA := (sound_append_cons h).1
  have hbefore : b ∈ blocks false u A → b.start ≠ u + total A := fun hb => by
    have hbpos := hA.pos_of_mem hb
    have hstop := (bounds_of_mem hb).2
    rw [Block.stop] at hstop
    omega
  have hafter : b ∈ blocks false (u + total A + n) B → b.start ≠ u + total A := fun hb => by
    have hlow := (bounds_of_mem hb).1
    simp only at hpos
    omega
  rw [blocks_false_release, blocks_append, blocks_cons, if_pos rfl]
  simp only [List.mem_append, List.mem_cons]
  constructor
  · rintro (hb | hb)
    · exact ⟨.inl hb, hbefore hb⟩
    · exact ⟨.inr (.inr hb), hafter hb⟩
  · rintro ⟨hb | rfl | hb, hne⟩
    · exact .inl hb
    · exact absurd rfl hne
    · exact .inr hb

/-- The next free block begins at the end of a part if and only if the part is followed by a free
cell. -/
theorem Sound.lt_start (h : Sound cs) (hhead : ∀ c ∈ cs.head?, c.free = false)
    (hb : b ∈ blocks true u cs) : u < b.start := by
  rcases cs with - | ⟨c, cs⟩
  · cases hb
  · have hpos := (sound_append_cons (A := []) h).2.2.1
    have hc : c.free = false := hhead c rfl
    rw [blocks_cons, if_neg (by simp [hc])] at hb
    have hlow := (bounds_of_mem hb).1
    omega

theorem Sound.stop_lt (h : Sound cs) (hlast : ∀ c ∈ cs.getLast?, c.free = false)
    (hb : b ∈ blocks true u cs) : b.stop < u + total cs := by
  rcases List.eq_nil_or_concat' cs with rfl | ⟨cs, c, rfl⟩
  · cases hb
  · have hpos := (sound_append_cons h).2.2.1
    have hc : c.free = false := hlast c (by simp)
    rw [blocks_append, blocks_cons, if_neg (by simp [hc]), blocks_nil, List.append_nil] at hb
    have hhigh := (bounds_of_mem hb).2
    rw [total_append, total_cons, total_nil]
    omega

end Arena
