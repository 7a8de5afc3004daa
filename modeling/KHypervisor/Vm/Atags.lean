import KHypervisor.Lib.ByteStrings
import KHypervisor.Types

/-!
# The list of tags for a guest's kernel

`atags.c` lays out the list that a kernel finds its memory and its command line in. The tags are
written one after the other at a cursor that every tag moves on by the size in its own header, and a
kernel goes through them in the same way until a tag of kind `ATAG_NONE`.

The size of a command line's tag is rounded to words by hand. It leaves room for the header, the
text and its zero, and the next tag is the first thing after it.
-/

namespace KHypervisor

open ByteMemory

/-! ## Writing the list -/

def atagNone : U32 := 0x00000000

def atagCore : U32 := 0x54410001

def atagMem : U32 := 0x54410002

def atagRevision : U32 := 0x54410007

def atagCmdline : U32 := 0x54410009

/-- `tag_size`, for a structure of that many bytes. -/
def tagSize (sizeofType : U32) : U32 := (8 + sizeofType) >>> 2

/-- `tag_next`. -/
def tagNext (m : Memory 32) (t : U32) : U32 := t + 4 * word m t 0

/-- The memory and `_params`. -/
structure Atags where
  mem : Memory 32
  params : U32

namespace Atags

/-- Assignments to the words of the `struct atag` at `_params`, by their index: `hdr.size` and
`hdr.tag` are the words 0 and 1, and the union begins at the word 2. -/
def assign (words : List (ℕ × U32)) (s : Atags) : Atags :=
  { s with mem := words.foldl (fun m f => setWord m s.params f.1 f.2) s.mem }

/-- `_params = tag_next(_params)`. -/
def next (s : Atags) : Atags := { s with params := tagNext s.mem s.params }

end Atags

def setupCoreTag (address pagesize : U32) (s : Atags) : Atags :=
  let s := { s with params := address }
  (s.assign [(1, atagCore), (0, tagSize 12), (2, 1), (3, pagesize), (4, 0)]).next

def setupRevisionTag (s : Atags) : Atags :=
  (s.assign [(1, atagRevision), (0, tagSize 4), (2, 0xcfdfdfdf)]).next

/-- In `struct atag_mem` the size stands before the start. -/
def setupMemTag (start len : U32) (s : Atags) : Atags :=
  (s.assign [(1, atagMem), (0, tagSize 8), (3, start), (2, len)]).next

def setupCmdlineTag (line : CString) (s : Atags) : Atags :=
  let linelen : U32 := BitVec.ofNat 32 line.bytes.length
  if linelen = 0 then s
  else
    let s := s.assign [(1, atagCmdline), (0, (8 + linelen + 1 + 4) >>> 2)]
    Atags.next { s with mem := strcpy s.mem (s.params + 8) line }

def setupEndTag (s : Atags) : Atags := s.assign [(1, atagNone), (0, 0)]

/-- The calls of `linuxloader_setup_atags`. -/
def setupAtags (address pagesize start len : U32) (line : CString) (s : Atags) : Atags :=
  setupEndTag (setupCmdlineTag line (setupMemTag start len
    (setupRevisionTag (setupCoreTag address pagesize s))))

/-- `commandline`. -/
def commandline : CString where
  bytes := "console=ttyAMA0 mem=256M root=/dev/mmcblk0 rw ip=dhcp".toList.map
    fun c => BitVec.ofNat 8 c.toNat
  nul_notMem := by decide

/-- `linuxloader_setup_atags`, with `SZ_4K` and `SZ_512M`. -/
def linuxloaderSetupAtags (src : U32) (s : Atags) : Atags :=
  setupAtags src 0x1000 src 0x20000000 commandline s

/-! ## Reading the list -/

inductive Atag
  | core (flags pagesize rootdev : U32)
  | revision (rev : U32)
  | mem (size start : U32)
  | cmdline (line : List U8)
deriving DecidableEq

def Atag.bytes : Atag → ℕ
  | core _ _ _ => 20
  | revision _ => 12
  | mem _ _ => 16
  | cmdline line => 8 + line.length + 1

/-- The tag at `t`. A command line must end within the size of its tag. -/
def parseAtag (m : Memory 32) (t : U32) : Option Atag :=
  if word m t 1 = atagCore then some (.core (word m t 2) (word m t 3) (word m t 4))
  else if word m t 1 = atagRevision then some (.revision (word m t 2))
  else if word m t 1 = atagMem then some (.mem (word m t 2) (word m t 3))
  else if word m t 1 = atagCmdline then
    (readString m (t + 8) (4 * (word m t 0).toNat - 8)).map .cmdline
  else none

structure PlacedAtag where
  start : U32
  size : U32
  tag : Atag

def PlacedAtag.stop (r : PlacedAtag) : ℕ := r.start.toNat + 4 * r.size.toNat

/-- What a kernel finds from `t` on, if it finds the end within so many steps. -/
def readAtags (m : Memory 32) : ℕ → U32 → Option (List PlacedAtag)
  | 0, _ => none
  | fuel + 1, t =>
    if word m t 1 = atagNone then some []
    else do
      let tag ← parseAtag m t
      let rest ← readAtags m fuel (tagNext m t)
      pure (⟨t, word m t 0, tag⟩ :: rest)

/-! ## One tag -/

/-- The tag `r` is in the memory, and what it is read from is within its size. -/
structure PlacedAtag.In (r : PlacedAtag) (m : Memory 32) : Prop where
  size_eq : word m r.start 0 = r.size
  isTag : word m r.start 1 ≠ atagNone
  parse : parseAtag m r.start = some r.tag
  bytes_le : r.tag.bytes ≤ 4 * r.size.toNat

theorem Atag.eight_le_bytes (tag : Atag) : 8 ≤ tag.bytes := by
  cases tag <;> rw [bytes] <;> omega

theorem parseAtag_congr {m m' : Memory 32} {t : U32} {tag : Atag} {n : ℕ}
    (h : SameBelow n m m') (hn : t.toNat + 4 * (word m t 0).toNat ≤ n) (hfit : n ≤ 2 ^ 32)
    (hparse : parseAtag m t = some tag) (hbytes : tag.bytes ≤ 4 * (word m t 0).toNat) :
    parseAtag m' t = some tag := by
  have hheader := tag.eight_le_bytes
  have hsize : word m' t 0 = word m t 0 := word_congr h (by omega) (by omega)
  have htag : word m' t 1 = word m t 1 := word_congr h (by omega) (by omega)
  unfold parseAtag at hparse ⊢
  rw [htag, hsize]
  split at hparse
  case isTrue hcore =>
    obtain rfl := Option.some.inj hparse
    rw [Atag.bytes] at hbytes
    rw [if_pos hcore, word_congr h (by omega) (by omega), word_congr h (by omega) (by omega),
      word_congr h (by omega) (by omega)]
  case isFalse hcore =>
  rw [if_neg hcore]
  split at hparse
  case isTrue hrevision =>
    obtain rfl := Option.some.inj hparse
    rw [Atag.bytes] at hbytes
    rw [if_pos hrevision, word_congr h (by omega) (by omega)]
  case isFalse hrevision =>
  rw [if_neg hrevision]
  split at hparse
  case isTrue hmem =>
    obtain rfl := Option.some.inj hparse
    rw [Atag.bytes] at hbytes
    rw [if_pos hmem, word_congr h (by omega) (by omega), word_congr h (by omega) (by omega)]
  case isFalse hmem =>
  rw [if_neg hmem]
  split at hparse
  case isTrue hcmdline =>
    obtain ⟨line, hline, rfl⟩ := Option.map_eq_some_iff.mp hparse
    rw [Atag.bytes] at hbytes
    have htext : (t + 8).toNat = t.toNat + 8 := toNat_add_ofNat (show t.toNat + 8 < 2 ^ 32 by omega)
    rw [if_pos hcmdline, readString_congr h (by omega) (by omega), hline, Option.map_some]
  case isFalse hcmdline => exact nomatch hparse

theorem PlacedAtag.In.congr {r : PlacedAtag} {m m' : Memory 32} {n : ℕ} (hr : r.In m)
    (h : SameBelow n m m') (hn : r.stop ≤ n) (hfit : n ≤ 2 ^ 32) : r.In m' := by
  have hheader := r.tag.eight_le_bytes
  have hbytes := hr.bytes_le
  rw [stop] at hn
  refine ⟨?_, ?_, ?_, hbytes⟩
  · rw [word_congr h (by omega) (by omega), hr.size_eq]
  · rw [word_congr h (by omega) (by omega)]
    exact hr.isTag
  · exact parseAtag_congr h (by rw [hr.size_eq]; omega) hfit hr.parse (by rw [hr.size_eq]; omega)

theorem PlacedAtag.In.toNat_tagNext {r : PlacedAtag} {m : Memory 32} (hr : r.In m)
    (hfit : r.stop < 2 ^ 32) : (tagNext m r.start).toNat = r.stop := by
  rw [stop] at hfit ⊢
  rw [tagNext, hr.size_eq, BitVec.toNat_add, BitVec.toNat_mul]
  have hfour : (4 : U32).toNat = 4 := rfl
  rw [hfour, Nat.mod_eq_of_lt (show 4 * r.size.toNat < 2 ^ 32 by omega), Nat.mod_eq_of_lt hfit]

/-! ## A row of tags -/

/-- The tags `rs` follow one another from `a` to `e`. -/
def TagsFrom (m : Memory 32) : U32 → List PlacedAtag → U32 → Prop
  | a, [], e => a = e
  | a, r :: rs, e => r.start = a ∧ r.In m ∧ r.stop < 2 ^ 32 ∧ TagsFrom m (tagNext m a) rs e

namespace TagsFrom

variable {m m' : Memory 32} {a e : U32} {rs : List PlacedAtag}

theorem start_le (h : TagsFrom m a rs e) : a.toNat ≤ e.toNat := by
  induction rs generalizing a with
  | nil => exact (congrArg BitVec.toNat h).le
  | cons r rs ih =>
    obtain ⟨rfl, hin, hfit, hrest⟩ := h
    have hnext := ih hrest
    rw [hin.toNat_tagNext hfit, PlacedAtag.stop] at hnext
    omega

theorem within (h : TagsFrom m a rs e) :
    ∀ r ∈ rs, r.In m ∧ a.toNat ≤ r.start.toNat ∧ r.stop ≤ e.toNat := by
  induction rs generalizing a with
  | nil => exact fun r hr => absurd hr List.not_mem_nil
  | cons r rs ih =>
    obtain ⟨rfl, hin, hfit, hrest⟩ := h
    have hle := hrest.start_le
    have hnext := hin.toNat_tagNext hfit
    intro r' hr'
    rcases List.mem_cons.mp hr' with rfl | hr'
    · exact ⟨hin, le_rfl, by omega⟩
    · obtain ⟨hin', hstart, hstop⟩ := ih hrest r' hr'
      rw [hnext, PlacedAtag.stop] at hstart
      exact ⟨hin', by omega, hstop⟩

theorem pairwise (h : TagsFrom m a rs e) :
    rs.Pairwise fun r r' => r.stop ≤ r'.start.toNat := by
  induction rs generalizing a with
  | nil => exact List.Pairwise.nil
  | cons r rs ih =>
    obtain ⟨rfl, hin, hfit, hrest⟩ := h
    refine List.Pairwise.cons ?_ (ih hrest)
    intro r' hr'
    have hstart := (hrest.within r' hr').2.1
    rwa [hin.toNat_tagNext hfit] at hstart

theorem congr (h : TagsFrom m a rs e) (hsame : SameBelow e.toNat m m') : TagsFrom m' a rs e := by
  induction rs generalizing a with
  | nil => exact h
  | cons r rs ih =>
    obtain ⟨rfl, hin, hfit, hrest⟩ := h
    have hle := hrest.start_le
    rw [hin.toNat_tagNext hfit] at hle
    have hin' := hin.congr hsame hle e.isLt.le
    have hnext : tagNext m' r.start = tagNext m r.start :=
      BitVec.eq_of_toNat_eq (by rw [hin'.toNat_tagNext hfit, hin.toNat_tagNext hfit])
    exact ⟨rfl, hin', hfit, by rw [hnext]; exact ih hrest⟩

theorem append {r : PlacedAtag} (h : TagsFrom m a rs r.start) (hin : r.In m)
    (hfit : r.stop < 2 ^ 32) : TagsFrom m a (rs ++ [r]) (tagNext m r.start) := by
  induction rs generalizing a with
  | nil =>
    cases h
    exact ⟨rfl, hin, hfit, rfl⟩
  | cons r' rs ih =>
    obtain ⟨rfl, hin', hfit', hrest⟩ := h
    exact ⟨rfl, hin', hfit', ih hrest⟩

/-- A reader that finds the end where the row ends has found the row. -/
theorem readAtags_eq (h : TagsFrom m a rs e) (hend : word m e 1 = atagNone) {fuel : ℕ}
    (hfuel : rs.length < fuel) : readAtags m fuel a = some rs := by
  induction rs generalizing a fuel with
  | nil =>
    cases h
    obtain ⟨fuel, rfl⟩ : ∃ n, fuel = n + 1 := ⟨fuel - 1, by simp at hfuel; omega⟩
    rw [readAtags, if_pos hend]
  | cons r rs ih =>
    obtain ⟨rfl, hin, hfit, hrest⟩ := h
    rw [List.length_cons] at hfuel
    obtain ⟨fuel, rfl⟩ : ∃ n, fuel = n + 1 := ⟨fuel - 1, by omega⟩
    rw [readAtags, if_neg hin.isTag, hin.parse, ih hrest (by omega), hin.size_eq]
    rfl

end TagsFrom

/-! ## What the writers leave -/

/-- Where the words fit, the last assignment to each is what it has. -/
theorem word_assign (s : Atags) {words : List (ℕ × U32)} {j : ℕ}
    (hwords : ∀ f ∈ words, s.params.toNat + 4 * f.1 + 4 ≤ 2 ^ 32)
    (hj : s.params.toNat + 4 * j + 4 ≤ 2 ^ 32) :
    word (s.assign words).mem s.params j =
      words.foldl (fun v f => if j = f.1 then f.2 else v) (word s.mem s.params j) := by
  rw [Atags.assign]
  generalize s.mem = m
  induction words generalizing m with
  | nil => rfl
  | cons f words ih =>
    have hf := hwords f List.mem_cons_self
    rw [List.foldl_cons, List.foldl_cons,
      ih (fun f' hf' => hwords f' (List.mem_cons_of_mem _ hf')),
      word_setWord (by omega) m f.2 hf hj]

theorem sameBelow_assign (s : Atags) {words : List (ℕ × U32)}
    (hwords : ∀ f ∈ words, s.params.toNat + 4 * f.1 + 4 ≤ 2 ^ 32) :
    SameBelow s.params.toNat s.mem (s.assign words).mem := by
  rw [Atags.assign]
  generalize s.mem = m
  induction words generalizing m with
  | nil => exact .refl _ m
  | cons f words ih =>
    have hf := sameBelow_setWord m f.2 (hwords f List.mem_cons_self)
    exact (hf.mono (by omega)).trans (ih (fun f' hf' => hwords f' (List.mem_cons_of_mem _ hf')) _)

/-- The tags `rs` are all that has been written from `a` on. -/
def Atags.Wrote (a : U32) (rs : List PlacedAtag) (s : Atags) : Prop := TagsFrom s.mem a rs s.params

/-- The step that every tag takes: what is below the cursor stays, a tag is put there, and the
cursor is moved behind it. -/
theorem Atags.Wrote.next {a size : U32} {tag : Atag} {rs : List PlacedAtag} {s s' : Atags}
    (h : s.Wrote a rs) (hparams : s'.params = s.params)
    (hsame : SameBelow s.params.toNat s.mem s'.mem)
    (hin : PlacedAtag.In ⟨s.params, size, tag⟩ s'.mem)
    (hfit : s.params.toNat + 4 * size.toNat < 2 ^ 32) :
    s'.next.Wrote a (rs ++ [⟨s.params, size, tag⟩]) ∧
      s'.next.params.toNat = s.params.toNat + 4 * size.toNat := by
  rw [Wrote, Atags.next, hparams]
  exact ⟨TagsFrom.append (TagsFrom.congr h hsame) hin hfit, hin.toNat_tagNext hfit⟩

theorem Atags.Wrote.assign {a size : U32} {tag : Atag} {rs : List PlacedAtag} {s : Atags}
    {words : List (ℕ × U32)} (h : s.Wrote a rs) (hwords : ∀ f ∈ words, f.1 < size.toNat)
    (hfit : s.params.toNat + 4 * size.toNat < 2 ^ 32)
    (hin : ∀ m : Memory 32, (∀ j < size.toNat, word m s.params j =
      words.foldl (fun v f => if j = f.1 then f.2 else v) (word s.mem s.params j)) →
        PlacedAtag.In ⟨s.params, size, tag⟩ m) :
    (s.assign words).next.Wrote a (rs ++ [⟨s.params, size, tag⟩]) ∧
      (s.assign words).next.params.toNat = s.params.toNat + 4 * size.toNat := by
  have hplace : ∀ f ∈ words, s.params.toNat + 4 * f.1 + 4 ≤ 2 ^ 32 := by
    intro f hf
    have hindex := hwords f hf
    omega
  exact h.next rfl (sameBelow_assign s hplace)
    (hin _ fun j hj => word_assign s hplace (by omega)) hfit

theorem setupCoreTag_wrote {address : U32} (pagesize : U32) (s : Atags)
    (hfit : address.toNat + 20 < 2 ^ 32) :
    (setupCoreTag address pagesize s).Wrote address [⟨address, 5, .core 1 pagesize 0⟩] ∧
      (setupCoreTag address pagesize s).params.toNat = address.toNat + 20 := by
  have hempty : Atags.Wrote address [] { s with params := address } := rfl
  refine hempty.assign (by simp) hfit ?_
  intro m hword
  have hsize : word m address 0 = 5 := hword 0 (by decide)
  have htag : word m address 1 = atagCore := hword 1 (by decide)
  have hflags : word m address 2 = 1 := hword 2 (by decide)
  have hpagesize : word m address 3 = pagesize := hword 3 (by decide)
  have hrootdev : word m address 4 = 0 := hword 4 (by decide)
  refine ⟨hsize, by rw [htag]; decide, ?_, le_rfl⟩
  rw [parseAtag, if_pos htag, hflags, hpagesize, hrootdev]

theorem setupRevisionTag_wrote {a : U32} {rs : List PlacedAtag} {s : Atags} (h : s.Wrote a rs)
    (hfit : s.params.toNat + 12 < 2 ^ 32) :
    (setupRevisionTag s).Wrote a (rs ++ [⟨s.params, 3, .revision 0xcfdfdfdf⟩]) ∧
      (setupRevisionTag s).params.toNat = s.params.toNat + 12 := by
  refine h.assign (by simp) hfit ?_
  intro m hword
  have hsize : word m s.params 0 = 3 := hword 0 (by decide)
  have htag : word m s.params 1 = atagRevision := hword 1 (by decide)
  have hrev : word m s.params 2 = 0xcfdfdfdf := hword 2 (by decide)
  refine ⟨hsize, by rw [htag]; decide, ?_, le_rfl⟩
  rw [parseAtag, htag, if_neg (by decide), if_pos rfl, hrev]

theorem setupMemTag_wrote {a : U32} (start len : U32) {rs : List PlacedAtag} {s : Atags}
    (h : s.Wrote a rs) (hfit : s.params.toNat + 16 < 2 ^ 32) :
    (setupMemTag start len s).Wrote a (rs ++ [⟨s.params, 4, .mem len start⟩]) ∧
      (setupMemTag start len s).params.toNat = s.params.toNat + 16 := by
  refine h.assign (by simp) hfit ?_
  intro m hword
  have hsize : word m s.params 0 = 4 := hword 0 (by decide)
  have htag : word m s.params 1 = atagMem := hword 1 (by decide)
  have hlen : word m s.params 2 = len := hword 2 (by decide)
  have hstart : word m s.params 3 = start := hword 3 (by decide)
  refine ⟨hsize, by rw [htag]; decide, ?_, le_rfl⟩
  rw [parseAtag, htag, if_neg (by decide), if_neg (by decide), if_pos rfl, hlen, hstart]

def cmdlineWords (line : CString) : ℕ := (line.bytes.length + 13) / 4

theorem toNat_cmdline_size {line : CString} (hfit : line.bytes.length + 13 < 2 ^ 32) :
    ((8 + BitVec.ofNat 32 line.bytes.length + 1 + 4 : U32) >>> 2).toNat = cmdlineWords line := by
  have hlen : (BitVec.ofNat 32 line.bytes.length).toNat = line.bytes.length := by
    rw [BitVec.toNat_ofNat, Nat.mod_eq_of_lt (by omega)]
  have hsum : (8 + BitVec.ofNat 32 line.bytes.length + 1 + 4 : U32).toNat =
      line.bytes.length + 13 := by
    rw [BitVec.toNat_add, BitVec.toNat_add, BitVec.toNat_add, hlen,
      show (8 : U32).toNat = 8 from rfl, show (1 : U32).toNat = 1 from rfl,
      show (4 : U32).toNat = 4 from rfl]
    omega
  rw [BitVec.toNat_ushiftRight, hsum, Nat.shiftRight_eq_div_pow, cmdlineWords]

/-- The tag of a command line holds its header, the text and the zero, with a byte to spare. -/
theorem lt_cmdlineWords (line : CString) : 8 + line.bytes.length + 1 < 4 * cmdlineWords line := by
  rw [cmdlineWords]
  omega

/-- A text that is copied behind a header is a tag, if the header's size covers it. -/
theorem in_strcpy {m : Memory 32} {p size : U32} {line : CString} (hsize : word m p 0 = size)
    (htag : word m p 1 = atagCmdline) (hfit : p.toNat + 4 * size.toNat < 2 ^ 32)
    (hbytes : 8 + line.bytes.length + 1 < 4 * size.toNat) :
    SameBelow p.toNat m (strcpy m (p + 8) line) ∧
      PlacedAtag.In ⟨p, size, .cmdline line.bytes⟩ (strcpy m (p + 8) line) := by
  have htext : (p + 8).toNat = p.toNat + 8 := toNat_add_ofNat (show p.toNat + 8 < 2 ^ 32 by omega)
  have hcopy : SameBelow (p + 8).toNat m (strcpy m (p + 8) line) := sameBelow_strcpy m (by omega)
  have hsize' : word (strcpy m (p + 8) line) p 0 = size :=
    (word_congr hcopy (by omega) (by omega)).trans hsize
  have htag' : word (strcpy m (p + 8) line) p 1 = atagCmdline :=
    (word_congr hcopy (by omega) (by omega)).trans htag
  refine ⟨hcopy.mono (by omega), hsize', by rw [htag']; decide, ?_, hbytes.le⟩
  rw [parseAtag, htag', if_neg (by decide), if_neg (by decide), if_neg (by decide), if_pos rfl,
    hsize', readString_strcpy m (by omega) (by omega), Option.map_some]

theorem setupCmdlineTag_nil {line : CString} (s : Atags) (h : line.bytes = []) :
    setupCmdlineTag line s = s := by
  rw [setupCmdlineTag, h]
  rfl

theorem setupCmdlineTag_wrote {a : U32} {rs : List PlacedAtag} {line : CString} {s : Atags}
    (h : s.Wrote a rs) (hline : line.bytes ≠ [])
    (hfit : s.params.toNat + 4 * cmdlineWords line < 2 ^ 32) :
    ∃ r : PlacedAtag, r.tag = .cmdline line.bytes ∧
      (setupCmdlineTag line s).Wrote a (rs ++ [r]) ∧
      (setupCmdlineTag line s).params.toNat = s.params.toNat + 4 * cmdlineWords line := by
  have hbounds := lt_cmdlineWords line
  have hpos : 0 < line.bytes.length := List.length_pos_iff.mpr hline
  have hlen : (BitVec.ofNat 32 line.bytes.length).toNat = line.bytes.length := by
    rw [BitVec.toNat_ofNat, Nat.mod_eq_of_lt (by omega)]
  have hnonzero : BitVec.ofNat 32 line.bytes.length ≠ 0 := by
    intro hzero
    rw [hzero] at hlen
    exact hpos.ne hlen
  obtain ⟨size, hsize⟩ : ∃ size : U32,
      (8 + BitVec.ofNat 32 line.bytes.length + 1 + 4) >>> 2 = size := ⟨_, rfl⟩
  have hwords : size.toNat = cmdlineWords line := by
    rw [← hsize]
    rw [cmdlineWords] at hfit
    exact toNat_cmdline_size (by omega)
  rw [setupCmdlineTag, if_neg hnonzero, hsize]
  have hheader : ∀ f ∈ [(1, atagCmdline), (0, size)], s.params.toNat + 4 * f.1 + 4 ≤ 2 ^ 32 := by
    simp
    omega
  rw [← hwords] at hfit hbounds ⊢
  obtain ⟨hcopy, hin⟩ := in_strcpy (word_assign s hheader (by omega))
    (word_assign s hheader (by omega)) hfit hbounds
  exact ⟨⟨s.params, size, .cmdline line.bytes⟩, rfl,
    h.next rfl ((sameBelow_assign s hheader).trans hcopy) hin hfit⟩

theorem setupEndTag_wrote {a : U32} {rs : List PlacedAtag} {s : Atags} (h : s.Wrote a rs)
    (hfit : s.params.toNat + 8 ≤ 2 ^ 32) :
    (setupEndTag s).Wrote a rs ∧
      word (setupEndTag s).mem (setupEndTag s).params 1 = atagNone := by
  have hwords : ∀ f ∈ [(1, atagNone), (0, 0)], s.params.toNat + 4 * f.1 + 4 ≤ 2 ^ 32 := by
    simp
    omega
  exact ⟨TagsFrom.congr h (sameBelow_assign s hwords), word_assign s hwords (by omega)⟩

/-! ## The list as it is read -/

def tagsOf (pagesize start len : U32) (line : CString) : List Atag :=
  [.core 1 pagesize 0, .revision 0xcfdfdfdf, .mem len start] ++
    if line.bytes = [] then [] else [.cmdline line.bytes]

def listBytes (line : CString) : ℕ :=
  20 + 12 + 16 + (if line.bytes = [] then 0 else 4 * cmdlineWords line) + 8

/-- The tags are written one after the other, and there is room for the last one. -/
theorem setupCmdlineTag_wrote_tagsOf {address pagesize start len : U32} {line : CString} {s : Atags}
    (hfit : address.toNat + listBytes line ≤ 2 ^ 32) :
    ∃ rs : List PlacedAtag, rs.map (·.tag) = tagsOf pagesize start len line ∧
      (setupCmdlineTag line (setupMemTag start len
        (setupRevisionTag (setupCoreTag address pagesize s)))).Wrote address rs ∧
      (setupCmdlineTag line (setupMemTag start len
        (setupRevisionTag (setupCoreTag address pagesize s)))).params.toNat + 8 =
          address.toNat + listBytes line := by
  rw [listBytes] at hfit ⊢
  obtain ⟨hcore, hcore'⟩ := setupCoreTag_wrote pagesize s
    (show address.toNat + 20 < 2 ^ 32 by omega)
  obtain ⟨hrevision, hrevision'⟩ := setupRevisionTag_wrote hcore (by omega)
  obtain ⟨hmem, hmem'⟩ := setupMemTag_wrote start len hrevision (by omega)
  by_cases hline : line.bytes = []
  · rw [if_pos hline, setupCmdlineTag_nil _ hline]
    refine ⟨_, ?_, hmem, by omega⟩
    rw [tagsOf, if_pos hline]
    rfl
  · rw [if_neg hline] at hfit ⊢
    obtain ⟨r, hr, hcmdline, hcmdline'⟩ := setupCmdlineTag_wrote hmem hline (by omega)
    refine ⟨_, ?_, hcmdline, by omega⟩
    rw [tagsOf, if_neg hline, List.map_append, List.map_singleton, hr]
    rfl

/-- Where the list fits, a reader finds in it what it was set up with, in tags that do not reach
into one another. -/
theorem setupAtags_decodes (address pagesize start len : U32) (line : CString) (s : Atags)
    (hfit : address.toNat + listBytes line ≤ 2 ^ 32) :
    ∃ rs : List PlacedAtag,
      (∀ fuel, 5 ≤ fuel →
        readAtags (setupAtags address pagesize start len line s).mem fuel address = some rs) ∧
      rs.map (·.tag) = tagsOf pagesize start len line ∧
      (∀ r ∈ rs, r.tag.bytes ≤ 4 * r.size.toNat) ∧
      (rs.Pairwise fun r r' => r.stop ≤ r'.start.toNat) ∧
      (∀ r ∈ rs, r.stop ≤ (setupAtags address pagesize start len line s).params.toNat) ∧
      (setupAtags address pagesize start len line s).params.toNat + 8 =
        address.toNat + listBytes line := by
  obtain ⟨rs, htags, hwrote, hstop⟩ := setupCmdlineTag_wrote_tagsOf (s := s) hfit
  obtain ⟨hlist, hend⟩ := setupEndTag_wrote hwrote (by omega)
  have hlength : rs.length ≤ 4 := by
    rw [← List.length_map (·.tag), htags, tagsOf]
    split <;> simp
  have hwithin := TagsFrom.within hlist
  exact ⟨rs, fun fuel hfuel => TagsFrom.readAtags_eq hlist hend (by omega), htags,
    fun r hr => (hwithin r hr).1.bytes_le, TagsFrom.pairwise hlist,
    fun r hr => (hwithin r hr).2.2, hstop⟩

/-- The list of the first guest on the Banana Pi. -/
theorem setupAtags_decodes_loader :
    ∃ rs : List PlacedAtag,
      (∀ fuel, 5 ≤ fuel →
        readAtags (linuxloaderSetupAtags 0x48000000 ⟨fun _ => 0, 0⟩).mem fuel 0x48000000 =
          some rs) ∧
      rs.map (·.tag) = [.core 1 0x1000 0, .revision 0xcfdfdfdf, .mem 0x20000000 0x48000000,
        .cmdline commandline.bytes] ∧
      (∀ r ∈ rs, r.tag.bytes ≤ 4 * r.size.toNat) ∧
      (rs.Pairwise fun r r' => r.stop ≤ r'.start.toNat) ∧
      (∀ r ∈ rs, r.stop ≤ (linuxloaderSetupAtags 0x48000000 ⟨fun _ => 0, 0⟩).params.toNat) ∧
      (linuxloaderSetupAtags 0x48000000 ⟨fun _ => 0, 0⟩).params.toNat + 8 = 0x48000000 + 120 :=
  setupAtags_decodes 0x48000000 0x1000 0x48000000 0x20000000 commandline ⟨fun _ => 0, 0⟩ (by decide)

end KHypervisor
