import KHypervisor.Lib.Headers
import KHypervisor.Libc.Memory

/-!
# The storage allocator

`malloc` and `free` of `lib/c/src/malloc.c` and `morecore` of `sys_morecore.c`, on the bytes of the
memory, and the functions that call them. A block begins with a header of eight bytes, of which the
first word points to the next free block and the second is the size of the block in units of a
header. The free blocks are linked to a circle with `base`, and the search for one begins where the
last one ended.

A loop that follows the pointers is bounded by a number of steps; there is no result if it is not
over by then.
-/

namespace KHypervisor

open ByteMemory

/-- `NALLOC`. -/
def nalloc : U32 := 0x10000

/-- `round_up` of `sys_morecore.c`. -/
def roundUp (address size : U32) : U32 := (address + (size - 1)) &&& ~~~(size - 1)

/-- The memory, the address of the static `base`, and the static variables `_kr_malloc_freep`,
`__malloc_bss` and `__malloc_top`. -/
structure Heap where
  mem : Memory 32
  base : U32
  freep : U32
  bss : U32
  top : U32

namespace Heap

/-- `p->s.ptr`. -/
def ptr (H : Heap) (p : U32) : U32 := first H.mem p

/-- `p->s.size`. -/
def size (H : Heap) (p : U32) : U32 := second H.mem p

def setPtr (p v : U32) (H : Heap) : Heap := { H with mem := setFirst H.mem p v }

def setSize (p v : U32) (H : Heap) : Heap := { H with mem := setSecond H.mem p v }

/-- `__malloc_init`. -/
def mallocInit (mem : Memory 32) (base beginHeap endHeap : U32) : Heap :=
  ⟨mem, base, 0, beginHeap, endHeap⟩

/-- The loop of `free`: the block after which `bp` belongs. -/
def freeScan (H : Heap) (bp : U32) : ℕ → U32 → Option U32
  | 0, _ => none
  | fuel + 1, p =>
      if p < bp ∧ bp < H.ptr p then some p
      -- the block is at the start or end of the arena
      else if H.ptr p ≤ p ∧ (p < bp ∨ bp < H.ptr p) then some p
      else freeScan H bp fuel (H.ptr p)

/-- "join to upper nbr" -/
def joinUpper (bp p : U32) (H : Heap) : Heap :=
  if bp + 8 * H.size bp = H.ptr p then
    let H := H.setSize bp (H.size bp + H.size (H.ptr p))
    H.setPtr bp (H.ptr (H.ptr p))
  else H.setPtr bp (H.ptr p)

/-- "join to lower nbr" -/
def joinLower (bp p : U32) (H : Heap) : Heap :=
  if p + 8 * H.size p = bp then
    let H := H.setSize p (H.size p + H.size bp)
    H.setPtr p (H.ptr bp)
  else H.setPtr p bp

def free (fuel : ℕ) (ap : U32) (H : Heap) : Option Heap :=
  if ap = 0 then some H
  else
    let bp := ap - 8
    (H.freeScan bp fuel H.freep).map fun p =>
      { joinLower bp p (joinUpper bp p H) with freep := p }

def morecore (fuel : ℕ) (nu : U32) (H : Heap) : Option (Heap × U32) :=
  let cp := H.bss
  let nb := roundUp (nu * 8) nalloc
  if H.top < H.bss + nb then some (H, 0)
  else
    (free fuel (cp + 8) (setSize cp (nb / 8) { H with bss := H.bss + nb })).map fun H =>
      (H, H.freep)

/-- `malloc` uses the block at `p`, or the end of it. -/
def allocate (prevp p nunits : U32) (H : Heap) : Heap × U32 :=
  if H.size p = nunits then ({ H.setPtr prevp (H.ptr p) with freep := prevp }, p + 8)
  else
    let H := H.setSize p (H.size p - nunits)
    let p := p + 8 * H.size p
    ({ H.setSize p nunits with freep := prevp }, p + 8)

/-- The loop of `malloc`. -/
def mallocLoop (nunits : U32) : ℕ → U32 → U32 → Heap → Option (Heap × U32)
  | 0, _, _, _ => none
  | fuel + 1, prevp, p, H =>
      if nunits ≤ H.size p then some (allocate prevp p nunits H)
      else if p = H.freep then
        (morecore fuel nunits H).bind fun r =>
          if r.2 = 0 then some r else mallocLoop nunits fuel r.2 (r.1.ptr r.2) r.1
      else mallocLoop nunits fuel p (H.ptr p) H

def nunits (nbytes : U32) : U32 := (nbytes + 8 - 1) / 8 + 1

def start (H : Heap) : Heap :=
  if H.freep = 0 then ({ H with freep := H.base }.setPtr H.base H.base).setSize H.base 0 else H

def malloc (fuel : ℕ) (nbytes : U32) (H : Heap) : Option (Heap × U32) :=
  mallocLoop (nunits nbytes) fuel H.start.freep (H.start.ptr H.start.freep) H.start

/-- The loop of `__malloc_check`. -/
def checkLoop (H : Heap) : ℕ → U32 → Option ℤ
  | 0, _ => none
  | fuel + 1, p =>
      if p = 0 then some 1
      -- "Free bits should be in order"
      else if H.ptr p < p ∧ p ≠ H.base then some 1
      else if H.ptr p < p + H.size p * 8 ∧ p ≠ H.base then some 1
      -- "shouldn't have zero sized free bits"
      else if H.size p = 0 ∧ p ≠ H.base then some 1
      else if p = H.freep then some 0
      else checkLoop H fuel (H.ptr p)

/-- `__malloc_check`. -/
def mallocCheck (fuel : ℕ) (H : Heap) : Option ℤ :=
  if H.freep = 0 then some 0 else H.checkLoop fuel (H.ptr H.freep)

/-! ## Functions that call `malloc` and `free` -/

def calloc (fuel : ℕ) (nmemb size : U32) (H : Heap) : Option (Heap × U32) :=
  (H.malloc fuel (nmemb * size)).map fun r =>
    if r.2 = 0 then r
    else ({ r.1 with mem := (Libc.memset r.2 0 (nmemb * size) r.1.mem).2 }, r.2)

def realloc (fuel : ℕ) (ap size : U32) (H : Heap) : Option (Heap × U32) :=
  if ap = 0 then H.malloc fuel size
  else
    let oldSize := 8 * (H.size (ap - 8) - 1)
    (H.malloc fuel size).bind fun r =>
      if r.2 = 0 then some r
      else
        let n := if oldSize ≤ size then oldSize else size
        (free fuel ap { r.1 with mem := (Libc.memcpy r.2 ap n r.1.mem).2 }).map fun H => (H, r.2)

def alignedAlloc (fuel : ℕ) (nbytes alignment : U32) (H : Heap) : Option (Heap × U32) :=
  let offset := alignment - 1 + 4
  (H.malloc fuel (nbytes + offset)).map fun r =>
    if r.2 = 0 then r
    else
      let alignedP := (r.2 + offset) &&& ~~~(alignment - 1)
      ({ r.1 with mem := write32 r.1.mem (alignedP - 4) r.2 }, alignedP)

def alignedFree (fuel : ℕ) (p : U32) (H : Heap) : Option Heap :=
  H.free fuel (read32 H.mem (p - 4))

/-! ## Assignments to headers -/

section Assignments

variable (H : Heap) {p q : U32} (v : U32)

@[simp]
theorem setPtr_base : (H.setPtr p v).base = H.base := rfl

@[simp]
theorem setPtr_freep : (H.setPtr p v).freep = H.freep := rfl

@[simp]
theorem setSize_base : (H.setSize p v).base = H.base := rfl

@[simp]
theorem setSize_freep : (H.setSize p v).freep = H.freep := rfl

theorem ptr_setPtr (hp : Aligned p) (hq : Aligned q) :
    (H.setPtr p v).ptr q = if q = p then v else H.ptr q :=
  first_setFirst H.mem v (by decide) hp hq

theorem size_setSize (hp : Aligned p) (hq : Aligned q) :
    (H.setSize p v).size q = if q = p then v else H.size q :=
  second_setSecond H.mem v (by decide) hp hq

theorem ptr_setSize (hp : Aligned p) (hq : Aligned q) : (H.setSize p v).ptr q = H.ptr q :=
  first_setSecond H.mem v (by decide) hp hq

theorem size_setPtr (hp : Aligned p) (hq : Aligned q) : (H.setPtr p v).size q = H.size q :=
  second_setFirst H.mem v (by decide) hp hq

end Assignments

end Heap

end KHypervisor
