import DualFuse.Memory.Physical

/-! The kernel's `malloc` (`memory/liballoc.cpp`, `memory/liballoc_hooks.cpp`). A region of
frames is reached through the direct map, at `hhdmOffset` above its physical address; a
tag stands before each block, and the blocks of a region link to their neighbours. The
functions compute pointers from the lower 32 bits of an address and the offset of the
direct map. The doubly linked lists of free tags are lists here, the first tag first. -/

namespace DualFuse.Memory

open Library Utility

def liballocMagic : ℕ := 0xc001c0de
def maxComplete : ℤ := 5
def maxExp : ℕ := 32
def minExp : ℕ := 8
def liballocPageSize : ℕ := 4096
def liballocPageCount : ℕ := 16

/-- `sizeof(struct boundary_tag)`. -/
def tagSize : ℕ := 48

/-- An `unsigned int` result. -/
def wrap32 (n : ℕ) : ℕ := n % 2 ^ 32

/-- A difference of `unsigned int`s. -/
def sub32 (a b : ℕ) : ℕ := wrap32 (a + (2 ^ 32 - wrap32 b))

/-- A difference of `size_t`s. -/
def sub64 (a b : ℕ) : ℕ := wrap (a + (2 ^ 64 - wrap b))

structure BoundaryTag where
  magic : ℕ
  size : ℕ
  realSize : ℕ
  index : ℤ
  splitLeft : ℕ
  splitRight : ℕ
  deriving DecidableEq

/-- The tags in memory, the lists of free tags, and the frames below. -/
@[ext]
structure Liballoc where
  tags : ℕ → BoundaryTag
  freePages : ℤ → List ℕ
  completePages : ℤ → ℤ
  frames : Bitmap

/-- The loop of `getexp`, with `n` turns left. -/
def getexpFrom (size : ℕ) : ℕ → ℕ → ℕ
  | 0, shift => shift
  | n + 1, shift => if 2 ^ shift > size then shift else getexpFrom size n (shift + 1)

def getexp (size : ℕ) : ℤ :=
  if size < 2 ^ minExp then -1 else (getexpFrom size (maxExp - minExp) minExp : ℤ) - 1

/-- The loop goes past an exponent exactly where the power is not too large. -/
theorem lt_getexpFrom_iff {size n shift j : ℕ} (hlow : shift ≤ j) (hhigh : j < shift + n) :
    j < getexpFrom size n shift ↔ 2 ^ j ≤ size := by
  induction n generalizing shift with
  | zero => omega
  | succ n ih =>
    have hmono : 2 ^ shift ≤ 2 ^ j := Nat.pow_le_pow_right (by omega) hlow
    rw [getexpFrom]
    by_cases hstop : 2 ^ shift > size
    · rw [if_pos hstop]
      omega
    · rw [if_neg hstop]
      rcases Nat.eq_or_lt_of_le hlow with rfl | hlt
      · have hge : ∀ m k, k ≤ getexpFrom size m k := by
          intro m
          induction m with
          | zero => exact fun k => le_rfl
          | succ m hm =>
            intro k
            rw [getexpFrom]
            split
            · exact le_rfl
            · exact (Nat.le_succ k).trans (hm (k + 1))
        have := hge n (shift + 1)
        omega
      · exact ih hlt (by omega)

theorem le_getexp_iff {size j : ℕ} (hlow : minExp ≤ j) (hhigh : j < maxExp) : (j : ℤ) ≤ getexp size ↔ 2 ^ j ≤ size := by
  have hmono : 2 ^ minExp ≤ 2 ^ j := Nat.pow_le_pow_right (by omega) hlow
  unfold getexp
  split
  · omega
  · rw [← lt_getexpFrom_iff (n := maxExp - minExp) hlow (by unfold maxExp minExp at *; omega)]
    omega

theorem getexp_nonneg_iff {size : ℕ} : 0 ≤ getexp size ↔ 2 ^ minExp ≤ size := by
  rw [← le_getexp_iff le_rfl (by decide)]
  unfold getexp
  split
  · omega
  · rename_i h
    have := (lt_getexpFrom_iff (n := maxExp - minExp) le_rfl (by decide)).mpr (not_lt.mp h)
    omega

namespace Liballoc

/-- One tag is written. -/
def setTag (h : Liballoc) (t : ℕ) (tag : BoundaryTag) : Liballoc := { h with tags := Function.update h.tags t tag }

def insertTag (h : Liballoc) (t : ℕ) (index : ℤ) : Liballoc :=
  let realIndex := if index < 0 then max (getexp (sub32 (h.tags t).realSize tagSize)) minExp else index
  { h.setTag t { h.tags t with index := realIndex } with
    freePages := Function.update h.freePages realIndex (t :: h.freePages realIndex) }

def removeTag (h : Liballoc) (t : ℕ) : Liballoc :=
  let index := (h.tags t).index
  { h.setTag t { h.tags t with index := -1 } with
    freePages := Function.update h.freePages index ((h.freePages index).erase t) }

/-- `p->split_left = left`, unless `p` is null. -/
def setSplitLeft (h : Liballoc) (p left : ℕ) : Liballoc :=
  if p ≠ 0 then h.setTag p { h.tags p with splitLeft := left } else h

def meltLeft (h : Liballoc) (t : ℕ) : Liballoc × ℕ :=
  let left := (h.tags t).splitLeft
  let h := h.setTag left { h.tags left with
    realSize := wrap32 ((h.tags left).realSize + (h.tags t).realSize)
    splitRight := (h.tags t).splitRight }
  (h.setSplitLeft (h.tags t).splitRight left, left)

def absorbRight (h : Liballoc) (t : ℕ) : Liballoc :=
  let right := (h.tags t).splitRight
  let h := h.removeTag right
  let h := h.setTag t { h.tags t with
    realSize := wrap32 ((h.tags t).realSize + (h.tags right).realSize)
    splitRight := (h.tags right).splitRight }
  h.setSplitLeft (h.tags right).splitRight t

/-- The pointers that are computed from the lower half of an address. -/
def splitAddress (hhdmOffset t size : ℕ) : ℕ := wrap (wrap32 t + tagSize + size + hhdmOffset)

def pointerOfTag (hhdmOffset t : ℕ) : ℕ := wrap (wrap32 t + hhdmOffset + tagSize)

def tagOfPointer (hhdmOffset ptr : ℕ) : ℕ := sub64 (wrap32 ptr + hhdmOffset) tagSize

def splitTag (hhdmOffset : ℕ) (h : Liballoc) (t : ℕ) : Liballoc × ℕ :=
  let remainder := sub32 (sub32 (h.tags t).realSize tagSize) (h.tags t).size
  let new := splitAddress hhdmOffset t (h.tags t).size
  let right := (h.tags t).splitRight
  let h := h.setTag new { h.tags new with
    magic := liballocMagic
    realSize := remainder
    splitLeft := t
    splitRight := right }
  let h := h.setSplitLeft right new
  let h := h.setTag t { h.tags t with splitRight := new, realSize := sub32 (h.tags t).realSize remainder }
  (h.insertTag new (-1), new)

/-- `liballoc_alloc`: frames, at their place in the direct map. -/
def liballocAlloc (hhdmOffset : ℕ) (h : Liballoc) (pages : ℤ) : Exec (Liballoc × ℕ) := do
  let a ← physicalAllocate h.frames pages
  if a.halted then .error .halt else .ok ({ h with frames := a.bitmap }, wrap (a.phys + hhdmOffset))

/-- `liballoc_free`, which halts on an address without a physical one. -/
def liballocFree (hhdmOffset : ℕ) (h : Liballoc) (t : ℕ) (pages : ℤ) : Exec Liballoc :=
  let phys := sub64 t hhdmOffset
  if phys = 0 then .error .halt
  else do
    let bm ← physicalFree h.frames phys pages
    .ok { h with frames := bm }

/-- The pages that a number of bytes needs, and the smallest number of pages. -/
def neededPages (bytes : ℕ) : ℕ :=
  let pages := if bytes % liballocPageSize ≠ 0 then bytes / liballocPageSize + 1 else bytes / liballocPageSize
  if pages < liballocPageCount then liballocPageCount else pages

def allocateNewTag (hhdmOffset : ℕ) (h : Liballoc) (size : ℕ) : Exec (Liballoc × ℕ) := do
  let pages := neededPages (wrap32 (size + tagSize))
  let (h, t) ← liballocAlloc hhdmOffset h pages
  if t = 0 then .ok (h, 0)
  else
    .ok (h.setTag t
      { magic := liballocMagic
        size := size
        realSize := wrap32 (pages * liballocPageSize)
        index := -1
        splitLeft := 0
        splitRight := 0 }, t)

/-- The first tag of a list that has room for a tag more. -/
def findTag (h : Liballoc) (index : ℤ) (size : ℕ) : Option ℕ :=
  (h.freePages index).find? fun t => sub64 (h.tags t).realSize tagSize ≥ wrap (size + tagSize)

/-- A free tag, taken from its list, or a new one. -/
def takeTag (hhdmOffset : ℕ) (h : Liballoc) (size : ℕ) : Exec (Liballoc × ℕ) :=
  let index := max (getexp (wrap32 size)) minExp
  match h.findTag index size with
  | none => allocateNewTag hhdmOffset h (wrap32 size)
  | some t =>
    let h := h.removeTag t
    .ok (if (h.tags t).splitLeft = 0 ∧ (h.tags t).splitRight = 0 then
        { h with completePages := Function.update h.completePages index (h.completePages index - 1) }
      else h, t)

/-- What is behind the payload becomes a block of its own, if it has room for a tag and more. -/
def splitExcess (hhdmOffset : ℕ) (h : Liballoc) (t size : ℕ) : Liballoc :=
  let remainder := sub32 (h.tags t).realSize (size + tagSize * 2)
  if 0 < remainder ∧ remainder < 2 ^ 31 ∧ 0 ≤ getexp remainder then (splitTag hhdmOffset h t).1 else h

def malloc (hhdmOffset : ℕ) (h : Liballoc) (size : ℕ) : Exec (Liballoc × ℕ) := do
  let (h, t) ← takeTag hhdmOffset h size
  if t = 0 then .ok (h, 0)
  else
    let h := h.setTag t { h.tags t with size := wrap32 size }
    .ok (splitExcess hhdmOffset h t size, pointerOfTag hhdmOffset t)

/-- The loop that melts a tag into the free ones on its left. They lie lower, so the address
bounds the number of turns. -/
def meltLeftAll (h : Liballoc) (t : ℕ) : ℕ → Exec (Liballoc × ℕ)
  | 0 => .error .fault
  | n + 1 =>
    if (h.tags t).splitLeft ≠ 0 ∧ (h.tags (h.tags t).splitLeft).index ≥ 0 then
      let (h, left) := h.meltLeft t
      meltLeftAll (h.removeTag left) left n
    else .ok (h, t)

/-- The loop that absorbs the free tags on the right. Each makes the block larger. -/
def absorbRightAll (h : Liballoc) (t : ℕ) : ℕ → Exec Liballoc
  | 0 => .error .fault
  | n + 1 =>
    if (h.tags t).splitRight ≠ 0 ∧ (h.tags (h.tags t).splitRight).index ≥ 0 then absorbRightAll (h.absorbRight t) t n
    else .ok h

/-- The end of `free`: a whole region may go back to the frames. -/
def giveBack (hhdmOffset : ℕ) (h : Liballoc) (t : ℕ) : Exec Liballoc :=
  let index := max (getexp (sub32 (h.tags t).realSize tagSize)) minExp
  if (h.tags t).splitLeft = 0 ∧ (h.tags t).splitRight = 0 then
    if h.completePages index = maxComplete then liballocFree hhdmOffset h t (neededPages (h.tags t).realSize)
    else
      .ok (insertTag { h with completePages := Function.update h.completePages index (h.completePages index + 1) } t
        index)
  else .ok (h.insertTag t index)

def free (hhdmOffset : ℕ) (h : Liballoc) (ptr : ℕ) : Exec Liballoc :=
  if ptr = 0 then .ok h
  else
    let t := tagOfPointer hhdmOffset ptr
    if (h.tags t).magic ≠ liballocMagic then .ok h
    else do
      let (h, t) ← h.meltLeftAll t (t + 1)
      let h ← h.absorbRightAll t (2 ^ 64)
      h.giveBack hhdmOffset t

/-- `int real_size = nobj * size`, which `malloc` takes as a `size_t`. -/
def callocSize (nobj size : ℕ) : ℕ := intToSize (wrapInt (wrap (nobj * size)))

/-- The bytes that `realloc` copies; a negative `int` is a size beyond every block. -/
def reallocCount (oldSize size : ℕ) : ℕ :=
  let realSize := wrapInt oldSize
  intToSize (if realSize > wrapInt size then wrapInt size else realSize)

end Liballoc

/-! ### The callers -/

/-- A block that was asked for and not yet freed. -/
structure LiveBlock where
  ptr : ℕ
  size : ℕ
  deriving DecidableEq

structure KernelHeap where
  heap : Liballoc
  live : List LiveBlock

inductive HeapCall where
  | malloc (size : ℕ)
  | calloc (nobj size : ℕ)
  | free (ptr : ℕ)
  | realloc (ptr size : ℕ)
  /-- Others allocate and free frames. -/
  | others (frames : Bitmap)

namespace KernelHeap

/-- `malloc` of a size, for a caller who asked for so many bytes. -/
def allocate (hhdmOffset : ℕ) (s : KernelHeap) (size asked : ℕ) : Exec (KernelHeap × ℕ) := do
  let (h, ptr) ← s.heap.malloc hhdmOffset size
  .ok (⟨h, if ptr = 0 then s.live else ⟨ptr, asked⟩ :: s.live⟩, ptr)

def release (hhdmOffset : ℕ) (s : KernelHeap) (ptr : ℕ) : Exec KernelHeap := do
  let h ← s.heap.free hhdmOffset ptr
  .ok ⟨h, s.live.filter fun b => b.ptr ≠ ptr⟩

/-- `liballoc_memcpy` from one block to another. -/
def copyBlock (s : KernelHeap) (dst src count : ℕ) : Exec Unit :=
  match s.live.find? fun b => b.ptr = dst, s.live.find? fun b => b.ptr = src with
  | some new, some old => if count ≤ new.size ∧ count ≤ old.size then .ok () else .error .fault
  | _, _ => .error .fault

def step (hhdmOffset : ℕ) (s : KernelHeap) : HeapCall → Exec KernelHeap
  | .malloc size => do
    let (s, _) ← s.allocate hhdmOffset size size
    .ok s
  | .calloc nobj size => do
    let (s, _) ← s.allocate hhdmOffset (Liballoc.callocSize nobj size) (nobj * size)
    .ok s
  | .free ptr => s.release hhdmOffset ptr
  | .realloc ptr size =>
    if size = 0 then s.release hhdmOffset ptr
    else if ptr = 0 then do
      let (s, _) ← s.allocate hhdmOffset size size
      .ok s
    else do
      let oldSize := (s.heap.tags (Liballoc.tagOfPointer hhdmOffset ptr)).size
      let (s, new) ← s.allocate hhdmOffset size size
      s.copyBlock new ptr (Liballoc.reallocCount oldSize size)
      s.release hhdmOffset ptr
  | .others frames => .ok { s with heap := { s.heap with frames } }

end KernelHeap

end DualFuse.Memory
