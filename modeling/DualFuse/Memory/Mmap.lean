import DualFuse.Library.Traced
import DualFuse.Memory.Translation

/-! Growing the heap, `mmap` and `munmap` (`task_adjust_heap` of
`multitasking/task.cpp`, `syscalls/linux/syscalls_mem.cpp`, `ext2Mmap` of
`filesystems/ext2/ext2_controller.c`). All of them reach the page tables through
`virtual_map`, and every address that is given to it is recorded. Whether a page is
mapped already is asked of `virtual_to_physical`, which subtracts the offset of the
direct map and reads no table. -/

namespace DualFuse.Memory

open Library Utility

/-- Where the kernel lies: the direct map of `mmTotal` bytes and the kernel image. -/
structure KernelLayout where
  hhdmOffset : ℕ
  mmTotal : ℕ
  kernelVirtBase : ℕ

/-- `TaskInfoPagedir`, the bounds of the mappings. -/
structure TaskInfoPagedir where
  mmapStart : ℕ
  mmapEnd : ℕ
  deriving DecidableEq

/-- `ERR(EINVAL)`. -/
def errInval : ℕ := 2 ^ 64 - 22

/-- `ERR(EACCES)`. -/
def errAcces : ℕ := 2 ^ 64 - 13

/-- `(size_t)-1`. -/
def minusOne : ℕ := 2 ^ 64 - 1

/-- An address as a machine word. -/
def address (n : ℕ) : Word := BitVec.ofNat 64 n

/-- A result with the addresses whose mapping was created or replaced on the way. -/
abbrev Mapping := Traced Word

def virtualMap (m : PagedMemory) (pagedir : ℕ) (virt phys flags : Word) : Mapping PagedMemory :=
  Traced.access virt (virtualMapL m pagedir virt phys flags)

def virtualToPhysical (hhdmOffset : ℕ) (pointer : Word) : Word := pointer - address hhdmOffset

/-- `physical_allocate`, on memory. -/
def allocatePages (m : PagedMemory) (pages : ℤ) : Exec (ℕ × PagedMemory) := do
  let a ← physicalAllocate m.bitmap pages
  if a.halted then .error .halt else .ok (a.phys, ⟨a.bitmap, m.words⟩)

/-- The frame that a walk ends in; a large page is a run of frames. -/
def walkFrame (entry : Word) (rest : List (Fin 512)) : ℕ := entryFrame entry + rest.foldl (fun n i => n * 512 + i.val) 0

/-- `memset` of one page to zero, through the tables. -/
def clearPage (pagedir : ℕ) (m : PagedMemory) (virt : Word) : Exec PagedMemory :=
  if virt.toNat < 2 ^ 47 ∨ 2 ^ 64 - 2 ^ 47 ≤ virt.toNat then
    match m.translate pagedir virt with
    | some (entry, rest) => .ok ⟨m.bitmap, Function.update m.words (walkFrame entry rest) fun _ => 0⟩
    | none => .error .fault
  else .error .fault

/-- `memset` of whole pages; the bounds of mappings are multiples of the page size. -/
def clearPages (pagedir : ℕ) (m : PagedMemory) (start pages : ℕ) : Exec PagedMemory :=
  run (clearPage pagedir) m ((List.range pages).map fun i => address (start + i * pageSize))

/-- `memset` of frames, through the direct map. -/
def clearFrames (m : PagedMemory) (first : ℕ) (bytes : ℤ) : Exec PagedMemory :=
  if bytes < 0 then .error .fault
  else .ok ⟨m.bitmap, fun f => if first ≤ f ∧ f < first + bytes.toNat / pageSize then fun _ => 0 else m.words f⟩

/-! ### The heap -/

/-- One page of `task_adjust_heap`. -/
def adjustHeapPage (hhdmOffset pagedir : ℕ) (m : PagedMemory) (virt : Word) : Mapping PagedMemory :=
  if virtualToPhysical hhdmOffset virt ≠ 0 then pure m
  else do
    let (phys, m) ← allocatePages m 1
    let m ← virtualMap m pagedir virt (address phys) (pfRw ||| pfUser)
    clearPage pagedir m virt

/-- What `task_adjust_heap` leaves: memory, `*end`, and whether it killed the task. -/
structure HeapResult where
  memory : PagedMemory
  heapEnd : ℕ
  killed : Bool

/-- The page that a bound is rounded up to. -/
def pageTop (bound : ℕ) : ℕ := ceilingDivision bound pageSize

def taskAdjustHeap (hhdmOffset pagedir : ℕ) (m : PagedMemory) (newHeapEnd heapStart heapEnd : ℕ) :
    Mapping HeapResult :=
  if newHeapEnd ≤ heapStart then pure ⟨m, heapEnd, true⟩
  else if pageTop newHeapEnd > pageTop heapEnd then do
    let m ← Traced.run (adjustHeapPage hhdmOffset pagedir) m
      ((List.range (pageTop newHeapEnd - pageTop heapEnd)).map fun i =>
        address (pageTop heapEnd * pageSize + i * pageSize))
    pure ⟨m, newHeapEnd, false⟩
  else if pageTop newHeapEnd < pageTop heapEnd then pure ⟨m, heapEnd, true⟩
  else pure ⟨m, newHeapEnd, false⟩

/-! ### `munmap` -/

/-- One page of `syscallMunmap`: it is mapped to the first frame. -/
def munmapPage (hhdmOffset pagedir : ℕ) (m : PagedMemory) (virt : Word) : Mapping PagedMemory :=
  if virtualToPhysical hhdmOffset virt = 0 then pure m else virtualMap m pagedir virt 0 pfUser

def munmapPages (addr len : ℕ) : List Word :=
  (List.range (ceilingDivision len pageSize)).map fun i => address (addr + i * pageSize)

def syscallMunmap (hhdmOffset pagedir : ℕ) (infoPd : TaskInfoPagedir) (m : PagedMemory) (addr len : ℕ) :
    Mapping (ℕ × PagedMemory) :=
  if addr % pageSize ≠ 0 ∨ len = 0 then pure (errInval, m)
  else if ¬(infoPd.mmapStart ≤ addr ∧ wrap (addr + len) ≤ infoPd.mmapEnd) then pure (errInval, m)
  else do
    let m ← Traced.run (munmapPage hhdmOffset pagedir) m (munmapPages addr len)
    pure (0, m)

/-! ### `mmap` -/

def mapShared : ℕ := 0x01
def mapPrivate : ℕ := 0x02
def mapFixed : ℕ := 0x10
def mapAnonymous : ℕ := 0x20
def protWrite : ℕ := 0x2

/-- `flags & ~mask` of an `int`. -/
def without (flags : BitVec 32) (mask : ℕ) : BitVec 32 := flags &&& ~~~BitVec.ofNat 32 mask

def hasFlag (flags : BitVec 32) (flag : ℕ) : Bool := flags &&& BitVec.ofNat 32 flag != 0

/-- `i * PAGE_SIZE` is a product of `int`s. -/
def pageOffset (i : ℕ) : ℕ := intToSize (wrapInt (i * pageSize))

/-- The pages that a loop with an `int` counter visits from `addr` on. -/
def loopPages (addr iterations : ℕ) : List Word :=
  (List.range iterations).map fun i => address (addr + pageOffset i)

/-- A page of a fixed anonymous mapping. -/
def mapFixedPage (pagedir : ℕ) (m : PagedMemory) (virt : Word) : Mapping PagedMemory := do
  let (phys, m) ← allocatePages m 1
  virtualMap m pagedir virt (address phys) (pfRw ||| pfUser)

/-- A page of a file mapping: the frames follow one another. -/
def mapFilePage (pagedir phys : ℕ) (flags : Word) (m : PagedMemory) (page : ℕ × Word) : Mapping PagedMemory :=
  virtualMap m pagedir page.2 (address (phys + pageOffset page.1)) flags

/-- `ext2Mmap`. The read fills the frames, and is an input. -/
def ext2Mmap (k : KernelLayout) (pagedir : ℕ) (read : PagedMemory → Exec PagedMemory) (infoPd : TaskInfoPagedir)
    (m : PagedMemory) (addr length : ℕ) (prot flags : BitVec 32) : Mapping (ℕ × TaskInfoPagedir × PagedMemory) :=
  let mappingFlags := if hasFlag prot protWrite then pfUser ||| pfRw else pfUser
  let pages := wrapInt (ceilingDivision length pageSize)
  let bytes := wrapInt (pages * pageSize)
  let size := intToSize bytes
  let refused := hasFlag flags mapFixed &&
    (decide (addr > k.hhdmOffset ∧ addr < wrap (k.hhdmOffset + k.mmTotal)) ||
      decide (addr > k.kernelVirtBase ∧ addr < wrap (k.kernelVirtBase + 268435456)))
  if refused then pure (errAcces, infoPd, m)
  else
    let virt := if hasFlag flags mapFixed then addr else infoPd.mmapEnd
    let infoPd := if hasFlag flags mapFixed then infoPd else { infoPd with mmapEnd := wrap (infoPd.mmapEnd + size) }
    let infoPd := if wrap (virt + size) > infoPd.mmapEnd then { infoPd with mmapEnd := wrap (virt + size) } else infoPd
    do
      let (phys, m) ← allocatePages m pages
      let m ← Traced.run (mapFilePage pagedir phys mappingFlags) m
        ((List.range pages.toNat).zip (loopPages virt pages.toNat))
      let m ← clearFrames m (phys / pageSize) bytes
      let m ← read m
      pure (virt, infoPd, m)

/-- What stands behind a descriptor: no file or one without a handler, a file whose handler
maps nothing, or a file of an ext2 filesystem. -/
inductive MmapFile where
  | missing
  | refusing (ret : ℕ)
  | ext2 (read : PagedMemory → Exec PagedMemory)

/-- The loop of a fixed anonymous mapping ends when its `int` counter overflows. -/
def fixedPages (addr length : ℕ) : List Word := loopPages addr (min (ceilingDivision length pageSize) (2 ^ 31))

def mmapFixed (pagedir : ℕ) (infoPd : TaskInfoPagedir) (m : PagedMemory) (addr length : ℕ) :
    Mapping (Option ℕ × TaskInfoPagedir × PagedMemory) := do
  let pages := ceilingDivision length pageSize
  let top := wrap (addr + pages * pageSize)
  let infoPd := if top > infoPd.mmapEnd then { infoPd with mmapEnd := top } else infoPd
  let m ← Traced.run (mapFixedPage pagedir) m (fixedPages addr length)
  let m ← clearPages pagedir m addr pages
  pure (some addr, infoPd, m)

/-- The heap of anonymous mappings grows. A task that is killed on the way does not return. -/
def mmapAnonymous (k : KernelLayout) (pagedir : ℕ) (infoPd : TaskInfoPagedir) (m : PagedMemory) (length : ℕ) :
    Mapping (Option ℕ × TaskInfoPagedir × PagedMemory) := do
  let curr := infoPd.mmapEnd
  let r ← taskAdjustHeap k.hhdmOffset pagedir m (wrap (curr + length)) infoPd.mmapStart curr
  let infoPd := { infoPd with mmapEnd := r.heapEnd }
  if r.killed then pure (none, infoPd, r.memory)
  else do
    let m ← clearPages pagedir r.memory curr (ceilingDivision length pageSize)
    pure (some curr, infoPd, m)

def syscallMmap (k : KernelLayout) (pagedir : ℕ) (file : MmapFile) (infoPd : TaskInfoPagedir) (m : PagedMemory)
    (addr length : ℕ) (prot flags fd : BitVec 32) : Mapping (Option ℕ × TaskInfoPagedir × PagedMemory) :=
  if length = 0 ∨ addr % pageSize ≠ 0 then pure (some errInval, infoPd, m)
  else
    let length := wrap (ceilingDivision length pageSize * pageSize)
    let flags := if addr = 0 then without flags mapFixed else flags
    if hasFlag flags mapFixed && hasFlag flags mapAnonymous then mmapFixed pagedir infoPd m addr length
    else if addr = 0 ∧ fd = -1 ∧ without (without flags mapFixed) mapPrivate = BitVec.ofNat 32 mapAnonymous then
      mmapAnonymous k pagedir infoPd m length
    else if addr = 0 ∧ fd = -1 ∧
        without (without (without flags mapFixed) mapPrivate) mapShared = BitVec.ofNat 32 mapAnonymous ∧
        without (without (without flags mapFixed) mapPrivate) mapAnonymous = BitVec.ofNat 32 mapShared then
      Traced.quiet (.error .halt)
    else if fd ≠ -1 then
      match file with
      | .missing => pure (some minusOne, infoPd, m)
      | .refusing ret => pure (some ret, infoPd, m)
      | .ext2 read => do
        let (ret, infoPd, m) ← ext2Mmap k pagedir read infoPd m addr length prot flags
        pure (some ret, infoPd, m)
    else pure (some minusOne, infoPd, m)

end DualFuse.Memory
