import DualFuse.Library.PagedBytes
import DualFuse.Memory.Mmap
import DualFuse.Multitasking.TaskInfo

/-! The first stack of a program (`stackGenerateUser` of `multitasking/stack.cpp`). The strings go
to the heap of the new task, the words to its stack: the auxiliary vector, the pointers to the
environment and those to the arguments, each list from its end. Memory is that of the new task by
its virtual addresses, with pages in frames of their own. Growing the heap maps nothing, since
`task_adjust_heap` takes every page for mapped. -/

namespace DualFuse.Multitasking

open Library Utility Memory

def userStackPages : ℕ := 0x30
def userStackBottom : ℕ := 0x800000000000

/-- A string without its terminator. -/
abbrev CStr := {s : List (BitVec 8) // 0 ∉ s}

namespace CStr

/-- `strlen(s) + 1`. -/
def size (s : CStr) : ℕ := s.val.length + 1

def terminated (s : CStr) : List (BitVec 8) := s.val ++ [0]

@[simp] theorem length_terminated (s : CStr) : s.terminated.length = s.size := by
  rw [terminated, size, List.length_append, List.length_singleton]

/-- `strlen(s) + 1` in 32 bits. -/
def len (s : CStr) : ℕ := s.size % 2 ^ 32

end CStr

/-- The fields of the executable's header and of its program headers that the stack depends on. -/
structure ElfFields where
  eType : ℕ
  eEntry : ℕ
  ePhoff : ℕ
  ePhentsize : ℕ
  ePhnum : ℕ
  /-- `p_type` and `p_vaddr`. -/
  phdrs : List (ℕ × ℕ)

def ptLoad : ℕ := 1

/-- The lowest address of a loaded segment, where 0 counts as none so far. -/
def lowestThing (elf : ElfFields) : ℕ :=
  elf.phdrs.foldl (fun lowest phdr =>
    if phdr.1 ≠ ptLoad then lowest else if lowest = 0 ∨ lowest > phdr.2 then phdr.2 else lowest) 0

def phdrThing (elf : ElfFields) : ℕ := if elf.eType = 3 then 0 else lowestThing elf

/-- The task whose stack is built, as far as the functions here use it. -/
structure Target where
  memory : PagedBytes
  usermodeRsp : ℕ
  heapStart : ℕ
  heapEnd : ℕ
  killed : Bool

/-- A page with a zeroed frame. -/
def mapPage (m : PagedBytes) (virt : ℕ) : PagedBytes where
  mapped a := (virt ≤ a && a < virt + pageSize) || m.mapped a
  bytes a := if virt ≤ a ∧ a < virt + pageSize then 0 else m.bytes a

def stackGenerateMutual (m : PagedBytes) : PagedBytes :=
  (List.range userStackPages).foldl
    (fun m i => mapPage m (userStackBottom - userStackPages * 0x1000 + i * 0x1000)) m

namespace Target

def taskAdjustHeap (hhdmOffset : ℕ) (t : Target) (newHeapEnd : ℕ) : Target :=
  if newHeapEnd ≤ t.heapStart then { t with killed := true }
  else if pageTop newHeapEnd > pageTop t.heapEnd then
    let memory := (List.range (pageTop newHeapEnd - pageTop t.heapEnd)).foldl (fun m i =>
      let virt := pageTop t.heapEnd * pageSize + i * pageSize
      if virtualToPhysical hhdmOffset (address virt) ≠ 0 then m else mapPage m virt) t.memory
    { t with memory := memory, heapEnd := newHeapEnd }
  else if pageTop newHeapEnd < pageTop t.heapEnd then { t with killed := true }
  else { t with heapEnd := newHeapEnd }

/-- `PUSH_TO_STACK` for each word. -/
def push (t : Target) (ws : List ℕ) : Exec Target := do
  let (memory, rsp) ← t.memory.pushAll t.usermodeRsp ws
  .ok { t with memory := memory, usermodeRsp := rsp }

end Target

/-- `StackStorePtrStyle`; `ellapsed` is an `int`. -/
structure Stored where
  start : ℕ
  ellapsed : ℤ

def stackStorePtrStyle (hhdmOffset : ℕ) (t : Target) (ptrv : List CStr) : Exec (Target × Stored) := do
  let argSpace := (ptrv.map CStr.size).sum % 2 ^ 32
  let argStart := t.heapEnd
  let t := t.taskAdjustHeap hhdmOffset (wrap (t.heapEnd + argSpace))
  let memory ← t.memory.copyAll argStart (ptrv.map fun s => s.terminated.take s.len)
  .ok ({ t with memory := memory }, ⟨argStart, wrapInt (wrap (ptrv.map CStr.len).sum)⟩)

/-- The pointers in the order of the loop, which goes over the strings from the last one. -/
def finalPointers (stored : Stored) : (finalEllapsed : ℕ) → List CStr → List ℕ
  | _, [] => []
  | finalEllapsed, s :: l =>
    let finalEllapsed := wrap (finalEllapsed + s.len)
    wrap (stored.start + intToSize stored.ellapsed + (2 ^ 64 - finalEllapsed)) :: finalPointers stored finalEllapsed l

/-- The words of the auxiliary vector, in the order in which they are pushed. -/
def auxPushes (elf : ElfFields) (randomByteStart atBase executableBase : ℕ) : List ℕ :=
  [0, 0, randomByteStart, 25, 4096, 6, 0, 23, elf.ePhnum, 5, elf.ePhentsize, 4, wrap (executableBase + elf.eEntry), 9,
    atBase, 7, 0, 8, 0, 16, wrap (executableBase + phdrThing elf + elf.ePhoff), 3]

/-- `environment` is zeroed where there are no variables. -/
def storeEnvironment (hhdmOffset : ℕ) (t : Target) (envv : List CStr) : Exec (Target × Stored) :=
  if envv.length > 0 then stackStorePtrStyle hhdmOffset t envv else .ok (t, ⟨0, 0⟩)

def pushEnvironment (t : Target) (environment : Stored) (envv : List CStr) : Exec Target :=
  if environment.ellapsed > 0 then t.push (finalPointers environment 0 envv.reverse) else .ok t

/-- The four numbers of `rand`, four bytes each. -/
def randomBytes (random : Fin 4 → BitVec 32) : List (List (BitVec 8)) :=
  List.ofFn fun i => Bytes.ofNat 4 (random i).toNat

def stackGenerateUser (hhdmOffset : ℕ) (random : Fin 4 → BitVec 32) (elf : ElfFields)
    (atBase executableBase : ℕ) (argv envv : List CStr) (t : Target) : Exec Target := do
  let t := { t with memory := stackGenerateMutual t.memory }
  let randomByteStart := t.heapEnd
  let t := t.taskAdjustHeap hhdmOffset (wrap (t.heapEnd + 4 * 4))
  let memory ← t.memory.copyAll randomByteStart (randomBytes random)
  let t := { t with memory := memory }
  let t ← t.push (auxPushes elf randomByteStart atBase executableBase)
  let (t, arguments) ← stackStorePtrStyle hhdmOffset t argv
  let (t, environment) ← storeEnvironment hhdmOffset t envv
  let t ← t.push [0]
  let t ← pushEnvironment t environment envv
  let t ← t.push [0]
  let t ← t.push (finalPointers arguments 0 argv.reverse)
  t.push [argv.length]

/-! ### What the stack is to be -/

namespace Target

def word (t : Target) (a : ℕ) : ℕ := Bytes.readNat t.memory.bytes a 8

/-- The memory from the stack pointer on reads as these words. -/
def Reads (t : Target) (ws : List ℕ) : Prop :=
  (List.range ws.length).map (fun i => t.word (t.usermodeRsp + 8 * i)) = ws

/-- A copy of a string, in the heap of the task. -/
structure Copied (t : Target) (p : ℕ) (s : CStr) : Prop where
  content : Bytes.read t.memory.bytes p s.size = s.terminated
  heapStart : t.heapStart ≤ p
  heapEnd : p + s.size ≤ t.heapEnd

/-- Pairs of a vector that ends with `AT_NULL`. -/
def auxWords (pairs : List (ℕ × ℕ)) : List ℕ := pairs.flatMap fun p => [p.1, p.2]

/-- The spans of the copies. -/
def spans (pointers : List ℕ) (l : List CStr) : List (ℕ × ℕ) := List.zipWith (fun p s => (p, s.size)) pointers l

def Apart (a b : ℕ × ℕ) : Prop := a.1 + a.2 ≤ b.1 ∨ b.1 + b.2 ≤ a.1

/-- The stack that a program is entered with. -/
structure StackBuilt (t : Target) (argv envv : List CStr) : Prop where
  layout : ∃ argp envp pairs, t.Reads (argv.length :: (argp ++ 0 :: (envp ++ 0 :: (auxWords pairs ++ [0])))) ∧
    (∀ p ∈ pairs, p.1 ≠ 0) ∧ List.Forall₂ t.Copied argp argv ∧ List.Forall₂ t.Copied envp envv ∧
      (spans argp argv ++ spans envp envv).Pairwise Apart
  aligned : t.usermodeRsp % 16 = 0

/-- The task as `elfExecute` has it before its stack is built. -/
def created (memory : PagedBytes) : Target := ⟨memory, userStackBottom, userHeapStart, userHeapStart, false⟩

end Target

end DualFuse.Multitasking
