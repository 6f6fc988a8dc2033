import DualFuse.Library.BitArray
import DualFuse.Utility.AvlTree
import DualFuse.Utility.Words

/-! The descriptor tables of the tasks (`filesystems/vfs/vfs_controller.cpp`, `dup`
and `dup2` of `syscalls/linux/syscalls_fs.cpp`, `task_files_copy` of
`multitasking/task.cpp`, the standard files of `utility/elf.cpp`). A table is a bitmap of the descriptors in use and an AVL
tree from descriptors to `OpenFile` objects, which live on the kernel heap. What
the mount table and the handlers of a filesystem answer is an input of the call. -/

namespace DualFuse.Filesystems

open Library Utility

/-- `OpenFile`, as far as the tables use it. -/
structure OpenFile where
  id : ℤ
  flags : ℕ
  mode : ℕ
  closeOnExec : Bool
  pointer : ℕ
  tmp1 : ℕ
  closeFlags : ℕ
  mountPoint : ℕ
  deriving DecidableEq, Repr

/-- What `calloc` returns. -/
def OpenFile.zero : OpenFile := ⟨0, 0, 0, false, 0, 0, 0, 0⟩

/-- The `OpenFile` objects that are allocated, by address. -/
abbrev Heap := ℕ → Option OpenFile

/-- `calloc`: no address, when memory is exhausted, or a new one. -/
structure Allocator where
  place : Heap → Option ℕ
  fresh : ∀ heap a, place heap = some a → a ≠ 0 ∧ heap a = none

structure TaskInfoFiles where
  rlimitFdsSoft : ℕ
  rlimitFdsHard : ℕ
  fdBitmap : ℕ → BitVec 8
  firstFile : AvlHeader

def taskInfoFilesAllocate : TaskInfoFiles where
  rlimitFdsSoft := 1024
  rlimitFdsHard := 1024
  fdBitmap := fun _ => 0
  firstFile := .nil

/-- What the operations of one task work on: the heap and the task's table. -/
structure TaskFiles where
  heap : Heap
  infoFiles : TaskInfoFiles

/-- `(size_t)-1`. -/
def noId : ℕ := 2 ^ 64 - 1

/-- `ERR(EBADF)`. -/
def errBadf : ℕ := 2 ^ 64 - 9

/-- `ERR(ENOSYS)`. -/
def errNosys : ℕ := 2 ^ 64 - 38

def oCloexec : ℕ := 0x80000

def oRdwr : ℕ := 2

def fasync : ℕ := 0x2000

/-- `RET_IS_ERR`: one of the 4095 values from `2 ^ 64 - 4095` on. -/
def retIsErr (ret : ℕ) : Bool := 2 ^ 64 - 4096 < wrap ret

/-- The error values, by number. -/
def errorValue (e : Fin 4095) : ℕ := 2 ^ 64 - 4095 + e

def vfsCloseFlagRetainId : ℕ := 1

namespace TaskInfoFiles

/-- `bitmapGenericGet` on a bitmap of `rlimitFdsHard / 8` bytes. -/
def bitmapGenericGet (files : TaskInfoFiles) (index : ℕ) : Exec Bool :=
  if index / 8 < files.rlimitFdsHard / 8 then .ok (BitArray.get files.fdBitmap index) else .error .fault

def bitmapGenericSet (files : TaskInfoFiles) (index : ℕ) (set : Bool) : Exec TaskInfoFiles :=
  if index / 8 < files.rlimitFdsHard / 8 then
    .ok { files with fdBitmap := BitArray.set files.fdBitmap index set }
  else .error .fault

/-- The loop of `fsIdFind` over `n` descriptors from `i`. -/
def fsIdFindFrom (files : TaskInfoFiles) : (n i : ℕ) → Exec (ℕ × TaskInfoFiles)
  | 0, _ => .error .assertion
  | n + 1, i => do
    let used ← files.bitmapGenericGet i
    if used then fsIdFindFrom files n (i + 1)
    else do
      let files ← files.bitmapGenericSet i true
      .ok (i, files)

def fsIdFind (files : TaskInfoFiles) : Exec (ℕ × TaskInfoFiles) := fsIdFindFrom files files.rlimitFdsSoft 0

def fsIdRemove (files : TaskInfoFiles) (fd : ℕ) : Exec TaskInfoFiles := files.bitmapGenericSet fd false

end TaskInfoFiles

/-- The answers along a chain of symbolic links: no mount point, the open handler's
success or error, or a link that is opened in its place. -/
inductive OpenAnswer where
  | noMountPoint
  | opened (mountPoint : ℕ)
  | failed (mountPoint : ℕ) (ret : Fin 4095)
  | symlink (mountPoint : ℕ) (resolved : OpenAnswer)
  deriving DecidableEq, Repr

namespace TaskFiles

def withFiles (s : TaskFiles) (infoFiles : TaskInfoFiles) : TaskFiles := { s with infoFiles := infoFiles }

/-- The null pointer points to no object. -/
def read (s : TaskFiles) (file : ℕ) : Exec OpenFile :=
  if file = 0 then .error .fault
  else
    match s.heap file with
    | some f => .ok f
    | none => .error .fault

def write (s : TaskFiles) (file : ℕ) (f : OpenFile) : TaskFiles :=
  { s with heap := Function.update s.heap file (some f) }

/-- Assignments to fields of an object. -/
def modify (s : TaskFiles) (file : ℕ) (g : OpenFile → OpenFile) : Exec TaskFiles := do
  let f ← s.read file
  .ok (s.write file (g f))

def free (s : TaskFiles) (file : ℕ) : TaskFiles := { s with heap := Function.update s.heap file none }

theorem read_eq {s : TaskFiles} {file : ℕ} {f : OpenFile} (hne : file ≠ 0) (h : s.heap file = some f) :
    s.read file = .ok f := by
  rw [read, if_neg hne, h]

@[simp] theorem withFiles_heap (s : TaskFiles) (files : TaskInfoFiles) : (s.withFiles files).heap = s.heap := rfl

@[simp] theorem withFiles_infoFiles (s : TaskFiles) (files : TaskInfoFiles) :
    (s.withFiles files).infoFiles = files := rfl

@[simp] theorem write_heap (s : TaskFiles) (file : ℕ) (f : OpenFile) :
    (s.write file f).heap = Function.update s.heap file (some f) := rfl

@[simp] theorem write_infoFiles (s : TaskFiles) (file : ℕ) (f : OpenFile) :
    (s.write file f).infoFiles = s.infoFiles := rfl

@[simp] theorem free_heap (s : TaskFiles) (file : ℕ) : (s.free file).heap = Function.update s.heap file none := rfl

@[simp] theorem free_infoFiles (s : TaskFiles) (file : ℕ) : (s.free file).infoFiles = s.infoFiles := rfl

def fsRegisterNode (alloc : Allocator) (s : TaskFiles) (id : ℕ) : Exec (ℕ × TaskFiles) :=
  match alloc.place s.heap with
  | none => .error .fault
  | some file => do
    let firstFile ← AvlHeader.avlAllocate s.infoFiles.firstFile id file
    .ok (file, (s.write file { OpenFile.zero with id := wrapInt id }).withFiles { s.infoFiles with firstFile })

def fsUnregisterNode (s : TaskFiles) (file : ℕ) : Exec (Bool × TaskFiles) := do
  let f ← s.read file
  let (firstFile, ret) ← AvlHeader.avlUnregister s.infoFiles.firstFile (intToSize f.id)
  .ok (ret, s.withFiles { s.infoFiles with firstFile })

/-- The first part of `fsOpenGeneric`: a descriptor and its object. -/
def fsOpenTarget (alloc : Allocator) (flags mode : ℕ) (s : TaskFiles) : Exec (ℕ × TaskFiles) := do
  let (id, infoFiles) ← s.infoFiles.fsIdFind
  let (target, s) ← fsRegisterNode alloc (s.withFiles infoFiles) id
  let s ← s.modify target fun f => { f with mode := mode, flags := flags, pointer := 0, tmp1 := 0 }
  .ok (target, s)

/-- The mount point and `O_CLOEXEC` of a target. -/
def fsOpenMount (flags target mountPoint : ℕ) (s : TaskFiles) : Exec TaskFiles :=
  s.modify target fun f =>
    { f with mountPoint := mountPoint, closeOnExec := f.closeOnExec || flags &&& oCloexec != 0 }

/-- The error paths of `fsOpenGeneric`. -/
def fsOpenAbort (s : TaskFiles) (target : ℕ) : Exec TaskFiles := do
  let (_, s) ← s.fsUnregisterNode target
  let f ← s.read target
  let infoFiles ← s.infoFiles.fsIdRemove (intToSize f.id)
  .ok ((s.withFiles infoFiles).free target)

/-- The returned pointer, which may be null or an error code. -/
def fsOpenGeneric (alloc : Allocator) (flags mode : ℕ) : OpenAnswer → TaskFiles → Exec (ℕ × TaskFiles)
  | .noMountPoint, s => do
    let (target, s) ← s.fsOpenTarget alloc flags mode
    let s ← s.fsOpenAbort target
    .ok (0, s)
  | .opened mountPoint, s => do
    let (target, s) ← s.fsOpenTarget alloc flags mode
    let s ← s.fsOpenMount flags target mountPoint
    .ok (target, s)
  | .failed mountPoint ret, s => do
    let (target, s) ← s.fsOpenTarget alloc flags mode
    let s ← s.fsOpenMount flags target mountPoint
    let s ← s.fsOpenAbort target
    .ok (errorValue ret, s)
  | .symlink mountPoint resolved, s => do
    let (target, s) ← s.fsOpenTarget alloc flags mode
    let s ← s.fsOpenMount flags target mountPoint
    let s ← s.fsOpenAbort target
    fsOpenGeneric alloc flags mode resolved s

/-- `fsUserDuplicateNode` once the descriptor is known. `duplicated` is the answer of
the handler, true where there is none. A failure frees the object and leaves its
entry. -/
def fsDuplicateAs (alloc : Allocator) (s : TaskFiles) (original id : ℕ) (duplicated : Bool) :
    Exec (ℕ × TaskFiles) := do
  let (orphan, s) ← fsRegisterNode alloc s id
  let f ← s.read original
  let s ← s.modify orphan fun o => { f with id := o.id }
  if duplicated then .ok (orphan, s) else .ok (0, s.free orphan)

def fsUserDuplicateNode (alloc : Allocator) (s : TaskFiles) (original suggid : ℕ) (duplicated : Bool) :
    Exec (ℕ × TaskFiles) := do
  let (id, infoFiles) ← if suggid = noId then s.infoFiles.fsIdFind else .ok (suggid, s.infoFiles)
  (s.withFiles infoFiles).fsDuplicateAs alloc original id duplicated

def fsUserGetNode (s : TaskFiles) (fd : ℤ) : ℕ := AvlHeader.avlLookup s.infoFiles.firstFile (intToSize fd)

/-- A null pointer is no error here, and is read. -/
def fsUserOpen (alloc : Allocator) (flags mode : ℕ) (answer : OpenAnswer) (s : TaskFiles) : Exec (ℕ × TaskFiles) :=
  if flags &&& fasync ≠ 0 then .ok (errNosys, s)
  else do
    let (file, s) ← fsOpenGeneric alloc flags mode answer s
    if retIsErr file then .ok (file, s)
    else do
      let f ← s.read file
      .ok (intToSize f.id, s)

/-- `closed` is the answer of the close handler. -/
def fsCloseGeneric (s : TaskFiles) (file : ℕ) (closed : Bool) : Exec (Bool × TaskFiles) := do
  let (_, s) ← s.fsUnregisterNode file
  let f ← s.read file
  let infoFiles ← if f.closeFlags &&& vfsCloseFlagRetainId = 0 then s.infoFiles.fsIdRemove (intToSize f.id)
    else .ok s.infoFiles
  .ok (closed, (s.withFiles infoFiles).free file)

def fsUserClose (s : TaskFiles) (fd : ℤ) (closed : Bool) : Exec (ℕ × TaskFiles) :=
  if s.fsUserGetNode fd = 0 then .ok (errBadf, s)
  else do
    let (res, s) ← s.fsCloseGeneric (s.fsUserGetNode fd) closed
    .ok (if res then 0 else noId, s)

/-- The new object is written before it is checked. -/
def syscallDup (alloc : Allocator) (s : TaskFiles) (fd : BitVec 32) (duplicated : Bool) : Exec (ℕ × TaskFiles) :=
  if s.fsUserGetNode fd.toInt = 0 then .ok (errBadf, s)
  else do
    let (newOpenFile, s) ← s.fsUserDuplicateNode alloc (s.fsUserGetNode fd.toInt) noId duplicated
    let s ← s.modify newOpenFile fun f => { f with closeOnExec := false }
    let f ← s.read newOpenFile
    .ok (intToSize f.id, s)

/-- The part of `dup2` before the duplication: the new descriptor is reserved, or the
file it names is closed and keeps its bit. -/
def syscallDup2Reserve (s : TaskFiles) (newFd : BitVec 32) (closed : Bool) : Exec TaskFiles :=
  if AvlHeader.avlLookup s.infoFiles.firstFile newFd.toNat = 0 then do
    let infoFiles ← s.infoFiles.bitmapGenericSet newFd.toNat true
    .ok (s.withFiles infoFiles)
  else do
    let s ← s.modify (AvlHeader.avlLookup s.infoFiles.firstFile newFd.toNat) fun f =>
      { f with closeFlags := f.closeFlags ||| vfsCloseFlagRetainId }
    let (ret, s) ← s.fsUserClose newFd.toInt closed
    if ret = 0 then .ok s else .error .assertion

def syscallDup2 (alloc : Allocator) (s : TaskFiles) (oldFd newFd : BitVec 32) (closed duplicated : Bool) :
    Exec (ℕ × TaskFiles) :=
  if s.fsUserGetNode oldFd.toInt = 0 then .ok (errBadf, s)
  else if oldFd = newFd then .ok (newFd.toNat, s)
  else do
    let realFile := s.fsUserGetNode oldFd.toInt
    let s ← s.syscallDup2Reserve newFd closed
    let (newOpenFile, s) ← s.fsUserDuplicateNode alloc realFile newFd.toNat duplicated
    if newOpenFile = 0 then .error .assertion
    else do
      let s ← s.modify newOpenFile fun f => { f with closeOnExec := false }
      .ok (newFd.toNat, s)

/-- One node of `task_files_copy_inorder`. -/
def taskFileCopy (alloc : Allocator) (respectCoe : Bool) (duplicated : ℕ → Bool) (file : ℕ) (s : TaskFiles) :
    Exec TaskFiles := do
  let curr ← s.read file
  if !respectCoe || !curr.closeOnExec then do
    let (orphan, s) ← s.fsUserDuplicateNode alloc file (intToSize curr.id) (duplicated file)
    if orphan = 0 then .error .assertion else .ok s
  else .ok s

/-- The state holds the table of the target, the tree is the one of the original. -/
def taskFilesCopyInorder (alloc : Allocator) (respectCoe : Bool) (duplicated : ℕ → Bool) :
    AvlHeader → TaskFiles → Exec TaskFiles
  | .nil, s => .ok s
  | .node _ left right _ value, s => do
    let s ← taskFilesCopyInorder alloc respectCoe duplicated left s
    let s ← s.taskFileCopy alloc respectCoe duplicated value
    taskFilesCopyInorder alloc respectCoe duplicated right s

/-- The limits and the bitmap of the original replace those of the target, whose tree stays. -/
def taskFilesCopyInto (alloc : Allocator) (respectCoe : Bool) (duplicated : ℕ → Bool) (original : TaskInfoFiles)
    (target : TaskFiles) : Exec TaskFiles :=
  taskFilesCopyInorder alloc respectCoe duplicated original.firstFile (target.withFiles
    { target.infoFiles with
      rlimitFdsHard := original.rlimitFdsHard
      rlimitFdsSoft := original.rlimitFdsSoft
      fdBitmap := original.fdBitmap })

/-- The copy into a table that was just allocated. -/
def taskFilesCopy (alloc : Allocator) (respectCoe : Bool) (duplicated : ℕ → Bool) (heap : Heap)
    (original : TaskInfoFiles) : Exec TaskFiles :=
  taskFilesCopyInto alloc respectCoe duplicated original ⟨heap, taskInfoFilesAllocate⟩

/-- The check of the descriptors that `elfExecute` got, and the numbers it gives them.
Its halt without basic IO is a failed check. -/
def elfExecuteIds (stdin stdout stderr : ℤ) (s : TaskFiles) : Exec TaskFiles :=
  if stdin < 0 ∨ stdout < 0 ∨ stderr < 0 then .error .assertion
  else do
    let fdStdin := s.fsUserGetNode stdin
    let fdStdout := s.fsUserGetNode stdout
    let fdStderr := s.fsUserGetNode stderr
    let s ← s.modify fdStdin fun f => { f with id := 0 }
    let s ← s.modify fdStdout fun f => { f with id := 1 }
    s.modify fdStderr fun f => { f with id := 2 }

/-- The standard files that `elfExecute` opens for the task it sets up. -/
def elfExecuteFiles (alloc : Allocator) (stdin stdout stderr : OpenAnswer) (s : TaskFiles) : Exec TaskFiles := do
  let (stdin, s) ← fsUserOpen alloc oRdwr 0 stdin s
  let (stdout, s) ← fsUserOpen alloc oRdwr 0 stdout s
  let (stderr, s) ← fsUserOpen alloc oRdwr 0 stderr s
  s.elfExecuteIds (wrapInt stdin) (wrapInt stdout) (wrapInt stderr)

/-- The table of the program that `syscallExecve` sets up: the loader's files first, then
the copies of the caller's. -/
def syscallExecveFiles (alloc : Allocator) (stdin stdout stderr : OpenAnswer) (duplicated : ℕ → Bool)
    (s : TaskFiles) : Exec TaskFiles := do
  let target ← elfExecuteFiles alloc stdin stdout stderr ⟨s.heap, taskInfoFilesAllocate⟩
  taskFilesCopyInto alloc true duplicated s.infoFiles target

end TaskFiles

/-! ### The system -/

/-- The tables of all tasks on one heap. -/
structure System where
  heap : Heap
  tables : List TaskInfoFiles

/-- The calls of a task, by the number of its table. Tasks that share a table share
its number; `execve` leaves the old table behind. -/
inductive Call where
  | openGeneric (flags mode : ℕ) (answer : OpenAnswer)
  | close (fd : ℤ) (closed : Bool)
  | dup (fd : BitVec 32) (duplicated : Bool)
  | dup2 (oldFd newFd : BitVec 32) (closed duplicated : Bool)
  | fork (duplicated : ℕ → Bool)
  | execve (stdin stdout stderr : OpenAnswer) (duplicated : ℕ → Bool)

/-- A call on the table of one task. A copy is a new table of the system. -/
inductive Outcome where
  | changed (s : TaskFiles)
  | copied (s : TaskFiles)

def Call.run (alloc : Allocator) (s : TaskFiles) : Call → Exec Outcome
  | .openGeneric flags mode answer => do
    let (_, s) ← TaskFiles.fsOpenGeneric alloc flags mode answer s
    .ok (.changed s)
  | .close fd closed => do
    let (_, s) ← s.fsUserClose fd closed
    .ok (.changed s)
  | .dup fd duplicated => do
    let (_, s) ← s.syscallDup alloc fd duplicated
    .ok (.changed s)
  | .dup2 oldFd newFd closed duplicated => do
    let (_, s) ← s.syscallDup2 alloc oldFd newFd closed duplicated
    .ok (.changed s)
  | .fork duplicated => do
    let s ← TaskFiles.taskFilesCopy alloc false duplicated s.heap s.infoFiles
    .ok (.copied s)
  | .execve stdin stdout stderr duplicated => do
    let s ← s.syscallExecveFiles alloc stdin stdout stderr duplicated
    .ok (.copied s)

namespace System

/-- One call of the task that owns table `task`. -/
def step (alloc : Allocator) (s : System) (event : ℕ × Call) : Exec System :=
  match s.tables[event.1]? with
  | none => .ok s
  | some infoFiles => do
    match ← event.2.run alloc ⟨s.heap, infoFiles⟩ with
    | .changed t => .ok ⟨t.heap, s.tables.set event.1 t.infoFiles⟩
    | .copied t => .ok ⟨t.heap, s.tables ++ [t.infoFiles]⟩

/-- Tasks that were just created. -/
def start (n : ℕ) : System := ⟨fun _ => none, List.replicate n taskInfoFilesAllocate⟩

end System

end DualFuse.Filesystems
