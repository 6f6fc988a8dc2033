import DualFuse.Filesystems.Descriptors
import DualFuse.Library.Traced

/-! The bit indices that the descriptor calls pass to the bitmap of a table. The
calls of `Vfs` are written once more in a monad that records each index with the
limit of its table, and erasing the record gives the calls back. `fsIdFind` stays
below the soft limit and a close uses the descriptor that the file carries; only
`dup2` passes an index that came from the user. -/

namespace DualFuse.Filesystems

open Library Utility

/-- An index that is passed to `bitmapGenericGet` or `bitmapGenericSet`, with the limit
of the table that the bitmap belongs to. -/
structure BitAccess where
  rlimitFdsHard : ℕ
  index : ℕ
  deriving DecidableEq, Repr

/-- The bit lies in the `rlimitFdsHard / 8` bytes of the bitmap. -/
def BitAccess.Inside (e : BitAccess) : Prop := e.index < e.rlimitFdsHard ∧ e.index / 8 < e.rlimitFdsHard / 8

instance (e : BitAccess) : Decidable e.Inside := inferInstanceAs (Decidable (_ ∧ _))

abbrev Observed := Traced BitAccess

namespace Observed

def bitmapGenericGet (files : TaskInfoFiles) (index : ℕ) : Observed Bool :=
  Traced.access ⟨files.rlimitFdsHard, index⟩ (files.bitmapGenericGet index)

def bitmapGenericSet (files : TaskInfoFiles) (index : ℕ) (set : Bool) : Observed TaskInfoFiles :=
  Traced.access ⟨files.rlimitFdsHard, index⟩ (files.bitmapGenericSet index set)

def fsIdFindFrom (files : TaskInfoFiles) : (n i : ℕ) → Observed (ℕ × TaskInfoFiles)
  | 0, _ => Traced.quiet (.error .assertion)
  | n + 1, i => do
    let used ← bitmapGenericGet files i
    if used then fsIdFindFrom files n (i + 1)
    else do
      let files ← bitmapGenericSet files i true
      pure (i, files)

def fsIdFind (files : TaskInfoFiles) : Observed (ℕ × TaskInfoFiles) := fsIdFindFrom files files.rlimitFdsSoft 0

def fsIdRemove (files : TaskInfoFiles) (fd : ℕ) : Observed TaskInfoFiles := bitmapGenericSet files fd false

def fsOpenTarget (alloc : Allocator) (flags mode : ℕ) (s : TaskFiles) : Observed (ℕ × TaskFiles) := do
  let (id, infoFiles) ← fsIdFind s.infoFiles
  let (target, s) ← TaskFiles.fsRegisterNode alloc (s.withFiles infoFiles) id
  let s ← s.modify target fun f => { f with mode := mode, flags := flags, pointer := 0, tmp1 := 0 }
  pure (target, s)

def fsOpenAbort (s : TaskFiles) (target : ℕ) : Observed TaskFiles := do
  let (_, s) ← s.fsUnregisterNode target
  let f ← s.read target
  let infoFiles ← fsIdRemove s.infoFiles (intToSize f.id)
  pure ((s.withFiles infoFiles).free target)

def fsOpenGeneric (alloc : Allocator) (flags mode : ℕ) : OpenAnswer → TaskFiles → Observed (ℕ × TaskFiles)
  | .noMountPoint, s => do
    let (target, s) ← fsOpenTarget alloc flags mode s
    let s ← fsOpenAbort s target
    pure (0, s)
  | .opened mountPoint, s => do
    let (target, s) ← fsOpenTarget alloc flags mode s
    let s ← s.fsOpenMount flags target mountPoint
    pure (target, s)
  | .failed mountPoint ret, s => do
    let (target, s) ← fsOpenTarget alloc flags mode s
    let s ← s.fsOpenMount flags target mountPoint
    let s ← fsOpenAbort s target
    pure (errorValue ret, s)
  | .symlink mountPoint resolved, s => do
    let (target, s) ← fsOpenTarget alloc flags mode s
    let s ← s.fsOpenMount flags target mountPoint
    let s ← fsOpenAbort s target
    fsOpenGeneric alloc flags mode resolved s

def fsUserDuplicateNode (alloc : Allocator) (s : TaskFiles) (original suggid : ℕ) (duplicated : Bool) :
    Observed (ℕ × TaskFiles) := do
  let (id, infoFiles) ← if suggid = noId then fsIdFind s.infoFiles else pure (suggid, s.infoFiles)
  Traced.quiet ((s.withFiles infoFiles).fsDuplicateAs alloc original id duplicated)

def fsCloseGeneric (s : TaskFiles) (file : ℕ) (closed : Bool) : Observed (Bool × TaskFiles) := do
  let (_, s) ← s.fsUnregisterNode file
  let f ← s.read file
  let infoFiles ← if f.closeFlags &&& vfsCloseFlagRetainId = 0 then fsIdRemove s.infoFiles (intToSize f.id)
    else pure s.infoFiles
  pure (closed, (s.withFiles infoFiles).free file)

def fsUserClose (s : TaskFiles) (fd : ℤ) (closed : Bool) : Observed (ℕ × TaskFiles) :=
  if s.fsUserGetNode fd = 0 then pure (errBadf, s)
  else do
    let (res, s) ← fsCloseGeneric s (s.fsUserGetNode fd) closed
    pure (if res then 0 else noId, s)

def syscallDup (alloc : Allocator) (s : TaskFiles) (fd : BitVec 32) (duplicated : Bool) : Observed (ℕ × TaskFiles) :=
  if s.fsUserGetNode fd.toInt = 0 then pure (errBadf, s)
  else do
    let (newOpenFile, s) ← fsUserDuplicateNode alloc s (s.fsUserGetNode fd.toInt) noId duplicated
    let s ← s.modify newOpenFile fun f => { f with closeOnExec := false }
    let f ← s.read newOpenFile
    pure (intToSize f.id, s)

def syscallDup2Reserve (s : TaskFiles) (newFd : BitVec 32) (closed : Bool) : Observed TaskFiles :=
  if AvlHeader.avlLookup s.infoFiles.firstFile newFd.toNat = 0 then do
    let infoFiles ← bitmapGenericSet s.infoFiles newFd.toNat true
    pure (s.withFiles infoFiles)
  else do
    let s ← s.modify (AvlHeader.avlLookup s.infoFiles.firstFile newFd.toNat) fun f =>
      { f with closeFlags := f.closeFlags ||| vfsCloseFlagRetainId }
    let (ret, s) ← fsUserClose s newFd.toInt closed
    if ret = 0 then pure s else Traced.quiet (.error .assertion)

def syscallDup2 (alloc : Allocator) (s : TaskFiles) (oldFd newFd : BitVec 32) (closed duplicated : Bool) :
    Observed (ℕ × TaskFiles) :=
  if s.fsUserGetNode oldFd.toInt = 0 then pure (errBadf, s)
  else if oldFd = newFd then pure (newFd.toNat, s)
  else do
    let realFile := s.fsUserGetNode oldFd.toInt
    let s ← syscallDup2Reserve s newFd closed
    let (newOpenFile, s) ← fsUserDuplicateNode alloc s realFile newFd.toNat duplicated
    if newOpenFile = 0 then Traced.quiet (.error .assertion)
    else do
      let s ← s.modify newOpenFile fun f => { f with closeOnExec := false }
      pure (newFd.toNat, s)

def taskFileCopy (alloc : Allocator) (respectCoe : Bool) (duplicated : ℕ → Bool) (file : ℕ) (s : TaskFiles) :
    Observed TaskFiles := do
  let curr ← s.read file
  if !respectCoe || !curr.closeOnExec then do
    let (orphan, s) ← fsUserDuplicateNode alloc s file (intToSize curr.id) (duplicated file)
    if orphan = 0 then Traced.quiet (.error .assertion) else pure s
  else pure s

def taskFilesCopyInorder (alloc : Allocator) (respectCoe : Bool) (duplicated : ℕ → Bool) :
    AvlHeader → TaskFiles → Observed TaskFiles
  | .nil, s => pure s
  | .node _ left right _ value, s => do
    let s ← taskFilesCopyInorder alloc respectCoe duplicated left s
    let s ← taskFileCopy alloc respectCoe duplicated value s
    taskFilesCopyInorder alloc respectCoe duplicated right s

def taskFilesCopyInto (alloc : Allocator) (respectCoe : Bool) (duplicated : ℕ → Bool) (original : TaskInfoFiles)
    (target : TaskFiles) : Observed TaskFiles :=
  taskFilesCopyInorder alloc respectCoe duplicated original.firstFile (target.withFiles
    { target.infoFiles with
      rlimitFdsHard := original.rlimitFdsHard
      rlimitFdsSoft := original.rlimitFdsSoft
      fdBitmap := original.fdBitmap })

def taskFilesCopy (alloc : Allocator) (respectCoe : Bool) (duplicated : ℕ → Bool) (heap : Heap)
    (original : TaskInfoFiles) : Observed TaskFiles :=
  taskFilesCopyInto alloc respectCoe duplicated original ⟨heap, taskInfoFilesAllocate⟩

/-! ### Without the record -/

section Results
variable (alloc : Allocator) (s : TaskFiles)

@[simp] theorem fsIdFindFrom_result (files : TaskInfoFiles) (n i : ℕ) :
    (fsIdFindFrom files n i).result = files.fsIdFindFrom n i := by
  induction n generalizing i with
  | zero => rfl
  | succ n ih =>
    simp only [fsIdFindFrom, TaskInfoFiles.fsIdFindFrom, bitmapGenericGet, bitmapGenericSet, Traced.result_bind,
      Traced.result_access, Traced.result_ite, Traced.result_pure, ih]

@[simp] theorem fsIdFind_result (files : TaskInfoFiles) : (fsIdFind files).result = files.fsIdFind :=
  fsIdFindFrom_result files _ 0

@[simp] theorem fsOpenTarget_result (flags mode : ℕ) :
    (fsOpenTarget alloc flags mode s).result = s.fsOpenTarget alloc flags mode := by
  simp [fsOpenTarget, TaskFiles.fsOpenTarget]

@[simp] theorem fsOpenAbort_result (target : ℕ) : (fsOpenAbort s target).result = s.fsOpenAbort target := by
  simp [fsOpenAbort, TaskFiles.fsOpenAbort, fsIdRemove, TaskInfoFiles.fsIdRemove, bitmapGenericSet]

@[simp] theorem fsOpenGeneric_result (flags mode : ℕ) (answer : OpenAnswer) :
    (fsOpenGeneric alloc flags mode answer s).result = TaskFiles.fsOpenGeneric alloc flags mode answer s := by
  induction answer generalizing s with
  | noMountPoint => simp [fsOpenGeneric, TaskFiles.fsOpenGeneric]
  | opened mountPoint => simp [fsOpenGeneric, TaskFiles.fsOpenGeneric]
  | failed mountPoint ret => simp [fsOpenGeneric, TaskFiles.fsOpenGeneric]
  | symlink mountPoint resolved ih => simp [fsOpenGeneric, TaskFiles.fsOpenGeneric, ih]

@[simp] theorem fsUserDuplicateNode_result (original suggid : ℕ) (duplicated : Bool) :
    (fsUserDuplicateNode alloc s original suggid duplicated).result =
      s.fsUserDuplicateNode alloc original suggid duplicated := by
  simp [fsUserDuplicateNode, TaskFiles.fsUserDuplicateNode]

@[simp] theorem fsCloseGeneric_result (file : ℕ) (closed : Bool) :
    (fsCloseGeneric s file closed).result = s.fsCloseGeneric file closed := by
  simp [fsCloseGeneric, TaskFiles.fsCloseGeneric, fsIdRemove, TaskInfoFiles.fsIdRemove, bitmapGenericSet]

@[simp] theorem fsUserClose_result (fd : ℤ) (closed : Bool) :
    (fsUserClose s fd closed).result = s.fsUserClose fd closed := by
  simp [fsUserClose, TaskFiles.fsUserClose]

@[simp] theorem syscallDup_result (fd : BitVec 32) (duplicated : Bool) :
    (syscallDup alloc s fd duplicated).result = s.syscallDup alloc fd duplicated := by
  simp [syscallDup, TaskFiles.syscallDup]

@[simp] theorem syscallDup2Reserve_result (newFd : BitVec 32) (closed : Bool) :
    (syscallDup2Reserve s newFd closed).result = s.syscallDup2Reserve newFd closed := by
  simp [syscallDup2Reserve, TaskFiles.syscallDup2Reserve, bitmapGenericSet]

@[simp] theorem syscallDup2_result (oldFd newFd : BitVec 32) (closed duplicated : Bool) :
    (syscallDup2 alloc s oldFd newFd closed duplicated).result =
      s.syscallDup2 alloc oldFd newFd closed duplicated := by
  simp [syscallDup2, TaskFiles.syscallDup2]

@[simp] theorem taskFileCopy_result (respectCoe : Bool) (duplicated : ℕ → Bool) (file : ℕ) :
    (taskFileCopy alloc respectCoe duplicated file s).result = s.taskFileCopy alloc respectCoe duplicated file := by
  simp [taskFileCopy, TaskFiles.taskFileCopy]

@[simp] theorem taskFilesCopyInorder_result (respectCoe : Bool) (duplicated : ℕ → Bool) (t : AvlHeader) :
    (taskFilesCopyInorder alloc respectCoe duplicated t s).result =
      TaskFiles.taskFilesCopyInorder alloc respectCoe duplicated t s := by
  induction t generalizing s with
  | nil => rfl
  | node k l r h v ihl ihr => simp [taskFilesCopyInorder, TaskFiles.taskFilesCopyInorder, ihl, ihr]

end Results

/-! ### The accesses of one call -/

section Accesses
variable {s : TaskFiles} (alloc : Allocator)

theorem inside_of_lt {files : TaskInfoFiles} (h : TaskFiles.Limited files) {i : ℕ} (hi : i < fdLimit) :
    BitAccess.Inside ⟨files.rlimitFdsHard, i⟩ := by
  unfold BitAccess.Inside
  rw [h.2]
  unfold fdLimit at *
  dsimp only
  omega

theorem fsIdFindFrom_within {files : TaskInfoFiles} (h : TaskFiles.Limited files) {n i : ℕ} (hi : i + n ≤ fdLimit) :
    (fsIdFindFrom files n i).Within BitAccess.Inside := by
  induction n generalizing i with
  | zero => exact Traced.within_quiet _
  | succ n ih =>
    have hin := inside_of_lt h (show i < fdLimit by omega)
    refine Traced.Within.bind ((Traced.within_access _ _).mpr hin) fun used _ => ?_
    split_ifs
    · exact ih (by omega)
    · exact Traced.Within.bind ((Traced.within_access _ _).mpr hin) fun _ _ => Traced.within_pure _

theorem fsIdFind_within (h : s.Consistent) : (fsIdFind s.infoFiles).Within BitAccess.Inside :=
  fsIdFindFrom_within h.limited (by rw [h.limited.1, zero_add])

theorem fsOpenTarget_within (h : s.Consistent) (flags mode : ℕ) :
    (fsOpenTarget alloc flags mode s).Within BitAccess.Inside := by
  refine (fsIdFind_within h).bind ?_
  rintro ⟨id, files⟩ -
  refine (Traced.within_lift _).bind ?_
  rintro ⟨target, s'⟩ -
  exact (Traced.within_lift _).bind fun _ _ => Traced.within_pure _

/-- The descriptor that leaves is the one the file carries. -/
theorem fsUnregisterNode_within (hl : TaskFiles.Limited s.infoFiles) (ho : s.infoFiles.firstFile.Ordered)
    (hb : AvlHeader.Balanced s.infoFiles.firstFile) {a i : ℕ} {file : OpenFile} (ha : a ≠ 0)
    (hfile : s.heap a = some file) (hid : file.id = i) (hi : i < fdLimit) {β : Type}
    {f : Bool × TaskFiles → OpenFile → Observed β}
    (hf : ∀ r, TaskFiles.Limited r.2.infoFiles → (f r file).Within BitAccess.Inside) :
    (do
      let r ← s.fsUnregisterNode a
      let file ← r.2.read a
      f r file : Observed β).Within BitAccess.Inside := by
  obtain ⟨t, ret, hun, -⟩ := TaskFiles.fsUnregisterNode_eq ho hb ha hfile hid hi
  have hread : (s.withFiles { s.infoFiles with firstFile := t }).read a = .ok file := TaskFiles.read_eq ha hfile
  refine (Traced.within_lift _).bind fun r hr => (Traced.within_lift _).bind fun file' hfile' => ?_
  rw [Traced.result_lift, hun, Except.ok.injEq] at hr
  subst hr
  rw [Traced.result_lift, hread, Except.ok.injEq] at hfile'
  subst hfile'
  exact hf _ hl

theorem fsOpenAbort_within (h : s.Consistent) {i a : ℕ} (ha : s.Has i a) :
    (fsOpenAbort s a).Within BitAccess.Inside := by
  obtain ⟨hne, file, hfile, hid, -⟩ := h.kept.file i a ha
  have hi := h.kept.small i a ha
  refine fsUnregisterNode_within h.limited h.kept.ordered h.kept.balanced hne hfile hid hi fun r hl => ?_
  refine Traced.Within.bind ?_ fun _ _ => Traced.within_pure _
  rw [hid, TaskFiles.intToSize_of_lt hi]
  exact (Traced.within_access _ _).mpr (inside_of_lt hl hi)

theorem fsOpenAbort_within_of_openedAt {s' : TaskFiles} {id target : ℕ} (hp : TaskFiles.OpenedAt s s' id target) :
    (fsOpenAbort s' target).Within BitAccess.Inside :=
  fsOpenAbort_within hp.placed.consistent hp.has

theorem fsOpenGeneric_within (h : s.Consistent) (flags mode : ℕ) (answer : OpenAnswer) :
    (fsOpenGeneric alloc flags mode answer s).Within BitAccess.Inside := by
  have htarget : ∀ {s : TaskFiles}, s.Consistent → Exec.Meets NotHalted
      (fun r => ∃ id, TaskFiles.OpenedAt s r.2 id r.1) (fsOpenTarget alloc flags mode s).result := fun h => by
    rw [fsOpenTarget_result]
    exact h.fsOpenTarget alloc flags mode
  induction answer generalizing s with
  | noMountPoint =>
    refine (fsOpenTarget_within alloc h flags mode).bind_of_meets (htarget h) ?_
    rintro ⟨target, s'⟩ ⟨id, hp⟩
    exact (fsOpenAbort_within_of_openedAt hp).bind fun _ _ => Traced.within_pure _
  | opened mountPoint =>
    refine (fsOpenTarget_within alloc h flags mode).bind_of_meets (htarget h) ?_
    rintro ⟨target, s'⟩ -
    exact (Traced.within_lift _).bind fun _ _ => Traced.within_pure _
  | failed mountPoint ret =>
    refine (fsOpenTarget_within alloc h flags mode).bind_of_meets (htarget h) ?_
    rintro ⟨target, s'⟩ ⟨id, hp⟩
    refine (Traced.within_lift _).bind_of_meets (hp.fsOpenMount flags mountPoint) fun s'' hp' => ?_
    exact (fsOpenAbort_within_of_openedAt hp').bind fun _ _ => Traced.within_pure _
  | symlink mountPoint resolved ih =>
    refine (fsOpenTarget_within alloc h flags mode).bind_of_meets (htarget h) ?_
    rintro ⟨target, s'⟩ ⟨id, hp⟩
    refine (Traced.within_lift _).bind_of_meets (hp.fsOpenMount flags mountPoint) fun s'' hp' => ?_
    have habort : Exec.Meets NotHalted (fun t => TaskFiles.Moved s t ∧ ∀ i, t.Opened i ↔ s.Opened i)
        (fsOpenAbort s'' target).result := by
      rw [fsOpenAbort_result]
      exact hp'.fsOpenAbort
    exact (fsOpenAbort_within_of_openedAt hp').bind_of_meets habort fun t hm => ih hm.1.1

theorem fsCloseGeneric_within (hl : TaskFiles.Limited s.infoFiles) (ho : s.infoFiles.firstFile.Ordered)
    (hb : AvlHeader.Balanced s.infoFiles.firstFile) {a i : ℕ} {file : OpenFile} (ha : a ≠ 0)
    (hfile : s.heap a = some file) (hid : file.id = i) (hi : i < fdLimit) (closed : Bool) :
    (fsCloseGeneric s a closed).Within BitAccess.Inside := by
  refine fsUnregisterNode_within hl ho hb ha hfile hid hi fun r hl => ?_
  dsimp only
  split_ifs
  · refine Traced.Within.bind ?_ fun _ _ => Traced.within_pure _
    rw [hid, TaskFiles.intToSize_of_lt hi]
    exact (Traced.within_access _ _).mpr (inside_of_lt hl hi)
  · exact (Traced.within_pure _).bind fun _ _ => Traced.within_pure _

/-- A file is closed that carries its descriptor, whatever its flags. -/
theorem fsUserClose_within (hl : TaskFiles.Limited s.infoFiles) (ho : s.infoFiles.firstFile.Ordered)
    (hb : AvlHeader.Balanced s.infoFiles.firstFile) {fd : ℤ}
    (hfile : s.fsUserGetNode fd ≠ 0 → ∃ i file, s.heap (s.fsUserGetNode fd) = some file ∧ file.id = (i : ℕ) ∧ i < fdLimit)
    (closed : Bool) : (fsUserClose s fd closed).Within BitAccess.Inside := by
  rw [fsUserClose]
  split_ifs with hnode
  · exact Traced.within_pure _
  · obtain ⟨i, file, hf, hid, hi⟩ := hfile hnode
    exact (fsCloseGeneric_within hl ho hb hnode hf hid hi closed).bind fun _ _ => Traced.within_pure _

/-- The bitmap is searched for the duplicate of `dup` only. -/
theorem fsUserDuplicateNode_within (h : TaskFiles.Limited s.infoFiles) (original suggid : ℕ) (duplicated : Bool) :
    (fsUserDuplicateNode alloc s original suggid duplicated).Within BitAccess.Inside := by
  have hfind : (fsIdFind s.infoFiles).Within BitAccess.Inside := fsIdFindFrom_within h (by rw [h.1, zero_add])
  rw [fsUserDuplicateNode]
  split_ifs
  · exact hfind.bind fun _ _ => Traced.within_quiet _
  · exact (Traced.within_pure _).bind fun _ _ => Traced.within_quiet _

theorem syscallDup_within (h : s.Consistent) (fd : BitVec 32) (duplicated : Bool) :
    (syscallDup alloc s fd duplicated).Within BitAccess.Inside := by
  rw [syscallDup]
  split_ifs
  · exact Traced.within_pure _
  · refine (fsUserDuplicateNode_within alloc h.limited _ _ duplicated).bind fun r _ => ?_
    exact (Traced.within_lift _).bind fun _ _ => (Traced.within_lift _).bind fun _ _ => Traced.within_pure _

/-- A descriptor that no file is open under is passed to the bitmap as it is. -/
theorem syscallDup2Reserve_within_iff (h : s.Consistent) (newFd : BitVec 32) (closed : Bool) :
    (syscallDup2Reserve s newFd closed).Within BitAccess.Inside ↔ newFd.toNat < fdLimit := by
  rw [syscallDup2Reserve]
  split_ifs with hnode
  · rw [Traced.within_bind_iff, bitmapGenericSet, Traced.within_access]
    constructor
    · rintro ⟨⟨hlt, -⟩, -⟩
      rwa [h.limited.2] at hlt
    · exact fun hlt => ⟨inside_of_lt h.limited hlt, fun _ _ => Traced.within_pure _⟩
  · have ha := h.kept.has_avlLookup hnode
    refine ⟨fun _ => h.kept.small _ _ ha, fun hnew => ?_⟩
    generalize AvlHeader.avlLookup s.infoFiles.firstFile newFd.toNat = browse at hnode ha ⊢
    obtain ⟨-, f, hf, hid, -⟩ := h.kept.file _ browse ha
    refine (Traced.within_lift _).bind fun s' hs' => ?_
    rw [Traced.result_lift, TaskFiles.modify, TaskFiles.read_eq hnode hf, Exec.ok_bind, Except.ok.injEq] at hs'
    subst hs'
    have hlookup : s.fsUserGetNode newFd.toInt = browse := by
      rw [TaskFiles.toInt_of_lt hnew, TaskFiles.fsUserGetNode, TaskFiles.intToSize_of_lt hnew]
      exact h.kept.avlLookup ha
    refine Traced.Within.bind ?_ fun r _ => ?_
    · refine fsUserClose_within (s := s.write browse _) h.limited h.kept.ordered h.kept.balanced (fun _ => ?_) closed
      refine ⟨newFd.toNat, { f with closeFlags := f.closeFlags ||| vfsCloseFlagRetainId }, ?_, hid, hnew⟩
      change Function.update s.heap browse _ (s.fsUserGetNode newFd.toInt) = _
      rw [hlookup, Function.update_self]
    · dsimp only
      split_ifs
      · exact Traced.within_pure _
      · exact Traced.within_quiet _

theorem syscallDup2_within_iff (h : s.Consistent) (oldFd newFd : BitVec 32) (closed duplicated : Bool) :
    (syscallDup2 alloc s oldFd newFd closed duplicated).Within BitAccess.Inside ↔
      (s.fsUserGetNode oldFd.toInt ≠ 0 → oldFd ≠ newFd → newFd.toNat < fdLimit) := by
  rw [syscallDup2]
  split_ifs with hnode hsame
  · exact iff_of_true (Traced.within_pure _) fun hne => absurd hnode hne
  · exact iff_of_true (Traced.within_pure _) fun _ hne => absurd hsame hne
  · rw [Traced.within_bind_iff, syscallDup2Reserve_within_iff h]
    constructor
    · exact fun hw _ _ => hw.1
    · refine fun hnew => ⟨hnew hnode hsame, fun s₁ hs₁ => ?_⟩
      rw [syscallDup2Reserve_result] at hs₁
      have hreserved := h.syscallDup2Reserve (hnew hnode hsame) closed
      rw [hs₁] at hreserved
      refine (fsUserDuplicateNode_within alloc hreserved.1.limited _ _ duplicated).bind fun r _ => ?_
      dsimp only
      split_ifs
      · exact Traced.within_quiet _
      · exact (Traced.within_lift _).bind fun _ _ => Traced.within_pure _

/-- The limits of a table do not change with its entries. -/
theorem fsRegisterNode_limited (h : TaskFiles.Limited s.infoFiles) (id : ℕ) :
    Exec.Meets (fun _ => True) (fun r => TaskFiles.Limited r.2.infoFiles) (s.fsRegisterNode alloc id) := by
  rw [TaskFiles.fsRegisterNode]
  cases alloc.place s.heap with
  | none => trivial
  | some file => exact (Exec.meets_true _).bind fun t _ => h

theorem modify_limited (h : TaskFiles.Limited s.infoFiles) (file : ℕ) (g : OpenFile → OpenFile) :
    Exec.Meets (fun _ => True) (fun s' => TaskFiles.Limited s'.infoFiles) (s.modify file g) :=
  (Exec.meets_true _).bind fun _ _ => h

theorem fsDuplicateAs_limited (h : TaskFiles.Limited s.infoFiles) (original id : ℕ) (duplicated : Bool) :
    Exec.Meets (fun _ => True) (fun r => TaskFiles.Limited r.2.infoFiles)
      (s.fsDuplicateAs alloc original id duplicated) := by
  refine (fsRegisterNode_limited alloc h id).bind fun r hr => (Exec.meets_true _).bind fun f _ => ?_
  refine (modify_limited hr _ _).bind fun s' hs' => ?_
  split_ifs
  · exact hs'
  · exact hs'

theorem fsUserDuplicateNode_limited (h : TaskFiles.Limited s.infoFiles) (original suggid : ℕ) (duplicated : Bool) :
    Exec.Meets (fun _ => True) (fun r => TaskFiles.Limited r.2.infoFiles)
      (s.fsUserDuplicateNode alloc original suggid duplicated) := by
  rw [TaskFiles.fsUserDuplicateNode]
  split_ifs
  · have hfind : Exec.Meets (fun _ => True) (fun r => TaskFiles.Limited r.2) s.infoFiles.fsIdFind := by
      refine ((h.fsIdFindFrom (by rw [h.1, zero_add])).weaken fun _ _ => trivial).mono ?_
      rintro ⟨id, files⟩ ⟨-, -, -, hfiles⟩
      exact hfiles ▸ h
    exact hfind.bind fun r hr => fsDuplicateAs_limited alloc (s := s.withFiles r.2) hr _ _ _
  · exact fsDuplicateAs_limited alloc (s := s.withFiles s.infoFiles) h _ _ _

theorem taskFileCopy_limited (h : TaskFiles.Limited s.infoFiles) (respectCoe : Bool) (duplicated : ℕ → Bool) (file : ℕ) :
    Exec.Meets (fun _ => True) (fun s' => TaskFiles.Limited s'.infoFiles)
      (s.taskFileCopy alloc respectCoe duplicated file) := by
  rw [TaskFiles.taskFileCopy]
  cases s.read file with
  | error e => trivial
  | ok curr =>
    rw [Exec.ok_bind]
    split_ifs
    · refine (fsUserDuplicateNode_limited alloc h _ _ _).bind fun r hr => ?_
      dsimp only
      split_ifs
      · trivial
      · exact hr
    · exact h

/-- A copy finds its descriptors in the original. -/
theorem taskFileCopy_within (h : TaskFiles.Limited s.infoFiles) (respectCoe : Bool) (duplicated : ℕ → Bool) (file : ℕ) :
    (taskFileCopy alloc respectCoe duplicated file s).Within BitAccess.Inside := by
  refine (Traced.within_lift _).bind fun curr _ => ?_
  split_ifs
  · refine (fsUserDuplicateNode_within alloc h _ _ _).bind fun r _ => ?_
    dsimp only
    split_ifs
    · exact Traced.within_quiet _
    · exact Traced.within_pure _
  · exact Traced.within_pure _

theorem taskFilesCopyInorder_within (h : TaskFiles.Limited s.infoFiles) (respectCoe : Bool) (duplicated : ℕ → Bool)
    (t : AvlHeader) : (taskFilesCopyInorder alloc respectCoe duplicated t s).Within BitAccess.Inside ∧
      Exec.Meets (fun _ => True) (fun s' => TaskFiles.Limited s'.infoFiles)
        (TaskFiles.taskFilesCopyInorder alloc respectCoe duplicated t s) := by
  induction t generalizing s with
  | nil => exact ⟨Traced.within_pure _, h⟩
  | node k l r height v ihl ihr =>
    constructor
    · refine (ihl h).1.bind_of_meets (by rw [taskFilesCopyInorder_result]; exact (ihl h).2) fun s₁ h₁ => ?_
      refine (taskFileCopy_within alloc h₁ _ _ _).bind_of_meets
        (by rw [taskFileCopy_result]; exact taskFileCopy_limited alloc h₁ _ _ _) fun s₂ h₂ => ?_
      exact (ihr h₂).1
    · refine (ihl h).2.bind fun s₁ h₁ => ?_
      exact (taskFileCopy_limited alloc h₁ _ _ _).bind fun s₂ h₂ => (ihr h₂).2

end Accesses

end Observed

/-! ### Runs -/

/-- The calls of a user with descriptor arguments of 32 bits. -/
inductive DescriptorCall where
  | openGeneric (flags mode : ℕ) (answer : OpenAnswer)
  | close (fd : BitVec 32) (closed : Bool)
  | dup (fd : BitVec 32) (duplicated : Bool)
  | dup2 (oldFd newFd : BitVec 32) (closed duplicated : Bool)
  | fork (duplicated : ℕ → Bool)

namespace DescriptorCall

def toCall : DescriptorCall → Call
  | .openGeneric flags mode answer => .openGeneric flags mode answer
  | .close fd closed => .close fd.toInt closed
  | .dup fd duplicated => .dup fd duplicated
  | .dup2 oldFd newFd closed duplicated => .dup2 oldFd newFd closed duplicated
  | .fork duplicated => .fork duplicated

/-- The call, with the indices it passes to the bitmap. -/
def run (alloc : Allocator) (s : TaskFiles) : DescriptorCall → Observed Outcome
  | .openGeneric flags mode answer => do
    let (_, s) ← Observed.fsOpenGeneric alloc flags mode answer s
    pure (.changed s)
  | .close fd closed => do
    let (_, s) ← Observed.fsUserClose s fd.toInt closed
    pure (.changed s)
  | .dup fd duplicated => do
    let (_, s) ← Observed.syscallDup alloc s fd duplicated
    pure (.changed s)
  | .dup2 oldFd newFd closed duplicated => do
    let (_, s) ← Observed.syscallDup2 alloc s oldFd newFd closed duplicated
    pure (.changed s)
  | .fork duplicated => do
    let s ← Observed.taskFilesCopy alloc false duplicated s.heap s.infoFiles
    pure (.copied s)

theorem run_result (alloc : Allocator) (s : TaskFiles) (c : DescriptorCall) :
    (c.run alloc s).result = c.toCall.run alloc s := by
  cases c with
  | openGeneric flags mode answer => simp [run, toCall, Call.run]
  | close fd closed => simp [run, toCall, Call.run]
  | dup fd duplicated => simp [run, toCall, Call.run]
  | dup2 oldFd newFd closed duplicated => simp [run, toCall, Call.run]
  | fork duplicated =>
    simp [run, toCall, Call.run, Observed.taskFilesCopy, Observed.taskFilesCopyInto, TaskFiles.taskFilesCopy,
      TaskFiles.taskFilesCopyInto]

/-- A call passes indices inside the bitmap exactly when it is sound. -/
theorem run_within_iff (alloc : Allocator) {s : TaskFiles} (h : s.Consistent) (c : DescriptorCall) :
    (c.run alloc s).Within BitAccess.Inside ↔ c.toCall.Sound s := by
  cases c with
  | openGeneric flags mode answer =>
    exact iff_of_true ((Observed.fsOpenGeneric_within alloc h flags mode answer).bind fun _ _ => Traced.within_pure _)
      trivial
  | close fd closed =>
    refine iff_of_true (Traced.Within.bind ?_ fun _ _ => Traced.within_pure _) trivial
    refine Observed.fsUserClose_within h.limited h.kept.ordered h.kept.balanced (fun hnode => ?_) closed
    have ha := h.kept.has_avlLookup hnode
    obtain ⟨-, file, hf, hid, -⟩ := h.kept.file _ _ ha
    exact ⟨_, file, hf, hid, h.kept.small _ _ ha⟩
  | dup fd duplicated =>
    exact iff_of_true ((Observed.syscallDup_within alloc h fd duplicated).bind fun _ _ => Traced.within_pure _) trivial
  | dup2 oldFd newFd closed duplicated =>
    rw [run, Traced.within_bind_iff, Observed.syscallDup2_within_iff alloc h, toCall, Call.Sound, h.limited.2]
    exact and_iff_left fun _ _ => Traced.within_pure _
  | fork duplicated =>
    refine iff_of_true (Traced.Within.bind ?_ fun _ _ => Traced.within_pure _) trivial
    refine (Observed.taskFilesCopyInorder_within alloc ?_ false duplicated _).1
    exact h.limited

/-- A descriptor argument lies outside the limit. -/
def Outside (limit : ℕ) : DescriptorCall → Prop
  | .openGeneric _ _ _ | .fork _ => False
  | .close fd _ | .dup fd _ => limit ≤ fd.toNat
  | .dup2 oldFd newFd _ _ => limit ≤ oldFd.toNat ∨ limit ≤ newFd.toNat

/-- The call returns an error and changes nothing. -/
def Refused (alloc : Allocator) (s : TaskFiles) : DescriptorCall → Prop
  | .openGeneric _ _ _ | .fork _ => False
  | .close fd closed => s.fsUserClose fd.toInt closed = .ok (errBadf, s)
  | .dup fd duplicated => s.syscallDup alloc fd duplicated = .ok (errBadf, s)
  | .dup2 oldFd newFd closed duplicated => s.syscallDup2 alloc oldFd newFd closed duplicated = .ok (errBadf, s)

theorem fsUserGetNode_eq_zero {s : TaskFiles} (h : s.Consistent) {fd : BitVec 32} (hfd : fdLimit ≤ fd.toNat) :
    s.fsUserGetNode fd.toInt = 0 := by
  by_contra hnode
  have hi := h.kept.small _ _ (h.kept.has_avlLookup hnode)
  have hfd' := TaskFiles.intToSize_toInt hi
  omega

/-- A sound call with an argument outside the limit ends at the look-up of its descriptor. -/
theorem refused_of_outside (alloc : Allocator) {s : TaskFiles} (h : s.Consistent) {c : DescriptorCall}
    (hc : c.toCall.Sound s) (hout : c.Outside s.infoFiles.rlimitFdsHard) : c.Refused alloc s := by
  rw [h.limited.2] at hout
  cases c with
  | openGeneric flags mode answer => exact hout.elim
  | fork duplicated => exact hout.elim
  | close fd closed => exact if_pos (fsUserGetNode_eq_zero h hout)
  | dup fd duplicated => exact if_pos (fsUserGetNode_eq_zero h hout)
  | dup2 oldFd newFd closed duplicated =>
    refine if_pos ?_
    rcases hout with hold | hnew
    · exact fsUserGetNode_eq_zero h hold
    · by_contra hnode
      have hold : oldFd.toNat < fdLimit := by
        by_contra hge
        exact hnode (fsUserGetNode_eq_zero h (not_lt.mp hge))
      have hlt := hc hnode fun he => absurd (he ▸ hold) (not_lt.mpr hnew)
      rw [h.limited.2] at hlt
      omega

end DescriptorCall

namespace System

/-- One call of the task that owns table `task`, with the indices it passes. -/
def observedStep (alloc : Allocator) (s : System) (event : ℕ × DescriptorCall) : Observed System :=
  match s.tables[event.1]? with
  | none => pure s
  | some infoFiles => do
    match ← event.2.run alloc ⟨s.heap, infoFiles⟩ with
    | .changed t => pure ⟨t.heap, s.tables.set event.1 t.infoFiles⟩
    | .copied t => pure ⟨t.heap, s.tables ++ [t.infoFiles]⟩

theorem observedStep_result (alloc : Allocator) (s : System) (event : ℕ × DescriptorCall) :
    (s.observedStep alloc event).result = s.step alloc (event.1, event.2.toCall) := by
  rw [observedStep, step]
  cases s.tables[event.1]? with
  | none => rfl
  | some files =>
    dsimp only
    rw [Traced.result_bind, DescriptorCall.run_result]
    congr 1
    funext o
    cases o with
    | changed t => rfl
    | copied t => rfl

/-- The condition: a `dup2` that duplicates names a descriptor below the limit of its table. -/
def CoveredDup2 (s : System) (event : ℕ × DescriptorCall) : Prop := s.Sound (event.1, event.2.toCall)

instance (s : System) (event : ℕ × DescriptorCall) : Decidable (s.CoveredDup2 event) :=
  inferInstanceAs (Decidable (s.Sound _))

theorem observedStep_within_iff (alloc : Allocator) {s : System} (h : s.Consistent) (event : ℕ × DescriptorCall) :
    (s.observedStep alloc event).Within BitAccess.Inside ↔ s.CoveredDup2 event := by
  rw [observedStep, CoveredDup2, Sound]
  cases htask : s.tables[event.1]? with
  | none => exact iff_of_true (Traced.within_pure _) fun files hf => by cases hf
  | some files =>
    dsimp only
    rw [Traced.within_bind_iff, DescriptorCall.run_within_iff alloc (h.table _ files htask)]
    simp only [Option.some.injEq, forall_eq', and_iff_left_iff_imp]
    intro _ o _
    cases o with
    | changed t => exact Traced.within_pure _
    | copied t => exact Traced.within_pure _

/-- Every index that the run passes to a bitmap is inside it, and every call that is
reached with a descriptor outside the limit of its table is refused. -/
def BitmapSafe (alloc : Allocator) (s : System) (events : List (ℕ × DescriptorCall)) : Prop :=
  (Traced.run (observedStep alloc) s events).Within BitAccess.Inside ∧
    ∀ done task c todo, events = done ++ (task, c) :: todo →
      ∀ s', (Traced.run (observedStep alloc) s done).result = .ok s' → ∀ files, s'.tables[task]? = some files →
        c.Outside files.rlimitFdsHard → c.Refused alloc ⟨s'.heap, files⟩

/-- A run stays inside the bitmaps, and refuses what lies outside, exactly when all its
`dup2` calls are covered. -/
theorem bitmapSafe_iff (alloc : Allocator) (n : ℕ) (events : List (ℕ × DescriptorCall)) :
    BitmapSafe alloc (start n) events ↔
      Guarded (fun s event => s.step alloc (event.1, event.2.toCall)) CoveredDup2 (start n) events := by
  have hresult : (fun s event => (observedStep alloc s event).result) =
      fun s event => s.step alloc (event.1, event.2.toCall) := funext₂ (observedStep_result alloc)
  have hstep : ∀ s event, Consistent s → CoveredDup2 s event →
      Exec.Meets NotHalted Consistent (s.step alloc (event.1, event.2.toCall)) := fun s event h hc =>
    h.step alloc _ hc
  have hobserved : ∀ s event, Consistent s → CoveredDup2 s event →
      Exec.Meets NotHalted Consistent (observedStep alloc s event).result := fun s event h hc => by
    rw [observedStep_result]
    exact hstep s event h hc
  have hwithin : (Traced.run (observedStep alloc) (start n) events).Within BitAccess.Inside ↔
      Guarded (fun s event => (observedStep alloc s event).result) CoveredDup2 (start n) events :=
    Traced.within_run_iff_guarded hobserved (fun s event h => observedStep_within_iff alloc h event)
      (start_consistent n) events
  rw [hresult] at hwithin
  refine ⟨fun h => hwithin.mp h.1, fun h => ⟨hwithin.mpr h, ?_⟩⟩
  intro done task c todo hevents s' hrun files htask hout
  rw [Traced.run_result, hresult] at hrun
  subst hevents
  have hconsistent := run_meets_of_guarded hstep (start_consistent n) h.of_append
  rw [hrun] at hconsistent
  exact DescriptorCall.refused_of_outside alloc (hconsistent.table task files htask)
    ((h.rest hrun).1 files htask) hout

/-- `dup2(0, 5000)` sets a bit 625 bytes into a bitmap of 128. -/
theorem dup2_outside_bitmap : ¬BitmapSafe lowAllocator (start 1)
    [(0, .openGeneric 0 0 (.opened 0)), (0, .dup2 0 5000 true true)] := by
  have hout : ¬(Traced.run (observedStep lowAllocator) (start 1)
      [(0, .openGeneric 0 0 (.opened 0)), (0, .dup2 0 5000 true true)]).Within BitAccess.Inside := by decide +kernel
  exact fun h => hout h.1

end System

end DualFuse.Filesystems
