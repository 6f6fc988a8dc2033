import DualFuse.Filesystems.Descriptors

/-! Opens and duplications that fail (`fsOpenGeneric`, `fsKernelOpen`, `fsUserOpen` and
`fsUserDuplicateNode` of `filesystems/vfs/vfs_controller.cpp`, `dup` of
`syscalls/linux/syscalls_fs.cpp`). A failed open gives back its descriptor and its object at
every link of a chain; the null pointer that stands for a missing mount point is an error to
the kernel's own opens only. A failed duplication frees the object and leaves its entry. -/

namespace DualFuse.Filesystems

open Library Utility

/-- The chain of links ends without a file. -/
def OpenAnswer.Fails : OpenAnswer → Prop
  | .noMountPoint => True
  | .opened _ => False
  | .failed _ _ => True
  | .symlink _ resolved => resolved.Fails

/-- The chain of links ends at a mount point. -/
def OpenAnswer.Mounted : OpenAnswer → Prop
  | .noMountPoint => False
  | .opened _ => True
  | .failed _ _ => True
  | .symlink _ resolved => resolved.Mounted

instance OpenAnswer.decidableMounted : (answer : OpenAnswer) → Decidable answer.Mounted
  | .noMountPoint => isFalse id
  | .opened _ => isTrue trivial
  | .failed _ _ => isTrue trivial
  | .symlink _ resolved => decidableMounted resolved

namespace TaskFiles

/-- An error becomes the null pointer. -/
def fsKernelOpen (alloc : Allocator) (flags mode : ℕ) (answer : OpenAnswer) (s : TaskFiles) : Exec (ℕ × TaskFiles) := do
  let (ret, s) ← fsOpenGeneric alloc flags mode answer s
  if retIsErr ret then .ok (0, s) else .ok (ret, s)

/-- The calls whose open or duplication fails. -/
inductive FailingCall where
  | userOpen (flags mode : ℕ) (answer : OpenAnswer) (fails : answer.Fails)
  | kernelOpen (flags mode : ℕ) (answer : OpenAnswer) (fails : answer.Fails)
  | duplicate (original suggid : ℕ)
  | dup (fd : BitVec 32)

namespace FailingCall

def run (alloc : Allocator) (s : TaskFiles) : FailingCall → Exec (ℕ × TaskFiles)
  | .userOpen flags mode answer _ => fsUserOpen alloc flags mode answer s
  | .kernelOpen flags mode answer _ => fsKernelOpen alloc flags mode answer s
  | .duplicate original suggid => s.fsUserDuplicateNode alloc original suggid false
  | .dup fd => s.syscallDup alloc fd false

/-- What the callers of the function test for. -/
def IsError (ret : ℕ) : FailingCall → Prop
  | .userOpen .. => retIsErr ret = true
  | .kernelOpen .. => ret = 0
  | .duplicate .. => ret = 0
  | .dup _ => retIsErr ret = true

end FailingCall

/-- The entries of the tree and the bitmap are the same, and the tree holds allocated objects. -/
structure Unchanged (s s' : TaskFiles) : Prop where
  entries : ∀ i a, s'.Has i a ↔ s.Has i a
  fdBitmap : s'.infoFiles.fdBitmap = s.infoFiles.fdBitmap
  allocated : ∀ i a, s'.Has i a → ∃ f, s'.heap a = some f

/-- The call returns an error and the table is as before. -/
def Atomic (alloc : Allocator) (s : TaskFiles) (c : FailingCall) : Prop :=
  ∃ ret s', c.run alloc s = .ok (ret, s') ∧ c.IsError ret ∧ Unchanged s s'

/-- A descriptor is free, and there is memory for an object. -/
def HasRoom (alloc : Allocator) (s : TaskFiles) : Prop := (∃ i < fdLimit, ¬s.Opened i) ∧ ∃ a, alloc.place s.heap = some a

/-- When a failing call is undone. -/
def Undone (alloc : Allocator) (s : TaskFiles) : FailingCall → Prop
  | .userOpen flags _ answer _ => flags &&& fasync ≠ 0 ∨ s.HasRoom alloc ∧ answer.Mounted
  | .kernelOpen .. => s.HasRoom alloc
  | .duplicate .. => False
  | .dup fd => s.fsUserGetNode fd.toInt = 0

/-! ### One try of an open -/

theorem Limited.fsIdFindFrom_eq {files : TaskInfoFiles} (h : Limited files) {n i : ℕ} (hi : i + n ≤ fdLimit) :
    (∃ r, files.fsIdFindFrom n i = .ok r) ↔ ∃ j, i ≤ j ∧ j < i + n ∧ BitArray.get files.fdBitmap j = false := by
  induction n generalizing i with
  | zero =>
    refine iff_of_false ?_ ?_
    · rintro ⟨r, hr⟩
      cases hr
    · rintro ⟨j, hj, hj', -⟩
      omega
  | succ n ih =>
    rw [TaskInfoFiles.fsIdFindFrom, h.bitmapGenericGet (by omega), Exec.ok_bind]
    cases hbit : BitArray.get files.fdBitmap i with
    | true =>
      rw [if_pos rfl, ih (by omega)]
      constructor
      · rintro ⟨j, hj, hj', hfree⟩
        exact ⟨j, by omega, by omega, hfree⟩
      · rintro ⟨j, hj, hj', hfree⟩
        have hne : i ≠ j := by
          rintro rfl
          rw [hbit] at hfree
          cases hfree
        exact ⟨j, by omega, by omega, hfree⟩
    | false =>
      rw [if_neg Bool.false_ne_true, h.bitmapGenericSet (by omega), Exec.ok_bind]
      exact iff_of_true ⟨_, rfl⟩ ⟨i, le_rfl, by omega, hbit⟩

section Try
variable {s : TaskFiles} {alloc : Allocator}

theorem Consistent.fsIdFind_eq (h : s.Consistent) :
    (∃ r, s.infoFiles.fsIdFind = .ok r) ↔ ∃ i < fdLimit, ¬s.Opened i := by
  have hsoft := h.limited.1
  rw [TaskInfoFiles.fsIdFind, h.limited.fsIdFindFrom_eq (by omega), hsoft]
  refine exists_congr fun i => ⟨?_, ?_⟩
  · rintro ⟨-, hi, hfree⟩
    rw [zero_add] at hi
    refine ⟨hi, fun hopen => ?_⟩
    rw [(h.marks i hi).mpr hopen] at hfree
    cases hfree
  · rintro ⟨hi, hclosed⟩
    refine ⟨Nat.zero_le i, by omega, ?_⟩
    rw [← Bool.not_eq_true, h.marks i hi]
    exact hclosed

/-- The bit of a descriptor is set. -/
def reserve (s : TaskFiles) (id : ℕ) : TaskFiles :=
  s.withFiles { s.infoFiles with fdBitmap := BitArray.set s.infoFiles.fdBitmap id true }

/-- A descriptor is taken and its object stands in the tree. -/
structure Tried (s s' : TaskFiles) (file : ℕ) : Prop where
  added : ∃ id f, id < fdLimit ∧ ¬s.Opened id ∧ BitArray.get s.infoFiles.fdBitmap id = false ∧
    Added (s.reserve id) s' id file f ∧ f.id = id ∧ f.closeFlags = 0

theorem Tried.modify {s' : TaskFiles} {file : ℕ} (h : Tried s s' file) {g : OpenFile → OpenFile}
    (hid : ∀ f, (g f).id = f.id) (hc : ∀ f, (g f).closeFlags = f.closeFlags) :
    ∃ s'', s'.modify file g = .ok s'' ∧ Tried s s'' file := by
  obtain ⟨id, f, hlt, hclosed, hfree, hadded, hfid, hfc⟩ := h.added
  obtain ⟨s'', hmodify, hadded'⟩ := hadded.modify g
  exact ⟨s'', hmodify, id, g f, hlt, hclosed, hfree, hadded', (hid f).trans hfid, (hc f).trans hfc⟩

theorem Kept.fsRegisterNode_ok (hk : s.Kept) {id file : ℕ} (hid : id < fdLimit) (habsent : ¬s.Opened id)
    (hplace : alloc.place s.heap = some file) :
    ∃ s', s.fsRegisterNode alloc id = .ok (file, s') ∧ Added s s' id file { OpenFile.zero with id := id } := by
  obtain ⟨t, ht, -⟩ := AvlHeader.avlAllocateL_spec file hk.ordered hk.balanced fun a ha => habsent ⟨a, ha⟩
  have hmeets := hk.fsRegisterNode alloc hid habsent
  simp only [TaskFiles.fsRegisterNode, hplace, AvlHeader.avlAllocate, ht, Exec.ok_bind] at hmeets ⊢
  exact ⟨_, rfl, hmeets⟩

/-- What the search for a descriptor leaves. -/
theorem Consistent.fsIdFind_reserve (h : s.Consistent) {r : ℕ × TaskInfoFiles} (hfind : s.infoFiles.fsIdFind = .ok r) :
    r.1 < fdLimit ∧ ¬s.Opened r.1 ∧ BitArray.get s.infoFiles.fdBitmap r.1 = false ∧ s.withFiles r.2 = s.reserve r.1 := by
  have hmeets := h.limited.fsIdFindFrom (n := s.infoFiles.rlimitFdsSoft) (i := 0) (by rw [h.limited.1, zero_add])
  rw [← TaskInfoFiles.fsIdFind, hfind] at hmeets
  obtain ⟨hlt, hfree, -, hfiles⟩ := hmeets
  refine ⟨hlt, fun hopen => ?_, hfree, by rw [hfiles]; rfl⟩
  rw [(h.marks r.1 hlt).mpr hopen] at hfree
  cases hfree

theorem Consistent.fsOpenTarget_ok (h : s.Consistent) (hroom : s.HasRoom alloc) (flags mode : ℕ) :
    ∃ file s', s.fsOpenTarget alloc flags mode = .ok (file, s') ∧ Tried s s' file := by
  obtain ⟨⟨id, files⟩, hfind⟩ := h.fsIdFind_eq.mpr hroom.1
  obtain ⟨hlt, hclosed, hfree, hreserve⟩ := h.fsIdFind_reserve hfind
  dsimp only at hlt hclosed hfree hreserve
  obtain ⟨file, hplace⟩ := hroom.2
  have hkept : (s.reserve id).Kept := (h.reserve hlt hclosed).kept
  obtain ⟨s₁, hregister, hadded⟩ := hkept.fsRegisterNode_ok hlt hclosed hplace
  have htried : Tried s s₁ file := ⟨id, _, hlt, hclosed, hfree, hadded, rfl, rfl⟩
  obtain ⟨s₂, hmodify, htried'⟩ := htried.modify (g := fun f =>
    { f with mode := mode, flags := flags, pointer := 0, tmp1 := 0 }) (fun _ => rfl) fun _ => rfl
  refine ⟨file, s₂, ?_, htried'⟩
  rw [TaskFiles.fsOpenTarget, hfind, Exec.ok_bind]
  dsimp only
  rw [hreserve, hregister, Exec.ok_bind]
  dsimp only
  rw [hmodify, Exec.ok_bind]

/-- Without a free descriptor or memory an open stops. -/
theorem Consistent.hasRoom_of_fsOpenTarget (h : s.Consistent) {flags mode : ℕ} {r : ℕ × TaskFiles}
    (hr : s.fsOpenTarget alloc flags mode = .ok r) : s.HasRoom alloc := by
  rw [TaskFiles.fsOpenTarget, Exec.bind_ok_iff] at hr
  obtain ⟨r₁, hfind, hr⟩ := hr
  rw [Exec.bind_ok_iff] at hr
  obtain ⟨r₂, hregister, -⟩ := hr
  refine ⟨h.fsIdFind_eq.mp ⟨r₁, hfind⟩, ?_⟩
  unfold TaskFiles.fsRegisterNode at hregister
  cases hplace : alloc.place (s.withFiles r₁.2).heap with
  | none =>
    rw [hplace] at hregister
    cases hregister
  | some file => exact ⟨file, hplace⟩

/-- The heap, the bitmap and the entries are the same; the tree may have been rotated. -/
structure Restored (s s' : TaskFiles) : Prop where
  heap : s'.heap = s.heap
  fdBitmap : s'.infoFiles.fdBitmap = s.infoFiles.fdBitmap
  entries : ∀ i a, s'.Has i a ↔ s.Has i a
  consistent : s'.Consistent

theorem Restored.unchanged {s' : TaskFiles} (h : Restored s s') : Unchanged s s' := by
  refine ⟨h.entries, h.fdBitmap, fun i a ha => ?_⟩
  obtain ⟨-, f, hf, -⟩ := h.consistent.kept.file i a ha
  exact ⟨f, hf⟩

theorem Restored.trans {s' s'' : TaskFiles} (h : Restored s s') (h' : Restored s' s'') : Restored s s'' :=
  ⟨h'.heap.trans h.heap, h'.fdBitmap.trans h.fdBitmap, fun i a => (h'.entries i a).trans (h.entries i a), h'.consistent⟩

theorem Restored.hasRoom {s' : TaskFiles} (h : Restored s s') (hroom : s.HasRoom alloc) : s'.HasRoom alloc := by
  obtain ⟨⟨i, hi, hclosed⟩, hplace⟩ := hroom
  refine ⟨⟨i, hi, fun ⟨a, ha⟩ => hclosed ⟨a, (h.entries i a).mp ha⟩⟩, ?_⟩
  rwa [h.heap]

/-- The descriptor, the object and the entry of a try are given back. -/
theorem Tried.fsOpenAbort_ok {s' : TaskFiles} {file : ℕ} (hs : s.Consistent) (h : Tried s s' file) :
    ∃ s'', s'.fsOpenAbort file = .ok s'' ∧ Restored s s'' := by
  obtain ⟨id, f, hlt, hclosed, hfree, hadded, hfid, hfc⟩ := h.added
  have hreserved : (s.reserve id).Reserved id := hs.reserve hlt hclosed
  have hplaced : Placed (s.reserve id) s' file := ⟨_, id, f, hreserved, Frame.refl _, hadded, hfid, hfc⟩
  have hcon := hplaced.consistent
  have hhas : s'.Has id file := (hadded.has_iff id file).mpr (.inl ⟨rfl, rfl⟩)
  have hf : s'.heap file = some f := by rw [hadded.heap, Function.update_self]
  obtain ⟨t, ret, hun, ht⟩ := fsUnregisterNode_eq hcon.kept.ordered hcon.kept.balanced hadded.nonzero hf hfid hlt
  have hlimited : Limited { s'.infoFiles with firstFile := t } := hcon.limited
  have hread : (s'.withFiles { s'.infoFiles with firstFile := t }).read file = .ok f := read_eq hadded.nonzero hf
  simp only [TaskFiles.fsOpenAbort, hun, Exec.ok_bind, hread, hfid, intToSize_of_lt hlt, withFiles_infoFiles,
    TaskInfoFiles.fsIdRemove, hlimited.bitmapGenericSet hlt]
  have hbits : s'.infoFiles.fdBitmap = BitArray.set s.infoFiles.fdBitmap id true := by
    obtain ⟨u, hu, -⟩ := hadded.files
    rw [hu]
    rfl
  refine ⟨_, rfl, ?_, ?_, fun i a => ?_, (hcon.release hhas ht).1.1⟩
  · change Function.update s'.heap file none = s.heap
    rw [hadded.heap, Function.update_idem]
    exact Function.update_eq_self_iff.mpr hadded.fresh.symm
  · change BitArray.set s'.infoFiles.fdBitmap id false = s.infoFiles.fdBitmap
    rw [hbits, BitArray.set_set_of_get hfree]
  · refine (ht.has i a).trans ?_
    rw [← TaskFiles.Has, hadded.has_iff]
    constructor
    · rintro ⟨⟨hid, -⟩ | hold, hne⟩
      · exact absurd hid hne
      · exact hold
    · exact fun hold => ⟨.inr hold, fun hid => hclosed ⟨a, hid ▸ hold⟩⟩

/-- A try at a mount point that is given up. -/
theorem Consistent.mounted_try (h : s.Consistent) (hroom : s.HasRoom alloc) (flags mode mountPoint : ℕ) :
    ∃ file s₁ s₂ s₃, s.fsOpenTarget alloc flags mode = .ok (file, s₁) ∧
      s₁.fsOpenMount flags file mountPoint = .ok s₂ ∧ s₂.fsOpenAbort file = .ok s₃ ∧ Restored s s₃ := by
  obtain ⟨file, s₁, htarget, htried⟩ := h.fsOpenTarget_ok hroom flags mode
  obtain ⟨s₂, hmount, htried'⟩ := htried.modify (g := fun f =>
    { f with mountPoint := mountPoint, closeOnExec := f.closeOnExec || flags &&& oCloexec != 0 })
    (fun _ => rfl) fun _ => rfl
  obtain ⟨s₃, habort, hrestored⟩ := htried'.fsOpenAbort_ok h
  exact ⟨file, s₁, s₂, s₃, htarget, hmount, habort, hrestored⟩

end Try

/-! ### Chains of links -/

/-- What `fsOpenGeneric` returns when the chain fails. -/
def failure : OpenAnswer → ℕ
  | .noMountPoint => 0
  | .opened _ => 0
  | .failed _ ret => errorValue ret
  | .symlink _ resolved => failure resolved

section Chains
variable {s : TaskFiles} {alloc : Allocator} {answer : OpenAnswer}

theorem retIsErr_failure (h : answer.Fails) : retIsErr (failure answer) = true ↔ answer.Mounted := by
  induction answer with
  | noMountPoint => exact iff_of_false (by decide) id
  | opened mountPoint => exact h.elim
  | failed mountPoint ret => exact iff_of_true (retIsErr_errorValue ret) trivial
  | symlink mountPoint resolved ih => exact ih h

theorem failure_eq_zero (h : answer.Fails) (hnot : ¬answer.Mounted) : failure answer = 0 := by
  induction answer with
  | noMountPoint => rfl
  | opened mountPoint => exact h.elim
  | failed mountPoint ret => exact absurd trivial hnot
  | symlink mountPoint resolved ih => exact ih h hnot

/-- A chain that fails leaves nothing behind, however long it is. -/
theorem Consistent.fsOpenGeneric_fails (h : s.Consistent) (hroom : s.HasRoom alloc) (hfails : answer.Fails)
    (flags mode : ℕ) :
    ∃ s', TaskFiles.fsOpenGeneric alloc flags mode answer s = .ok (failure answer, s') ∧ Restored s s' := by
  induction answer generalizing s with
  | opened mountPoint => exact hfails.elim
  | noMountPoint =>
    obtain ⟨file, s₁, htarget, htried⟩ := h.fsOpenTarget_ok hroom flags mode
    obtain ⟨s₂, habort, hrestored⟩ := htried.fsOpenAbort_ok h
    refine ⟨s₂, ?_, hrestored⟩
    simp only [TaskFiles.fsOpenGeneric, htarget, Exec.ok_bind, habort, failure]
  | failed mountPoint ret =>
    obtain ⟨file, s₁, s₂, s₃, htarget, hmount, habort, hrestored⟩ := h.mounted_try hroom flags mode mountPoint
    refine ⟨s₃, ?_, hrestored⟩
    simp only [TaskFiles.fsOpenGeneric, htarget, Exec.ok_bind, hmount, habort, failure]
  | symlink mountPoint resolved ih =>
    obtain ⟨file, s₁, s₂, s₃, htarget, hmount, habort, hrestored⟩ := h.mounted_try hroom flags mode mountPoint
    obtain ⟨s', hopen, hrestored'⟩ := ih hrestored.consistent (hrestored.hasRoom hroom) hfails
    refine ⟨s', ?_, hrestored.trans hrestored'⟩
    simp only [TaskFiles.fsOpenGeneric, htarget, Exec.ok_bind, hmount, habort, hopen, failure]

/-- Every open takes a descriptor and an object first. -/
theorem Consistent.hasRoom_of_fsOpenGeneric (h : s.Consistent) {flags mode : ℕ} {r : ℕ × TaskFiles}
    (hr : TaskFiles.fsOpenGeneric alloc flags mode answer s = .ok r) : s.HasRoom alloc := by
  cases answer with
  | noMountPoint =>
    obtain ⟨a, ha, -⟩ := Exec.bind_ok_iff.mp hr
    exact h.hasRoom_of_fsOpenTarget ha
  | opened mountPoint =>
    obtain ⟨a, ha, -⟩ := Exec.bind_ok_iff.mp hr
    exact h.hasRoom_of_fsOpenTarget ha
  | failed mountPoint ret =>
    obtain ⟨a, ha, -⟩ := Exec.bind_ok_iff.mp hr
    exact h.hasRoom_of_fsOpenTarget ha
  | symlink mountPoint resolved =>
    obtain ⟨a, ha, -⟩ := Exec.bind_ok_iff.mp hr
    exact h.hasRoom_of_fsOpenTarget ha

end Chains

/-! ### Duplications -/

section Duplications
variable {s : TaskFiles} {alloc : Allocator}

/-- A failed duplication leaves the entry of the object it frees. -/
theorem dangling_of_fsDuplicateAs (ho : s.infoFiles.firstFile.Ordered) (hb : AvlHeader.Balanced s.infoFiles.firstFile)
    {original id : ℕ} {r : ℕ × TaskFiles} (hr : s.fsDuplicateAs alloc original id false = .ok r) :
    r.1 = 0 ∧ ∃ a, r.2.Has id a ∧ r.2.heap a = none := by
  rw [fsDuplicateAs, Exec.bind_ok_iff] at hr
  obtain ⟨⟨orphan, s₁⟩, hregister, hr⟩ := hr
  rw [Exec.bind_ok_iff] at hr
  obtain ⟨f, -, hr⟩ := hr
  rw [Exec.bind_ok_iff] at hr
  obtain ⟨s₂, hmodify, hr⟩ := hr
  cases hr
  have hfiles : s₂.infoFiles = s₁.infoFiles := by
    obtain ⟨o, -, hwrite⟩ := Exec.bind_ok_iff.mp hmodify
    cases hwrite
    rfl
  have hhas : s₁.Has id orphan := by
    unfold fsRegisterNode at hregister
    cases hplace : alloc.place s.heap with
    | none =>
      rw [hplace] at hregister
      cases hregister
    | some file =>
      rw [hplace] at hregister
      obtain ⟨t, ht, heq⟩ := Exec.bind_ok_iff.mp hregister
      cases heq
      by_cases habsent : ∃ v, s.infoFiles.firstFile.Has id v
      · obtain ⟨v, hv⟩ := habsent
        rw [AvlHeader.avlAllocate, AvlHeader.avlAllocateL_present _ ho hv] at ht
        cases ht
      · obtain ⟨t', ht', hspec⟩ := AvlHeader.avlAllocateL_spec orphan ho hb (not_exists.mp habsent)
        cases ht.symm.trans ht'
        exact (hspec.has id orphan).mpr (.inl ⟨rfl, rfl⟩)
  refine ⟨rfl, orphan, ?_, Function.update_self ..⟩
  rw [TaskFiles.Has, free_infoFiles, hfiles]
  exact hhas

/-- Whichever descriptor is asked for, a failed duplication is not undone. -/
theorem Consistent.not_unchanged_of_duplicate (h : s.Consistent) {original suggid : ℕ} {r : ℕ × TaskFiles}
    (hr : s.fsUserDuplicateNode alloc original suggid false = .ok r) : r.1 = 0 ∧ ¬Unchanged s r.2 := by
  have hdup : ∃ s₁ : TaskFiles, s₁.infoFiles.firstFile = s.infoFiles.firstFile ∧
      ∃ id, s₁.fsDuplicateAs alloc original id false = .ok r := by
    unfold fsUserDuplicateNode at hr
    by_cases hsugg : suggid = noId
    · rw [if_pos hsugg] at hr
      obtain ⟨⟨id, files⟩, hfind, hr⟩ := Exec.bind_ok_iff.mp hr
      have hreserve : s.withFiles files = s.reserve id := (h.fsIdFind_reserve hfind).2.2.2
      refine ⟨s.withFiles files, ?_, id, hr⟩
      rw [hreserve]
      rfl
    · rw [if_neg hsugg] at hr
      exact ⟨s.withFiles s.infoFiles, rfl, suggid, hr⟩
  obtain ⟨s₁, htree, id, hr⟩ := hdup
  obtain ⟨hzero, a, ha, hnone⟩ := dangling_of_fsDuplicateAs (htree ▸ h.kept.ordered) (htree ▸ h.kept.balanced) hr
  refine ⟨hzero, fun hsame => ?_⟩
  obtain ⟨f, hf⟩ := hsame.allocated id a ha
  rw [hnone] at hf
  cases hf

end Duplications

section Calls
variable {s : TaskFiles} {alloc : Allocator} {flags mode : ℕ} {answer : OpenAnswer}

theorem Consistent.unchanged (h : s.Consistent) : Unchanged s s := by
  refine ⟨fun _ _ => Iff.rfl, rfl, fun i a ha => ?_⟩
  obtain ⟨-, f, hf, -⟩ := h.kept.file i a ha
  exact ⟨f, hf⟩

theorem Consistent.atomic_userOpen_iff (h : s.Consistent) (fails : answer.Fails) :
    Atomic alloc s (.userOpen flags mode answer fails) ↔ flags &&& fasync ≠ 0 ∨ s.HasRoom alloc ∧ answer.Mounted := by
  unfold Atomic FailingCall.run FailingCall.IsError
  dsimp only
  unfold TaskFiles.fsUserOpen
  by_cases hasync : flags &&& fasync ≠ 0
  · rw [if_pos hasync]
    exact iff_of_true ⟨errNosys, s, rfl, by decide, h.unchanged⟩ (.inl hasync)
  · rw [if_neg hasync, or_iff_right hasync]
    constructor
    · rintro ⟨ret, s', hrun, herror, hsame⟩
      obtain ⟨r, hopen, hrest⟩ := Exec.bind_ok_iff.mp hrun
      have hroom := h.hasRoom_of_fsOpenGeneric hopen
      obtain ⟨s₁, hfails, -⟩ := h.fsOpenGeneric_fails hroom fails flags mode
      cases hopen.symm.trans hfails
      refine ⟨hroom, ?_⟩
      by_contra hnot
      -- the null pointer is taken for a file and read
      rw [failure_eq_zero fails hnot] at hrest
      cases hrest
    · rintro ⟨hroom, hmounted⟩
      obtain ⟨s₁, hfails, hrestored⟩ := h.fsOpenGeneric_fails hroom fails flags mode
      have herror := (retIsErr_failure fails).mpr hmounted
      refine ⟨failure answer, s₁, ?_, herror, hrestored.unchanged⟩
      rw [hfails, Exec.ok_bind]
      exact if_pos herror

theorem Consistent.atomic_kernelOpen_iff (h : s.Consistent) (fails : answer.Fails) :
    Atomic alloc s (.kernelOpen flags mode answer fails) ↔ s.HasRoom alloc := by
  unfold Atomic FailingCall.run FailingCall.IsError
  dsimp only
  unfold fsKernelOpen
  constructor
  · rintro ⟨ret, s', hrun, -⟩
    obtain ⟨r, hopen, -⟩ := Exec.bind_ok_iff.mp hrun
    exact h.hasRoom_of_fsOpenGeneric hopen
  · intro hroom
    obtain ⟨s₁, hfails, hrestored⟩ := h.fsOpenGeneric_fails hroom fails flags mode
    refine ⟨0, s₁, ?_, rfl, hrestored.unchanged⟩
    rw [hfails, Exec.ok_bind]
    by_cases hmounted : answer.Mounted
    · exact if_pos ((retIsErr_failure fails).mpr hmounted)
    · rw [failure_eq_zero fails hmounted]
      rfl

theorem Consistent.atomic_dup_iff (h : s.Consistent) (fd : BitVec 32) :
    Atomic alloc s (.dup fd) ↔ s.fsUserGetNode fd.toInt = 0 := by
  unfold Atomic FailingCall.run FailingCall.IsError
  dsimp only
  unfold TaskFiles.syscallDup
  by_cases hnode : s.fsUserGetNode fd.toInt = 0
  · rw [if_pos hnode]
    exact iff_of_true ⟨errBadf, s, rfl, by decide, h.unchanged⟩ hnode
  · rw [if_neg hnode]
    refine iff_of_false ?_ hnode
    rintro ⟨ret, s', hrun, -⟩
    obtain ⟨⟨orphan, s₁⟩, hdup, hrest⟩ := Exec.bind_ok_iff.mp hrun
    obtain rfl : orphan = 0 := (h.not_unchanged_of_duplicate hdup).1
    cases hrest

end Calls

/-- A failing call returns an error and leaves the table as it was exactly when an open has
room for its try and, where a user asked for it, ends at a mount point. A duplication never
does. -/
theorem atomic_iff_undone (alloc : Allocator) (s : TaskFiles) (h : s.Consistent) (c : FailingCall) :
    Atomic alloc s c ↔ Undone alloc s c := by
  cases c with
  | userOpen flags mode answer fails => exact h.atomic_userOpen_iff fails
  | kernelOpen flags mode answer fails => exact h.atomic_kernelOpen_iff fails
  | dup fd => exact h.atomic_dup_iff fd
  | duplicate original suggid =>
    refine iff_of_false ?_ id
    rintro ⟨ret, s', hrun, -, hsame⟩
    exact (h.not_unchanged_of_duplicate hrun).2 hsame

/-- A link to a file that the filesystem does not open, in an empty table. -/
theorem atomic_sample : Atomic System.lowAllocator ⟨fun _ => none, taskInfoFilesAllocate⟩
    (.userOpen oRdwr 0 (.symlink 1 (.failed 2 7)) trivial) := by
  refine (atomic_iff_undone _ _ (consistent_allocated _).1 _).mpr (.inr ⟨⟨⟨0, by decide, ?_⟩, 1, rfl⟩, trivial⟩)
  rintro ⟨a, ha⟩
  exact ha

/-- Without a mount point the open of a user faults, and a failed `dup` of an open file does. -/
theorem failures_not_atomic :
    ¬Atomic System.lowAllocator ⟨fun _ => none, taskInfoFilesAllocate⟩ (.userOpen oRdwr 0 .noMountPoint trivial) ∧
      ∃ file s, TaskFiles.fsOpenGeneric System.lowAllocator oRdwr 0 (.opened 1) ⟨fun _ => none, taskInfoFilesAllocate⟩ =
        .ok (file, s) ∧ ¬Atomic System.lowAllocator s (.dup 0) := by
  refine ⟨?_, _, _, rfl, ?_⟩
  · rintro ⟨ret, s', hrun, -⟩
    cases hrun
  · rintro ⟨ret, s', hrun, -⟩
    cases hrun

end TaskFiles

end DualFuse.Filesystems
