import DualFuse.Filesystems.Descriptors

/-! The descriptors that a program inherits through `execve`
(`syscalls/linux/syscalls_proc.c`). The loader opens `/dev/stdin`, `/dev/stdout` and
`/dev/stderr` in the table of the new task before the caller's files are copied into
it. Its three descriptors are either in the way of the caller's, and the insertion of
a second key halts, or they are descriptors that the caller did not pass on. -/

namespace DualFuse.Filesystems

open Library Utility

namespace TaskFiles

/-- The new table holds the caller's descriptors without close-on-exec and no others, and
its bitmap marks these. -/
def Inherited (s : TaskFiles) (m : Exec TaskFiles) : Prop :=
  ∃ s', m = .ok s' ∧ (∀ i, s'.Opened i ↔ Copied true s.heap s.infoFiles.firstFile i) ∧
    ∀ i, s'.infoFiles.bitmapGenericGet i = .ok true ↔ Copied true s.heap s.infoFiles.firstFile i

/-- Where the table of a new program is complete, the loader's descriptors and those of
the caller that were copied are disjoint, and it holds both. -/
theorem Kept.syscallExecveFiles_ok {s : TaskFiles} (h : s.Kept) {alloc : Allocator} {stdin stdout stderr : OpenAnswer}
    {duplicated : ℕ → Bool} {s' : TaskFiles}
    (hs' : s.syscallExecveFiles alloc stdin stdout stderr duplicated = .ok s') :
    (∀ i, Copied true s.heap s.infoFiles.firstFile i → ¬i < 3) ∧
      (∀ i, s'.Opened i ↔ i < 3 ∨ Copied true s.heap s.infoFiles.firstFile i) ∧
      s'.infoFiles.fdBitmap = s.infoFiles.fdBitmap := by
  rw [syscallExecveFiles, Exec.bind_ok_iff] at hs'
  obtain ⟨t, ht, hcopy⟩ := hs'
  have hloader := elfExecuteFiles_meets alloc s.heap stdin stdout stderr
  rw [ht] at hloader
  obtain ⟨hm, hopened⟩ := hloader
  have hk : (t.withFiles { t.infoFiles with
      rlimitFdsHard := s.infoFiles.rlimitFdsHard
      rlimitFdsSoft := s.infoFiles.rlimitFdsSoft
      fdBitmap := s.infoFiles.fdBitmap }).Kept :=
    ⟨hm.1.kept.ordered, hm.1.kept.balanced, hm.1.kept.small, hm.1.kept.file⟩
  have hf : Foreign (t.withFiles { t.infoFiles with
      rlimitFdsHard := s.infoFiles.rlimitFdsHard
      rlimitFdsSoft := s.infoFiles.rlimitFdsSoft
      fdBitmap := s.infoFiles.fdBitmap }) s.infoFiles.firstFile :=
    have hf := h.foreign hm.2
    ⟨hf.small, hf.file, hf.apart⟩
  have habsent := hk.absent_of_copied alloc true duplicated h.ordered hf hcopy
  have hcopies := hk.taskFilesCopyInorder alloc true duplicated h.ordered hf habsent
  rw [taskFilesCopyInto] at hcopy
  rw [hcopy] at hcopies
  obtain ⟨u, hu⟩ := hcopies.files
  refine ⟨fun i hi hlt => ?_, fun i => ?_, by rw [hu]; rfl⟩
  · exact habsent i ((h.copied_congr true hm.2 i).mpr hi) ((hopened i).mpr hlt)
  · exact (hcopies.opened i).trans (or_congr (hopened i) (h.copied_congr true hm.2 i))

/-- No program inherits exactly the descriptors that its caller passes on. -/
theorem execve_never_inherits (alloc : Allocator) (stdin stdout stderr : OpenAnswer) (duplicated : ℕ → Bool)
    {s : TaskFiles} (h : s.Kept) : ¬s.Inherited (s.syscallExecveFiles alloc stdin stdout stderr duplicated) := by
  rintro ⟨s', hs', hopened, -⟩
  obtain ⟨habsent, hboth, -⟩ := h.syscallExecveFiles_ok hs'
  have hzero : s'.Opened 0 := (hboth 0).mpr (.inl (by decide))
  exact habsent 0 ((hopened 0).mp hzero) (by decide)

end TaskFiles

/-- A program that the loader has set up replaces itself. -/
theorem loaded_program_execve : ∃ s : TaskFiles, s.Kept ∧ s.Opened 2 ∧
    ¬s.Inherited (s.syscallExecveFiles System.lowAllocator (.opened 0) (.opened 0) (.opened 0) fun _ => true) := by
  have hload : ∃ s, TaskFiles.elfExecuteFiles System.lowAllocator (.opened 0) (.opened 0) (.opened 0)
      ⟨fun _ => none, taskInfoFilesAllocate⟩ = .ok s ∧ True := by decide +kernel
  obtain ⟨s, hs, -⟩ := hload
  have hmeets := TaskFiles.elfExecuteFiles_meets System.lowAllocator (fun _ => none) (.opened 0) (.opened 0) (.opened 0)
  rw [hs] at hmeets
  exact ⟨s, hmeets.1.1.kept, (hmeets.2 2).mpr (by decide), TaskFiles.execve_never_inherits _ _ _ _ _ hmeets.1.1.kept⟩

/-- Its descriptors 0, 1 and 2 are inserted a second time, and the system halts. -/
theorem loaded_program_execve_halts : ∃ s : TaskFiles, s.Kept ∧
    s.syscallExecveFiles System.lowAllocator (.opened 0) (.opened 0) (.opened 0) (fun _ => true) = .error .halt ∧
    ¬s.Inherited (s.syscallExecveFiles System.lowAllocator (.opened 0) (.opened 0) (.opened 0) fun _ => true) := by
  have hload : ∃ s, TaskFiles.elfExecuteFiles System.lowAllocator (.opened 0) (.opened 0) (.opened 0)
      ⟨fun _ => none, taskInfoFilesAllocate⟩ = .ok s ∧ Exec.Meets (· = .halt) (fun _ => False)
        (s.syscallExecveFiles System.lowAllocator (.opened 0) (.opened 0) (.opened 0) fun _ => true) := by decide +kernel
  obtain ⟨s, hs, hhalt⟩ := hload
  have hmeets := TaskFiles.elfExecuteFiles_meets System.lowAllocator (fun _ => none) (.opened 0) (.opened 0) (.opened 0)
  rw [hs] at hmeets
  have hstop : s.syscallExecveFiles System.lowAllocator (.opened 0) (.opened 0) (.opened 0) (fun _ => true) =
      .error .halt := by
    generalize s.syscallExecveFiles _ _ _ _ _ = m at hhalt ⊢
    cases m with
    | ok s' => exact hhalt.elim
    | error e => exact congrArg _ hhalt
  refine ⟨s, hmeets.1.1.kept, hstop, ?_⟩
  rintro ⟨s', hs', -⟩
  rw [hstop] at hs'
  cases hs'

end DualFuse.Filesystems
