import DualFuse.Memory.HeapGrowth

/-! Which pages `mmap` gives to `virtual_map`. A fixed anonymous mapping is checked
against no window of the kernel, a file mapping only with its first address and not
with the first address of a window, and a mapping without an address takes the end of
the mappings as it is. The tables ignore the upper sixteen bits of an address, so an
address that the processor would not accept selects entries of the kernel too. -/

namespace DualFuse.Memory

open Library Utility

namespace KernelLayout

/-- The direct map and the kernel image. -/
def Window (k : KernelLayout) (a : ℕ) : Prop :=
  (k.hhdmOffset ≤ a ∧ a < k.hhdmOffset + k.mmTotal) ∨ (k.kernelVirtBase ≤ a ∧ a < k.kernelVirtBase + 268435456)

/-- The address selects the entries of a page that lies, even partly, in a window. -/
def Touches (k : KernelLayout) (virt : Word) : Prop := ∃ w : Word, k.Window w.toNat ∧ indices w = indices virt

/-- No page of the kernel is given to `virtual_map`. -/
def Spared {α : Type} (k : KernelLayout) (t : Mapping α) : Prop := t.Within fun virt => ¬k.Touches virt

end KernelLayout

/-! ### The pages of each path -/

/-- The pages that `task_adjust_heap` looks at when a mapping without an address grows. -/
def anonymousPages (infoPd : TaskInfoPagedir) (length : ℕ) : List Word :=
  if wrap (infoPd.mmapEnd + length) ≤ infoPd.mmapStart then []
  else
    (List.range (pageTop (wrap (infoPd.mmapEnd + length)) - pageTop infoPd.mmapEnd)).map fun i =>
      address (pageTop infoPd.mmapEnd * pageSize + i * pageSize)

/-- `ext2Mmap` refuses an address that it finds strictly inside a window. -/
def Ext2Refuses (k : KernelLayout) (addr : ℕ) (flags : BitVec 32) : Prop :=
  hasFlag flags mapFixed = true ∧
    ((addr > k.hhdmOffset ∧ addr < wrap (k.hhdmOffset + k.mmTotal)) ∨
      (addr > k.kernelVirtBase ∧ addr < wrap (k.kernelVirtBase + 268435456)))

instance (k : KernelLayout) (addr : ℕ) (flags : BitVec 32) : Decidable (Ext2Refuses k addr flags) :=
  inferInstanceAs (Decidable (_ ∧ _))

/-- The pages of a file mapping. -/
def filePages (infoPd : TaskInfoPagedir) (addr length : ℕ) (flags : BitVec 32) : List Word :=
  loopPages (if hasFlag flags mapFixed then addr else infoPd.mmapEnd)
    (wrapInt (ceilingDivision length pageSize)).toNat

/-- The pages that a request asks for, path by path. -/
def mmapTargets (k : KernelLayout) (file : MmapFile) (infoPd : TaskInfoPagedir) (addr length : ℕ)
    (flags fd : BitVec 32) : List Word :=
  if length = 0 ∨ addr % pageSize ≠ 0 then []
  else
    let length := wrap (ceilingDivision length pageSize * pageSize)
    let flags := if addr = 0 then without flags mapFixed else flags
    if hasFlag flags mapFixed && hasFlag flags mapAnonymous then fixedPages addr length
    else if addr = 0 ∧ fd = -1 ∧ without (without flags mapFixed) mapPrivate = BitVec.ofNat 32 mapAnonymous then
      (anonymousPages infoPd length).filter (· = address k.hhdmOffset)
    else if fd ≠ -1 then
      match file with
      | .missing | .refusing _ => []
      | .ext2 _ => if Ext2Refuses k addr flags then [] else filePages infoPd addr length flags
    else []

section Paths
variable {k : KernelLayout} {pagedir : ℕ} {infoPd : TaskInfoPagedir} {m : PagedMemory} {addr length : ℕ}
  {P : Word → Prop}

theorem virtualMap_within {virt phys flags : Word} :
    (virtualMap m pagedir virt phys flags).Within P ↔ P virt := Traced.within_access _ _

theorem mapFixedPage_within {virt : Word} (h : P virt) : (mapFixedPage pagedir m virt).Within P :=
  (Traced.within_lift _).bind fun _ _ => virtualMap_within.mpr h

theorem of_mapFixedPage_within {m' : PagedMemory} {virt : Word} (hr : (mapFixedPage pagedir m virt).result = .ok m')
    (h : (mapFixedPage pagedir m virt).Within P) : P virt := by
  unfold mapFixedPage at hr h
  rw [Traced.result_bind, Exec.bind_ok_iff] at hr
  obtain ⟨r, hr, -⟩ := hr
  exact virtualMap_within.mp ((Traced.within_bind_iff.mp h).2 r hr)

/-- Only the first page of the direct map counts as not mapped. -/
theorem virtualToPhysical_eq_zero_iff {hhdmOffset : ℕ} {virt : Word} :
    virtualToPhysical hhdmOffset virt = 0 ↔ virt = address hhdmOffset := by
  unfold virtualToPhysical
  rw [BitVec.sub_eq_iff_eq_add, BitVec.ofNat_eq_ofNat, BitVec.zero_add]

theorem adjustHeapPage_within {virt : Word} (h : virt = address k.hhdmOffset → P virt) :
    (adjustHeapPage k.hhdmOffset pagedir m virt).Within P := by
  unfold adjustHeapPage
  split_ifs with hmapped
  · exact Traced.within_pure m
  · have hp := h (virtualToPhysical_eq_zero_iff.mp (not_not.mp hmapped))
    refine (Traced.within_lift _).bind fun r _ => ?_
    exact (virtualMap_within.mpr hp).bind fun _ _ => Traced.within_lift _

theorem of_adjustHeapPage_within {m' : PagedMemory} {virt : Word}
    (hr : (adjustHeapPage k.hhdmOffset pagedir m virt).result = .ok m')
    (h : (adjustHeapPage k.hhdmOffset pagedir m virt).Within P) : virt = address k.hhdmOffset → P virt := by
  intro hvirt
  unfold adjustHeapPage at hr h
  rw [if_neg (not_not.mpr (virtualToPhysical_eq_zero_iff.mpr hvirt))] at hr h
  rw [Traced.result_bind, Exec.bind_ok_iff] at hr
  obtain ⟨r, hr, -⟩ := hr
  exact virtualMap_within.mp (Traced.within_bind_iff.mp ((Traced.within_bind_iff.mp h).2 r hr)).1

/-! ### The paths -/

/-- A path asks for `targets`: it gives no page to `virtual_map` that is not among them, and
all of them where it returns. -/
def AsksFor {α : Type} (t : Mapping α) (targets : List Word) : Prop :=
  ∀ P : Word → Prop, ((∀ v ∈ targets, P v) → t.Within P) ∧
    ∀ r, t.result = .ok r → t.Within P → ∀ v ∈ targets, P v

theorem asksFor_nil {α : Type} {t : Mapping α} (h : ∀ P : Word → Prop, t.Within P) : AsksFor t [] :=
  fun P => ⟨fun _ => h P, fun _ _ _ _ hv => absurd hv List.not_mem_nil⟩

/-- What follows without an access changes nothing. -/
theorem AsksFor.bind_quiet {α β : Type} {t : Mapping α} {targets : List Word} (h : AsksFor t targets)
    {f : α → Mapping β} (hf : ∀ (P : Word → Prop) a, (f a).Within P) : AsksFor (t >>= f) targets := by
  intro P
  refine ⟨fun ht => ((h P).1 ht).bind fun a _ => hf P a, fun r hr hw => ?_⟩
  rw [Traced.result_bind, Exec.bind_ok_iff] at hr
  obtain ⟨a, ha, -⟩ := hr
  exact (h P).2 a ha (Traced.within_bind_iff.mp hw).1

/-- What comes before without an access changes nothing. -/
theorem AsksFor.quiet_bind {α β : Type} {e : Exec α} {targets : List Word} {f : α → Mapping β}
    (h : ∀ a, e = .ok a → AsksFor (f a) targets) : AsksFor ((liftM e : Mapping α) >>= f) targets := by
  intro P
  refine ⟨fun ht => (Traced.within_lift e).bind fun a ha => (h a ha P).1 ht, fun r hr hw => ?_⟩
  rw [Traced.result_bind, Exec.bind_ok_iff] at hr
  obtain ⟨a, ha, hr⟩ := hr
  exact (h a ha P).2 r hr ((Traced.within_bind_iff.mp hw).2 a ha)

theorem fixedRun_asksFor (pages : List Word) : AsksFor (Traced.run (mapFixedPage pagedir) m pages) pages := fun P =>
  ⟨fun h => Traced.within_run (fun _ v hv => mapFixedPage_within (h v hv)) m,
    fun _ hr hw => Traced.forall_of_within_run (Q := P) (fun _ _ _ => of_mapFixedPage_within) hr hw⟩

theorem mmapFixed_asksFor : AsksFor (mmapFixed pagedir infoPd m addr length) (fixedPages addr length) := by
  unfold mmapFixed
  refine (fixedRun_asksFor _).bind_quiet fun P _ => ?_
  exact (Traced.within_lift _).bind fun _ _ => Traced.within_pure _

theorem heapRun_asksFor (pages : List Word) :
    AsksFor (Traced.run (adjustHeapPage k.hhdmOffset pagedir) m pages)
      (pages.filter (· = address k.hhdmOffset)) := by
  intro P
  simp only [List.mem_filter, decide_eq_true_eq, and_imp]
  exact ⟨fun h => Traced.within_run (fun _ v hv => adjustHeapPage_within (h v hv)) m,
    fun _ hr hw => Traced.forall_of_within_run (Q := fun v => v = address k.hhdmOffset → P v)
      (fun _ _ _ => of_adjustHeapPage_within) hr hw⟩

theorem taskAdjustHeap_asksFor :
    AsksFor (taskAdjustHeap k.hhdmOffset pagedir m (wrap (infoPd.mmapEnd + length)) infoPd.mmapStart infoPd.mmapEnd)
      ((anonymousPages infoPd length).filter (· = address k.hhdmOffset)) := by
  unfold taskAdjustHeap anonymousPages
  by_cases hstart : wrap (infoPd.mmapEnd + length) ≤ infoPd.mmapStart
  · rw [if_pos hstart, if_pos hstart]
    exact asksFor_nil fun P => Traced.within_pure _
  · rw [if_neg hstart, if_neg hstart]
    by_cases htop : pageTop (wrap (infoPd.mmapEnd + length)) > pageTop infoPd.mmapEnd
    · rw [if_pos htop]
      exact (heapRun_asksFor _).bind_quiet fun P _ => Traced.within_pure _
    · rw [if_neg htop, Nat.sub_eq_zero_of_le (not_lt.mp htop)]
      refine asksFor_nil fun P => ?_
      split_ifs <;> exact Traced.within_pure _

theorem mmapAnonymous_asksFor :
    AsksFor (mmapAnonymous k pagedir infoPd m length)
      ((anonymousPages infoPd length).filter (· = address k.hhdmOffset)) := by
  unfold mmapAnonymous
  refine taskAdjustHeap_asksFor.bind_quiet fun P r => ?_
  dsimp only
  split_ifs
  · exact Traced.within_pure _
  · exact (Traced.within_lift _).bind fun _ _ => Traced.within_pure _

/-- The frames of a file mapping do not matter here. -/
theorem fileRun_asksFor (phys virt pages : ℕ) (flags : Word) :
    AsksFor (Traced.run (mapFilePage pagedir phys flags) m ((List.range pages).zip (loopPages virt pages)))
      (loopPages virt pages) := by
  intro P
  have hlen : (List.range pages).length = (loopPages virt pages).length := by simp [loopPages]
  refine ⟨fun h => Traced.within_run (fun m o ho => virtualMap_within.mpr (h _ (List.of_mem_zip ho).2)) m,
    fun r hr hw v hv => ?_⟩
  have hall := Traced.forall_of_within_run (Q := fun o : ℕ × Word => P o.2)
    (fun _ _ _ _ h => virtualMap_within.mp h) hr hw
  rw [← List.map_snd_zip hlen.ge, List.mem_map] at hv
  obtain ⟨o, ho, rfl⟩ := hv
  exact hall o ho

theorem ext2Refuses_iff {flags : BitVec 32} :
    (hasFlag flags mapFixed &&
      (decide (addr > k.hhdmOffset ∧ addr < wrap (k.hhdmOffset + k.mmTotal)) ||
        decide (addr > k.kernelVirtBase ∧ addr < wrap (k.kernelVirtBase + 268435456)))) = true ↔
      Ext2Refuses k addr flags := by
  rw [Bool.and_eq_true, Bool.or_eq_true, decide_eq_true_eq, decide_eq_true_eq]
  rfl

theorem ext2Mmap_asksFor {read : PagedMemory → Exec PagedMemory} {prot flags : BitVec 32} :
    AsksFor (ext2Mmap k pagedir read infoPd m addr length prot flags)
      (if Ext2Refuses k addr flags then [] else filePages infoPd addr length flags) := by
  unfold ext2Mmap filePages
  by_cases hrefuses : Ext2Refuses k addr flags
  · rw [if_pos hrefuses, if_pos (ext2Refuses_iff.mpr hrefuses)]
    exact asksFor_nil fun P => Traced.within_pure _
  · rw [if_neg hrefuses, if_neg fun h => hrefuses (ext2Refuses_iff.mp h)]
    refine AsksFor.quiet_bind fun r _ => (fileRun_asksFor _ _ _ _).bind_quiet fun P _ => ?_
    refine (Traced.within_lift _).bind fun _ _ => (Traced.within_lift _).bind fun _ _ => ?_
    exact Traced.within_pure _

/-- The pages that a request asks for are `mmapTargets`. -/
theorem syscallMmap_asksFor {file : MmapFile} {prot flags fd : BitVec 32} :
    AsksFor (syscallMmap k pagedir file infoPd m addr length prot flags fd)
      (mmapTargets k file infoPd addr length flags fd) := by
  unfold syscallMmap mmapTargets
  by_cases hinval : length = 0 ∨ addr % pageSize ≠ 0
  · rw [if_pos hinval, if_pos hinval]
    exact asksFor_nil fun P => Traced.within_pure _
  rw [if_neg hinval, if_neg hinval]
  dsimp only
  generalize (if addr = 0 then without flags mapFixed else flags) = flags
  generalize wrap (ceilingDivision length pageSize * pageSize) = length
  by_cases hfixed : (hasFlag flags mapFixed && hasFlag flags mapAnonymous) = true
  · rw [if_pos hfixed, if_pos hfixed]
    exact mmapFixed_asksFor
  rw [if_neg hfixed, if_neg hfixed]
  by_cases hanon : addr = 0 ∧ fd = -1 ∧ without (without flags mapFixed) mapPrivate = BitVec.ofNat 32 mapAnonymous
  · rw [if_pos hanon, if_pos hanon]
    exact mmapAnonymous_asksFor
  rw [if_neg hanon, if_neg hanon]
  by_cases hfd : fd = -1
  · rw [if_neg (not_not.mpr hfd), if_neg (not_not.mpr hfd)]
    refine asksFor_nil fun P => ?_
    split_ifs
    · exact Traced.within_quiet _
    · exact Traced.within_pure _
  · rw [if_neg fun h => hfd h.2.1, if_pos hfd, if_pos hfd]
    cases file with
    | missing => exact asksFor_nil fun P => Traced.within_pure _
    | refusing ret => exact asksFor_nil fun P => Traced.within_pure _
    | ext2 read => exact ext2Mmap_asksFor.bind_quiet fun P _ => Traced.within_pure _

end Paths

/-- A request spares the kernel when it asks for none of its pages, and a request that
returns spares the kernel only then. -/
theorem syscallMmap_spares_iff (k : KernelLayout) (pagedir : ℕ) (file : MmapFile) (infoPd : TaskInfoPagedir)
    (m : PagedMemory) (addr length : Word) (prot flags fd : BitVec 32) :
    ((∀ virt ∈ mmapTargets k file infoPd addr.toNat length.toNat flags fd, ¬k.Touches virt) →
      k.Spared (syscallMmap k pagedir file infoPd m addr.toNat length.toNat prot flags fd)) ∧
    ∀ r, (syscallMmap k pagedir file infoPd m addr.toNat length.toNat prot flags fd).result = .ok r →
      k.Spared (syscallMmap k pagedir file infoPd m addr.toNat length.toNat prot flags fd) →
      ∀ virt ∈ mmapTargets k file infoPd addr.toNat length.toNat flags fd, ¬k.Touches virt :=
  syscallMmap_asksFor fun virt => ¬k.Touches virt

/-- One page is mapped at the start of the direct map. -/
theorem mmap_maps_direct_map :
    let k : KernelLayout := ⟨0xffff800000000000, 0x10000000, 0xffffffff80000000⟩
    ¬k.Spared (syscallMmap k 0 .missing ⟨0x400000, 0x500000⟩ blankMemory (0xffff800000000000 : Word).toNat
      (4096 : Word).toNat 3 0x32 (-1)) := by
  intro k h
  have hmem : address k.hhdmOffset ∈ (syscallMmap k 0 .missing ⟨0x400000, 0x500000⟩ blankMemory
      (0xffff800000000000 : Word).toNat (4096 : Word).toNat 3 0x32 (-1)).accesses := by
    decide +kernel
  exact h _ hmem ⟨address k.hhdmOffset, .inl (by decide), rfl⟩

end DualFuse.Memory
