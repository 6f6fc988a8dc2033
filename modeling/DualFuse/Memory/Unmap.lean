import DualFuse.Memory.HeapGrowth

/-! What `munmap` leaves behind. It unmaps a page by mapping it to frame zero, with the
present bit that `virtual_mapL` always sets, so a page that it works on stays mapped.
The end of the range is computed with wrap-around. -/

namespace DualFuse.Memory

open Library Utility

theorem writeLeaf_present {m m' : PagedMemory} {pt : ℕ} {i : Fin 512} {phys flags : Word}
    (h : writeLeaf m pt i phys flags = .ok m') : has pfPresent (m'.words pt i) = true := by
  have hwrite : ∀ bm, has pfPresent ((PagedMemory.write ⟨bm, m.words⟩ pt i (leafEntry phys flags)).words pt i) = true := by
    intro bm
    simp only [PagedMemory.write, RadixTree.put_same, has_present_leafEntry]
  unfold writeLeaf at h
  split_ifs at h
  · obtain ⟨bm, -, h⟩ := Exec.bind_ok_iff.mp h
    cases h
    exact hwrite bm
  · cases h
    exact hwrite m.bitmap

/-- Every successful mapping leaves a present entry. -/
theorem virtualMapL_present {m m' : PagedMemory} {pagedir : ℕ} {virt phys flags : Word}
    (h : virtualMapL m pagedir virt phys flags = .ok m') :
    ∃ pt, has pfPresent (m'.words pt (pte (stripSx virt))) = true := by
  unfold virtualMapL at h
  split_ifs at h
  simp only [Exec.bind_ok_iff] at h
  obtain ⟨-, -, -, -, ⟨pt, m₁⟩, -, h⟩ := h
  exact ⟨pt, writeLeaf_present h⟩

/-- The pages that a range touches. -/
def InRange (addr len p : ℕ) : Prop := addr / pageSize ≤ p ∧ p * pageSize < addr + len

/-- The range is to be refused. -/
def OutsideMappings (infoPd : TaskInfoPagedir) (addr len : ℕ) : Prop :=
  addr % pageSize ≠ 0 ∨ len = 0 ∨ ¬(infoPd.mmapStart ≤ addr ∧ addr + len ≤ infoPd.mmapEnd)

/-- A range is unmapped: its pages are absent, their frames and no others are free, no page
was given to `virtual_map`, other pages are as before, and a second call frees nothing. -/
structure Unmapped (hhdmOffset pagedir : ℕ) (infoPd : TaskInfoPagedir) (m m' : PagedMemory) (addr len : ℕ) :
    Prop where
  absent : ∀ p, InRange addr len p → m'.translate pagedir (address (p * pageSize)) = none
  freed : ∀ f, m'.Free f ↔ m.Free f ∨ ∃ p entry, InRange addr len p ∧
    m.translate pagedir (address (p * pageSize)) = some (entry, []) ∧ entryFrame entry = f
  creates : (syscallMunmap hhdmOffset pagedir infoPd m addr len).Within fun _ => False
  others : ∀ v, Canonical v → ¬InRange addr len (page v) → m'.translate pagedir v = m.translate pagedir v
  again : ∀ r, (syscallMunmap hhdmOffset pagedir infoPd m' addr len).result = .ok r → ∀ f, r.2.Free f ↔ m'.Free f

/-- What `munmap` is to do. -/
def MunmapMeets (hhdmOffset pagedir : ℕ) (infoPd : TaskInfoPagedir) (m : PagedMemory) (addr len : ℕ) : Prop :=
  (OutsideMappings infoPd addr len →
    (syscallMunmap hhdmOffset pagedir infoPd m addr len).result = .ok (errInval, m)) ∧
  ∀ m', (syscallMunmap hhdmOffset pagedir infoPd m addr len).result = .ok (0, m') →
    Unmapped hhdmOffset pagedir infoPd m m' addr len

/-- The test that the call makes, where the sum may wrap around. -/
def MunmapRefuses (infoPd : TaskInfoPagedir) (addr len : ℕ) : Prop :=
  addr % pageSize ≠ 0 ∨ len = 0 ∨ ¬(infoPd.mmapStart ≤ addr ∧ wrap (addr + len) ≤ infoPd.mmapEnd)

/-- A range inside the bounds on which there is nothing to do: no page is mapped, and none
but the first of the direct map is looked at. -/
def NothingToUnmap (hhdmOffset : Word) (pagedir : ℕ) (infoPd : TaskInfoPagedir) (m : PagedMemory) (addr len : ℕ) : Prop :=
  addr + len ≤ infoPd.mmapEnd ∧ (∀ v ∈ munmapPages addr len, v = hhdmOffset) ∧
    ∀ p, InRange addr len p → m.translate pagedir (address (p * pageSize)) = none

section Munmap
variable {hhdmOffset : Word} {pagedir : ℕ} {infoPd : TaskInfoPagedir} {m : PagedMemory} {addr len : ℕ}

theorem munmapPage_self : munmapPage hhdmOffset.toNat pagedir m hhdmOffset = pure m := by
  refine if_pos ?_
  rw [virtualToPhysical, address, BitVec.ofNat_toNat, BitVec.setWidth_eq]
  exact BitVec.sub_self hhdmOffset

theorem munmapPage_of_ne {virt : Word} (h : virt ≠ hhdmOffset) :
    munmapPage hhdmOffset.toNat pagedir m virt = virtualMap m pagedir virt 0 pfUser :=
  if_neg fun h' => h (eq_of_virtualToPhysical_eq_zero h')

/-- Every page but the first of the direct map is given to `virtual_map`. -/
theorem munmapPages_within_iff (l : List Word) :
    ((Traced.run (munmapPage hhdmOffset.toNat pagedir) m l).Within fun _ => False) ↔ ∀ v ∈ l, v = hhdmOffset := by
  induction l generalizing m with
  | nil => exact iff_of_true (Traced.within_pure m) fun v hv => absurd hv List.not_mem_nil
  | cons v l ih =>
    rw [Traced.run_cons, List.forall_mem_cons]
    by_cases hv : v = hhdmOffset
    · subst hv
      rw [munmapPage_self, Traced.pure_bind, ih]
      exact (and_iff_right rfl).symm
    · rw [munmapPage_of_ne hv, Traced.within_bind_iff]
      exact iff_of_false (fun h => (Traced.within_access _ _).mp h.1) fun h => hv h.1

theorem munmapPages_eq {l : List Word} (h : ∀ v ∈ l, v = hhdmOffset) :
    Traced.run (munmapPage hhdmOffset.toNat pagedir) m l = pure m := by
  induction l with
  | nil => rfl
  | cons v l ih =>
    rw [List.forall_mem_cons] at h
    rw [Traced.run_cons, h.1, munmapPage_self, Traced.pure_bind, ih h.2]

theorem syscallMunmap_refused (h : MunmapRefuses infoPd addr len) :
    syscallMunmap hhdmOffset.toNat pagedir infoPd m addr len = pure (errInval, m) := by
  unfold syscallMunmap
  by_cases hargs : addr % pageSize ≠ 0 ∨ len = 0
  · rw [if_pos hargs]
  · rw [if_neg hargs, if_pos (h.elim (fun h => absurd (.inl h) hargs) fun h => h.resolve_left fun h => hargs (.inr h))]

theorem syscallMunmap_accepted (h : ¬MunmapRefuses infoPd addr len) :
    syscallMunmap hhdmOffset.toNat pagedir infoPd m addr len = (do
      let m ← Traced.run (munmapPage hhdmOffset.toNat pagedir) m (munmapPages addr len)
      pure (0, m)) := by
  unfold syscallMunmap
  rw [if_neg fun hargs => h (hargs.elim .inl fun hlen => .inr (.inl hlen)), if_neg fun hbound => h (.inr (.inr hbound))]

theorem syscallMunmap_idle (h : ¬MunmapRefuses infoPd addr len) (hidle : ∀ v ∈ munmapPages addr len, v = hhdmOffset) :
    syscallMunmap hhdmOffset.toNat pagedir infoPd m addr len = pure (0, m) := by
  rw [syscallMunmap_accepted h, munmapPages_eq hidle, Traced.pure_bind]

/-- A call that returns does what it should exactly when it is refused or has nothing to do. -/
theorem munmapMeets_iff {r : ℕ × PagedMemory}
    (hr : (syscallMunmap hhdmOffset.toNat pagedir infoPd m addr len).result = .ok r) :
    MunmapMeets hhdmOffset.toNat pagedir infoPd m addr len ↔
      MunmapRefuses infoPd addr len ∨ NothingToUnmap hhdmOffset pagedir infoPd m addr len := by
  by_cases hrefused : MunmapRefuses infoPd addr len
  · refine iff_of_true ⟨fun _ => ?_, fun m' hm' => ?_⟩ (.inl hrefused)
    · rw [syscallMunmap_refused hrefused]
      rfl
    · rw [syscallMunmap_refused hrefused, Traced.result_pure, Except.ok.injEq, Prod.mk.injEq] at hm'
      exact absurd hm'.1 (by decide)
  · rw [or_iff_right hrefused]
    constructor
    · rintro ⟨hreject, hsuccess⟩
      have hzero : r.1 = 0 := by
        rw [syscallMunmap_accepted hrefused, Traced.result_bind, Exec.bind_ok_iff] at hr
        obtain ⟨m', -, hr⟩ := hr
        cases hr
        rfl
      have hinside : ¬OutsideMappings infoPd addr len := by
        intro hout
        rw [hreject hout, Except.ok.injEq] at hr
        have herr : errInval = 0 := by rw [← hzero, ← hr]
        exact absurd herr (by decide)
      have hunmapped := hsuccess r.2 (by rw [hr, ← hzero])
      have hidle : ∀ v ∈ munmapPages addr len, v = hhdmOffset := by
        have hcreates := hunmapped.creates
        rw [syscallMunmap_accepted hrefused, Traced.within_bind_iff, munmapPages_within_iff] at hcreates
        exact hcreates.1
      rw [syscallMunmap_idle hrefused hidle, Traced.result_pure, Except.ok.injEq] at hr
      subst hr
      refine ⟨?_, hidle, hunmapped.absent⟩
      by_contra hlt
      exact hinside (.inr (.inr fun h => hlt h.2))
    · rintro ⟨hbound, hidle, habsent⟩
      have hcall : syscallMunmap hhdmOffset.toNat pagedir infoPd m addr len = pure (0, m) :=
        syscallMunmap_idle hrefused hidle
      have hinside : ¬OutsideMappings infoPd addr len := by
        rintro (hargs | hlen | hout)
        · exact hrefused (.inl hargs)
        · exact hrefused (.inr (.inl hlen))
        · refine hrefused (.inr (.inr fun h => hout ⟨h.1, hbound⟩))
      refine ⟨fun hout => absurd hout hinside, fun m' hm' => ?_⟩
      rw [hcall, Traced.result_pure, Except.ok.injEq, Prod.mk.injEq] at hm'
      obtain ⟨-, rfl⟩ := hm'
      refine ⟨habsent, fun f => ⟨.inl, ?_⟩, by rw [hcall]; exact Traced.within_pure _, fun _ _ _ => rfl, fun r hr f => ?_⟩
      · rintro (hf | ⟨p, entry, hp, hentry, -⟩)
        · exact hf
        · rw [habsent p hp] at hentry
          cases hentry
      · rw [hcall, Traced.result_pure, Except.ok.injEq] at hr
        rw [← hr]

end Munmap

/-- A range outside the bounds is refused. -/
theorem munmapMeets_refused :
    MunmapMeets (0xffff800000000000 : Word).toNat 0 ⟨0x100000, 0x200000⟩ blankMemory 0x400000 0x1000 :=
  (munmapMeets_iff (r := (errInval, blankMemory)) (by rw [syscallMunmap_refused (.inr (.inr (by decide)))]; rfl)).mpr
    (.inl (.inr (.inr (by decide))))

/-- A page that is unmapped is present afterwards. -/
theorem munmap_leaves_present :
    (∃ r, (syscallMunmap (0xffff800000000000 : Word).toNat 0 ⟨0x400000, 0x500000⟩ blankMemory 0x400000 0x1000).result =
        .ok r ∧ r.1 = 0 ∧ (r.2.translate 0 0x400000).isSome = true) ∧
      ¬MunmapMeets (0xffff800000000000 : Word).toNat 0 ⟨0x400000, 0x500000⟩ blankMemory 0x400000 0x1000 := by
  have hcall : ∃ r, (syscallMunmap (0xffff800000000000 : Word).toNat 0 ⟨0x400000, 0x500000⟩ blankMemory 0x400000
      0x1000).result = .ok r ∧ r.1 = 0 ∧ (r.2.translate 0 0x400000).isSome = true := by decide +kernel
  refine ⟨hcall, fun h => ?_⟩
  obtain ⟨⟨ret, m'⟩, hr, hzero, hpresent⟩ := hcall
  dsimp only at hzero hpresent
  subst hzero
  have habsent := (h.2 m' hr).absent 0x400 ⟨by decide, by decide⟩
  rw [show address (0x400 * pageSize) = 0x400000 by decide] at habsent
  rw [habsent] at hpresent
  cases hpresent

end DualFuse.Memory
