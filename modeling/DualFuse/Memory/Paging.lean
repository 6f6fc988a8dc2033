import DualFuse.Library.RadixTree
import DualFuse.Memory.PageEntry
import DualFuse.Memory.Physical

/-! The four-level page tables (`memory/paging.cpp`). Physical memory is read
and written through the direct map, frame by frame, so a table is the 512 words
of its frame. `virtual_mapL` allocates the missing tables on its path, gives back
the frame of an entry that it replaces and writes the new entry;
`paging_virtual_to_physical` walks the same tables by software and takes every
present entry above the last level for a table. What the processor does is the
lookup of the radix tree, where a large page ends the walk. -/

namespace DualFuse.Memory

open Library Utility

/-- Physical memory with its allocator: the words of every frame. -/
structure PagedMemory where
  bitmap : Bitmap
  words : ℕ → Fin 512 → Word

/-- The window of virtual addresses that maps physical memory directly. -/
structure DirectMap where
  hhdmOffset : Word
  mmPhysExtent : Word

def DirectMap.Covers (dm : DirectMap) (virt : Word) : Prop :=
  dm.hhdmOffset ≤ virt ∧ virt < dm.hhdmOffset + dm.mmPhysExtent

instance (dm : DirectMap) (virt : Word) : Decidable (dm.Covers virt) :=
  inferInstanceAs (Decidable (_ ∧ _))

namespace PagedMemory

def write (m : PagedMemory) (frame : ℕ) (i : Fin 512) (entry : Word) : PagedMemory :=
  { m with words := RadixTree.put m.words frame i entry }

/-- A frame that the allocator may hand out. -/
def Free (m : PagedMemory) (k : ℕ) : Prop := k < m.bitmap.sizeInBlocks ∧ m.bitmap.get k = false

instance (m : PagedMemory) (k : ℕ) : Decidable (m.Free k) := inferInstanceAs (Decidable (_ ∧ _))

end PagedMemory

/-- The address of a zeroed frame. -/
def pagingPhysicalAllocate (m : PagedMemory) : Exec (ℕ × PagedMemory) := do
  let a ← physicalAllocate m.bitmap 1
  if a.halted then .error .halt
  else .ok (a.phys, ⟨a.bitmap, Function.update m.words (a.phys / pageSize) fun _ => 0⟩)

/-- The entry that `virtual_mapL` writes for a new table. -/
def tableEntry (target : ℕ) : Word := BitVec.ofNat 64 target ||| pfPresent ||| pfRw ||| pfUser

/-- The step of `virtual_mapL` from a table to the next one, which it creates when
the entry is absent. -/
def ensureTable (m : PagedMemory) (table : ℕ) (i : Fin 512) : Exec (ℕ × PagedMemory) := do
  let m ← if has pfPresent (m.words table i) then .ok m else do
    let (target, m) ← pagingPhysicalAllocate m
    .ok (m.write table i (tableEntry target))
  .ok (entryFrame (m.words table i), m)

def leafEntry (phys flags : Word) : Word := pPhysAddr phys ||| pfPresent ||| flags

/-- The end of `virtual_mapL` in the last table. -/
def writeLeaf (m : PagedMemory) (pt : ℕ) (i : Fin 512) (phys flags : Word) : Exec PagedMemory := do
  let bm ← if has pfPresent (m.words pt i) then physicalFree m.bitmap (pteGetAddr (m.words pt i)).toNat 1
    else .ok m.bitmap
  .ok (PagedMemory.write ⟨bm, m.words⟩ pt i (leafEntry phys flags))

def virtualMapL (m : PagedMemory) (pagedir : ℕ) (virt phys flags : Word) : Exec PagedMemory :=
  if virt.toNat % pageSize ≠ 0 then .error .halt
  else do
    let virt := stripSx virt
    let (pdp, m) ← ensureTable m pagedir (pml4e virt)
    let (pd, m) ← ensureTable m pdp (pdpte virt)
    let (pt, m) ← ensureTable m pd (pde virt)
    writeLeaf m pt (pte virt) phys flags

/-- `globalPagedir` is `none` before paging is initialised. -/
def pagingVirtualToPhysical (dm : DirectMap) (globalPagedir : Option ℕ) (m : PagedMemory) (virt : Word) : Word :=
  match globalPagedir with
  | none => 0
  | some pagedir =>
    if dm.Covers virt then virt - dm.hhdmOffset
    else
      let init := virt
      let virt := stripSx (virt &&& ~~~0xFFF)
      if !has pfPresent (m.words pagedir (pml4e virt)) then 0
      else
        let pdp := entryFrame (m.words pagedir (pml4e virt))
        if !has pfPresent (m.words pdp (pdpte virt)) then 0
        else
          let pd := entryFrame (m.words pdp (pdpte virt))
          if !has pfPresent (m.words pd (pde virt)) then 0
          else
            let pt := entryFrame (m.words pd (pde virt))
            if has pfPresent (m.words pt (pte virt)) then pteGetAddr (m.words pt (pte virt)) + (init &&& 0xFFF)
            else 0

/-! ### The tree of tables -/

/-- The table that an entry above the last level leads to. -/
def nextTable (entry : Word) : Option ℕ :=
  if has pfPresent entry && !has pfPs entry then some (entryFrame entry) else none

theorem nextTable_of_absent {entry : Word} (h : has pfPresent entry = false) : nextTable entry = none := by
  simp [nextTable, h]

theorem nextTable_zero : nextTable 0 = none := nextTable_of_absent (has_zero _)

namespace PagedMemory

def table (m : PagedMemory) (pagedir : ℕ) (path : List (Fin 512)) : Option ℕ :=
  RadixTree.walk nextTable m.words pagedir path

/-- What the processor finds on a path: the present entry at which its walk ends
and the indices it did not use, none but for a large page. -/
def lookup (m : PagedMemory) (pagedir : ℕ) (path : List (Fin 512)) : Option (Word × List (Fin 512)) :=
  RadixTree.lookup nextTable m.words (has pfPresent) pagedir path

/-- The processor's translation of an address. -/
def translate (m : PagedMemory) (pagedir : ℕ) (virt : Word) : Option (Word × List (Fin 512)) :=
  m.lookup pagedir (indices virt)

/-- No large page lies on the path. -/
def NoLargePage (m : PagedMemory) (pagedir : ℕ) (path : List (Fin 512)) : Prop :=
  ∀ entry rest, m.lookup pagedir path = some (entry, rest) → rest = []

instance (m : PagedMemory) (pagedir : ℕ) (path : List (Fin 512)) : Decidable (m.NoLargePage pagedir path) :=
  match h : m.lookup pagedir path with
  | none => isTrue fun _ _ h' => by cases h.symm.trans h'
  | some (entry, rest) => decidable_of_iff (rest = []) (by simp [NoLargePage, h])

/-- The entry above the last level that a path without large pages uses is a table or absent. -/
theorem NoLargePage.entry {m : PagedMemory} {pagedir : ℕ} {p rest : List (Fin 512)} {t : ℕ} {i : Fin 512}
    (hn : m.NoLargePage pagedir (p ++ i :: rest)) (ht : m.table pagedir p = some t) (hrest : rest ≠ [])
    (hpre : has pfPresent (m.words t i) = true) :
    nextTable (m.words t i) = some (entryFrame (m.words t i)) := by
  obtain ⟨j, rest, rfl⟩ := List.exists_cons_of_ne_nil hrest
  by_contra hne
  have hnone : nextTable (m.words t i) = none := by
    unfold nextTable at hne ⊢
    split_ifs at hne ⊢ with hc
    · exact absurd rfl hne
    · rfl
  have hl : m.lookup pagedir (p ++ i :: j :: rest) = some (m.words t i, j :: rest) := by
    rw [lookup, RadixTree.lookup_append_of_walk (by simp) ht]
    simp [RadixTree.lookup, hnone, hpre]
  exact absurd (hn _ _ hl) (by simp)

/-- Off the large pages, an address translates to the entry of its last table. -/
theorem NoLargePage.translate_eq {m : PagedMemory} {pagedir : ℕ} {virt : Word}
    (hn : m.NoLargePage pagedir (indices virt)) :
    m.translate pagedir virt = (m.table pagedir (upperIndices virt)).bind fun pt =>
      if has pfPresent (m.words pt (pte (stripSx virt))) then some (m.words pt (pte (stripSx virt)), []) else none := by
  cases ht : m.table pagedir (upperIndices virt) with
  | some pt =>
    rw [translate, indices, lookup, RadixTree.lookup_append_of_walk (by simp) ht]
    rfl
  | none =>
    cases hl : m.translate pagedir virt with
    | none => rfl
    | some r => exact absurd (hn r.1 r.2 hl) (RadixTree.lookup_rest_of_walk_none ht hl)

/-- The allocator works and its frames have 40-bit numbers. -/
structure Ready (m : PagedMemory) : Prop where
  physical : m.bitmap.Physical
  fits : m.bitmap.sizeInBlocks ≤ 2 ^ 40

/-- A tree of distinct tables, none of which is free. -/
structure WellFormed (m : PagedMemory) (pagedir : ℕ) : Prop where
  tree : RadixTree.Tree nextTable m.words 3 pagedir
  used : ∀ p a, p.length ≤ 3 → m.table pagedir p = some a → ¬m.Free a

end PagedMemory

section Entries
variable {f : ℕ} (hf : f < 2 ^ 40)
include hf

theorem ofNat_frame_toNat : (BitVec.ofNat 64 (f * pageSize)).toNat = f * pageSize := by
  unfold pageSize
  rw [BitVec.toNat_ofNat, Nat.mod_eq_of_lt (by omega)]

theorem pteGetAddr_ofNat_frame : pteGetAddr (BitVec.ofNat 64 (f * pageSize)) = BitVec.ofNat 64 (f * pageSize) := by
  apply BitVec.eq_of_toNat_eq
  rw [pteGetAddr_toNat, ofNat_frame_toNat hf]
  unfold pageSize
  omega

theorem entryFrame_tableEntry : entryFrame (tableEntry (f * pageSize)) = f := by
  unfold entryFrame tableEntry
  rw [pteGetAddr_or_flags (by decide), pteGetAddr_or_flags (by decide), pteGetAddr_or_flags (by decide),
    pteGetAddr_ofNat_frame hf, ofNat_frame_toNat hf]
  unfold pageSize
  omega

theorem has_ofNat_frame {flag : Word} (hflag : pteGetAddr flag = 0) :
    has flag (BitVec.ofNat 64 (f * pageSize)) = false := by
  unfold has
  rw [bne_eq_false_iff_eq, ← pteGetAddr_ofNat_frame hf, pteGetAddr, BitVec.and_assoc, BitVec.and_comm pteAddrMask]
  rw [show flag &&& pteAddrMask = 0 from hflag]
  exact BitVec.and_zero

theorem nextTable_tableEntry : nextTable (tableEntry (f * pageSize)) = some f := by
  have hps : has pfPs (tableEntry (f * pageSize)) = false := by
    unfold tableEntry
    rw [has_or, has_or, has_or, has_ofNat_frame hf (by decide)]
    decide
  have hpresent : has pfPresent (tableEntry (f * pageSize)) = true := by
    unfold tableEntry
    rw [has_or, has_or, has_or]
    simp [show has pfPresent pfPresent = true by decide]
  unfold nextTable
  rw [hps, hpresent, entryFrame_tableEntry hf]
  rfl

end Entries

theorem has_present_leafEntry (phys flags : Word) : has pfPresent (leafEntry phys flags) = true := by
  unfold leafEntry
  rw [has_or, has_or, show has pfPresent pfPresent = true by decide]
  simp

/-- The address bits of a leaf are those of the mapped address. -/
theorem pteGetAddr_leafEntry {phys flags : Word} (hphys : phys.toNat < 2 ^ 52) (hflags : pteGetAddr flags = 0) :
    pteGetAddr (leafEntry phys flags) = pPhysAddr phys := by
  unfold leafEntry
  rw [pteGetAddr_or_flags hflags, pteGetAddr_or_flags (by decide)]
  apply BitVec.eq_of_toNat_eq
  rw [pteGetAddr_toNat, pPhysAddr_toNat]
  omega

theorem entryFrame_leafEntry {phys flags : Word} (hphys : phys.toNat < 2 ^ 52) (hflags : pteGetAddr flags = 0) :
    entryFrame (leafEntry phys flags) = phys.toNat / pageSize := by
  unfold entryFrame pageSize
  rw [pteGetAddr_leafEntry hphys hflags, pPhysAddr_toNat, Nat.mul_div_cancel _ (by norm_num)]

/-! ### What one step of the mapping does -/

/-- The frame `k` is now in use, all else in the allocator is as before. -/
structure PagedMemory.Takes (m m' : PagedMemory) (k : ℕ) : Prop where
  free : m.Free k
  pos : 1 ≤ k
  marked : m.bitmap.Marked m'.bitmap k (k + 1) true
  ready : m'.Ready

theorem PagedMemory.Takes.free_iff {m m' : PagedMemory} {k : ℕ} (h : m.Takes m' k) (j : ℕ) :
    m'.Free j ↔ m.Free j ∧ j ≠ k := by
  unfold Free
  rw [h.marked.blocks, h.marked.get]
  split_ifs with hj
  · have : j = k := by omega
    simp [this]
  · have : j ≠ k := by omega
    simp [this]

theorem PagedMemory.Takes.lt {m m' : PagedMemory} {k : ℕ} (h : m.Takes m' k) : k < 2 ^ 40 := by
  have hk := h.free.1
  have hfit := h.ready.fits
  rw [h.marked.blocks] at hfit
  omega

/-- A frame is taken and zeroed, unless none is free. -/
theorem pagingPhysicalAllocate_cases {m : PagedMemory} (hr : m.Ready) :
    ((∀ k, ¬m.Free k) ∧ pagingPhysicalAllocate m = .error .halt) ∨
    ∃ f m', m.Takes m' f ∧ m'.words = Function.update m.words f (fun _ => 0) ∧
      pagingPhysicalAllocate m = .ok (f * pageSize, m') := by
  have hone : ((1 : ℕ) : ℤ) = 1 := rfl
  unfold pagingPhysicalAllocate
  rcases physicalAllocate_spec hr.physical (n := 1) le_rfl (by norm_num) with
    ⟨hnone, he⟩ | ⟨f, bm', hleast, hpos, hm, hp', he⟩
  · left
    refine ⟨fun k hk => hnone k ⟨hk.1, fun j hj => ?_⟩, ?_⟩
    · rw [show k + j = k by omega, Bitmap.isFree, hk.2]
      rfl
    · rw [hone] at he
      rw [he]
      rfl
  · right
    have hrun : m.bitmap.FreeRun 1 f := hleast.1
    have hfree : m.Free f := ⟨hrun.1, hrun.get le_rfl (by omega)⟩
    have hframe : f * blockSize / pageSize = f := by unfold blockSize pageSize; omega
    refine ⟨f, ⟨bm', Function.update m.words f fun _ => 0⟩, ⟨hfree, hpos, hm, hp', ?_⟩, rfl, ?_⟩
    · rw [hm.blocks]; exact hr.fits
    · rw [hone] at he
      simp only [he, Exec.ok_bind, Bool.false_eq_true, if_false, hframe]
      rfl

/-- The next table is there, or memory is exhausted, or a zeroed frame is linked in. -/
theorem ensureTable_cases {m : PagedMemory} (hr : m.Ready) (t : ℕ) (i : Fin 512) :
    (has pfPresent (m.words t i) = true ∧ ensureTable m t i = .ok (entryFrame (m.words t i), m)) ∨
    (has pfPresent (m.words t i) = false ∧ (∀ k, ¬m.Free k) ∧ ensureTable m t i = .error .halt) ∨
    ∃ f m', has pfPresent (m.words t i) = false ∧ m.Takes m' f ∧ ensureTable m t i = .ok (f, m') ∧
      (∃ m₁, pagingPhysicalAllocate m = .ok (f * pageSize, m₁)) ∧
      m'.words = RadixTree.put (Function.update m.words f fun _ => 0) t i (tableEntry (f * pageSize)) := by
  unfold ensureTable
  cases hpre : has pfPresent (m.words t i) with
  | true => exact .inl ⟨rfl, rfl⟩
  | false =>
    right
    rcases pagingPhysicalAllocate_cases hr with ⟨hnone, he⟩ | ⟨f, m₁, ht, hw, he⟩
    · exact .inl ⟨rfl, hnone, by rw [he]; rfl⟩
    · refine .inr ⟨f, m₁.write t i (tableEntry (f * pageSize)), rfl,
        ⟨ht.free, ht.pos, ht.marked, ⟨ht.ready.1, ht.ready.2⟩⟩, ?_, ⟨m₁, he⟩, by rw [PagedMemory.write, hw]⟩
      simp only [he, Bool.false_eq_true, if_false, Exec.ok_bind, PagedMemory.write, RadixTree.put_same,
        entryFrame_tableEntry ht.lt]

/-- The old frame is given back when there is one, and the new entry is written. -/
theorem writeLeaf_cases {m : PagedMemory} (hr : m.Ready) (t : ℕ) (i : Fin 512) (phys flags : Word) :
    (has pfPresent (m.words t i) = false ∧
      writeLeaf m t i phys flags = .ok (m.write t i (leafEntry phys flags))) ∨
    (has pfPresent (m.words t i) = true ∧ ¬m.bitmap.Holds (entryFrame (m.words t i)) ∧
      writeLeaf m t i phys flags = .error .fault) ∨
    ∃ bm', has pfPresent (m.words t i) = true ∧ bm'.HintSound ∧
      m.bitmap.Marked bm' (entryFrame (m.words t i)) (entryFrame (m.words t i) + 1) false ∧
      writeLeaf m t i phys flags = .ok (PagedMemory.write ⟨bm', m.words⟩ t i (leafEntry phys flags)) := by
  unfold writeLeaf
  cases hpre : has pfPresent (m.words t i) with
  | false => exact .inl ⟨rfl, rfl⟩
  | true =>
    right
    have hlt := entryFrame_lt (m.words t i)
    simp only [if_true]
    rw [pteGetAddr_eq_frame, show pageSize = blockSize from rfl]
    rcases physicalFree_block hr.physical.memStart hr.physical.hint (s := entryFrame (m.words t i)) (by omega) with
      ⟨hh, he⟩ | ⟨bm', he, hm, hs⟩
    · exact .inl ⟨trivial, hh, by rw [he]; rfl⟩
    · exact .inr ⟨bm', trivial, hs, hm, by rw [he]; rfl⟩

/-- The tables below `table` along a path, created where they are absent. -/
def ensureTables (m : PagedMemory) (table : ℕ) : List (Fin 512) → Exec (ℕ × PagedMemory)
  | [] => .ok (table, m)
  | i :: path => do
    let (next, m) ← ensureTable m table i
    ensureTables m next path

section Mapping
variable {m : PagedMemory} {pagedir : ℕ} {virt phys flags : Word} (halign : virt.toNat % pageSize = 0)
include halign

/-- Mapping goes down three levels and then writes the entry. -/
theorem virtualMapL_of_tables {m₁ : PagedMemory} {pt : ℕ}
    (h : ensureTables m pagedir (upperIndices virt) = .ok (pt, m₁)) :
    virtualMapL m pagedir virt phys flags = writeLeaf m₁ pt (pte (stripSx virt)) phys flags := by
  unfold virtualMapL
  rw [if_neg (by simpa using halign)]
  simp only [upperIndices, ensureTables] at h
  obtain ⟨⟨pdp, m₃⟩, h₃, h⟩ := Exec.bind_ok_iff.mp h
  obtain ⟨⟨pd, m₂⟩, h₂, h⟩ := Exec.bind_ok_iff.mp h
  obtain ⟨⟨t, m₁'⟩, h₁, h⟩ := Exec.bind_ok_iff.mp h
  cases h
  simp only [h₃, h₂, h₁, Exec.ok_bind]

theorem virtualMapL_of_stop {e : Stop} (h : ensureTables m pagedir (upperIndices virt) = .error e) :
    virtualMapL m pagedir virt phys flags = .error e := by
  unfold virtualMapL
  rw [if_neg (by simpa using halign)]
  simp only [upperIndices, ensureTables] at h
  cases h₃ : ensureTable m pagedir (pml4e (stripSx virt)) with
  | error e₃ => simpa [h₃] using h
  | ok r₃ =>
    simp only [h₃, Exec.ok_bind] at h ⊢
    cases h₂ : ensureTable r₃.2 r₃.1 (pdpte (stripSx virt)) with
    | error e₂ => simpa [h₂] using h
    | ok r₂ =>
      simp only [h₂, Exec.ok_bind] at h ⊢
      cases h₁ : ensureTable r₂.2 r₂.1 (pde (stripSx virt)) with
      | error e₁ => simpa [h₁] using h
      | ok r₁ => simp [h₁] at h

end Mapping

/-! ### Zeroed memory -/

section Zero
variable {m : PagedMemory} (hzero : m.words = fun _ _ => 0)
include hzero

theorem PagedMemory.table_of_zero {d a : ℕ} {p : List (Fin 512)} (h : m.table d p = some a) : p = [] ∧ a = d := by
  cases p with
  | nil => cases h; exact ⟨rfl, rfl⟩
  | cons i p =>
    rw [table, RadixTree.walk_cons, hzero, nextTable_zero] at h
    cases h

theorem PagedMemory.lookup_of_zero (d : ℕ) (path : List (Fin 512)) : m.lookup d path = none :=
  RadixTree.lookup_of_empty (fun _ => by rw [hzero, nextTable_zero]) (fun _ => by rw [hzero, has_zero]) _

end Zero

/-- Zeroed memory of sixteen frames, of which the first is in use. -/
def blankMemory : PagedMemory := ⟨smallMemory, fun _ _ => 0⟩

theorem blankMemory_ready : blankMemory.Ready := ⟨smallMemory_physical, by decide⟩

end DualFuse.Memory
