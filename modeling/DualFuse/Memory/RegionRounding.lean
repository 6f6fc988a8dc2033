import DualFuse.Memory.Bitmap

/-! The rounding of `mark_region` (`memory/bitmap.cpp`). A region is given in bytes; its start
and its length are rounded to blocks apart from each other, so the end of what is marked
depends on both. -/

namespace DualFuse.Memory.Bitmap

open Library Utility

variable {bm bm' : Bitmap} {base size k : ℕ}

/-- The region lies in the memory that the bitmap manages. -/
structure Manages (bm : Bitmap) (base size : ℕ) : Prop where
  start : bm.memStart ≤ base
  word : base < 2 ^ 64
  stop : base + size ≤ bm.memStart + bm.sizeInBlocks * blockSize

/-- Some byte of the region is in the block. -/
def Overlaps (bm : Bitmap) (base size k : ℕ) : Prop :=
  ∃ a, base ≤ a ∧ a < base + size ∧ bm.memStart + k * blockSize ≤ a ∧ a < bm.memStart + (k + 1) * blockSize

/-- All bytes of the block are in the region. -/
def Within (bm : Bitmap) (base size k : ℕ) : Prop :=
  base ≤ bm.memStart + k * blockSize ∧ bm.memStart + (k + 1) * blockSize ≤ base + size

/-- The place of the start of the region in its block. -/
def phase (bm : Bitmap) (base : ℕ) : ℕ := (base - bm.memStart) % blockSize

/-- The blocks that the region overlaps are set, and the others are as they were. -/
def MarksExactly (bm : Bitmap) (base size : ℕ) (bm' : Bitmap) : Prop :=
  ∀ k, (bm.Overlaps base size k → bm'.get k = true) ∧ (¬ bm.Overlaps base size k → bm'.get k = bm.get k)

/-- The blocks that do not lie in the region are as they were. -/
def ClearsInside (bm : Bitmap) (base size : ℕ) (bm' : Bitmap) : Prop :=
  ∀ k, ¬ bm.Within base size k → bm'.get k = bm.get k

theorem Manages.offset_eq (h : bm.Manages base size) : bm.offset base = base - bm.memStart := by
  have hstart := h.start
  have hword := h.word
  unfold offset wrap
  omega

theorem Manages.overlaps_iff (h : bm.Manages base size) :
    bm.Overlaps base size k ↔ size ≠ 0 ∧ (base - bm.memStart) / blockSize ≤ k ∧
      k < (base - bm.memStart + size + blockSize - 1) / blockSize := by
  have hstart := h.start
  unfold Overlaps blockSize
  constructor
  · rintro ⟨a, h₁, h₂, h₃, h₄⟩
    omega
  · rintro ⟨hne, hlo, hhi⟩
    refine ⟨max base (bm.memStart + k * 4096), ?_⟩
    omega

theorem markBlocks_inside {start n : ℕ} (h : start + n ≤ bm.sizeInBlocks) (value : Bool) :
    ∃ bm', bm.markBlocks start n value = .ok bm' ∧ bm.Marked bm' start (start + n) value := by
  have haddr := bm.addressable
  have hwrap : wrap (start + n) = start + n := wrap_of_lt (by omega)
  obtain ⟨bm', hbm'⟩ := bm.markBlocks_ok start n value fun k _ hk => bm.holds_of_lt (by omega)
  have hmarked := (markBlocks_marked hbm').1
  rw [hwrap] at hmarked
  exact ⟨bm', hbm', hmarked⟩

/-- What `mark_region` marks as used. -/
theorem Manages.markRegion_used (h : bm.Manages base size) :
    ∃ bm', bm.markRegion base size true = .ok bm' ∧
      bm.Marked bm' ((base - bm.memStart) / blockSize)
        ((base - bm.memStart) / blockSize + (size + blockSize - 1) / blockSize) true := by
  have hstart := h.start
  have hstop := h.stop
  have haddr := bm.addressable
  have hregion : bm.regionBlocks base size true =
      ((base - bm.memStart) / blockSize, (size + blockSize - 1) / blockSize) := by
    rw [regionBlocks, if_pos rfl, pointerToBlock, h.offset_eq, ceilingDivision_eq (by decide)]
    unfold blockSize at *
    omega
  unfold markRegion
  rw [hregion]
  refine markBlocks_inside ?_ true
  unfold blockSize at *
  omega

/-- What `mark_region` marks as free. -/
theorem Manages.markRegion_free (h : bm.Manages base size) :
    ∃ bm', bm.markRegion base size false = .ok bm' ∧
      bm.Marked bm' ((base - bm.memStart + blockSize - 1) / blockSize)
        ((base - bm.memStart + blockSize - 1) / blockSize + size / blockSize) false := by
  have hstart := h.start
  have hstop := h.stop
  have haddr := bm.addressable
  have hregion : bm.regionBlocks base size false =
      ((base - bm.memStart + blockSize - 1) / blockSize, size / blockSize) := by
    rw [regionBlocks, if_neg (by decide), pointerToBlockRoundup, h.offset_eq, ceilingDivision_eq (by decide)]
    unfold blockSize at *
    omega
  unfold markRegion
  rw [hregion]
  refine markBlocks_inside ?_ false
  unfold blockSize at *
  omega

/-- The length in blocks, from the block of the start on, reaches the end of the region, or the
block that is left out is in use already. -/
def CoversEnd (bm : Bitmap) (base size : ℕ) : Prop :=
  size = 0 ∨ bm.phase base + size ≤ (size + blockSize - 1) / blockSize * blockSize ∨
    bm.get ((base - bm.memStart) / blockSize + (size + blockSize - 1) / blockSize) = true

/-- The whole blocks of the length, from the first whole block on, stay in the region, or the
one that does not is free already. -/
def EndsInside (bm : Bitmap) (base size : ℕ) : Prop :=
  size < blockSize ∨ bm.phase base = 0 ∨ blockSize ≤ bm.phase base + size % blockSize ∨
    bm.get ((base - bm.memStart + blockSize - 1) / blockSize + size / blockSize - 1) = false

theorem Manages.marksExactly_iff (h : bm.Manages base size)
    (hmark : bm.Marked bm' ((base - bm.memStart) / blockSize)
      ((base - bm.memStart) / blockSize + (size + blockSize - 1) / blockSize) true) :
    bm.MarksExactly base size bm' ↔ bm.CoversEnd base size := by
  unfold CoversEnd phase
  constructor
  · intro hexact
    by_contra hnot
    push Not at hnot
    obtain ⟨hne, hshort, hfree⟩ := hnot
    have hover : bm.Overlaps base size
        ((base - bm.memStart) / blockSize + (size + blockSize - 1) / blockSize) := by
      rw [h.overlaps_iff]
      unfold blockSize at *
      omega
    have hset := (hexact _).1 hover
    rw [hmark.get_outside (by omega)] at hset
    exact hfree hset
  · intro hcovers k
    rw [h.overlaps_iff]
    constructor
    · rintro ⟨hne, hlo, hhi⟩
      by_cases hin : k < (base - bm.memStart) / blockSize + (size + blockSize - 1) / blockSize
      · exact hmark.get_inside hlo hin
      · rw [hmark.get_outside (by omega)]
        -- only the block right behind what is marked can be overlapped
        have hlast : k = (base - bm.memStart) / blockSize + (size + blockSize - 1) / blockSize := by
          unfold blockSize at *
          omega
        rcases hcovers with hzero | hcover | hused
        · exact absurd hzero hne
        · unfold blockSize at *
          omega
        · rw [hlast]
          exact hused
    · intro hnot
      refine hmark.get_outside ?_
      unfold blockSize at *
      omega

theorem Manages.clearsInside_iff (h : bm.Manages base size)
    (hmark : bm.Marked bm' ((base - bm.memStart + blockSize - 1) / blockSize)
      ((base - bm.memStart + blockSize - 1) / blockSize + size / blockSize) false) :
    bm.ClearsInside base size bm' ↔ bm.EndsInside base size := by
  have hstart := h.start
  unfold EndsInside phase
  constructor
  · intro hclears
    by_contra hnot
    push Not at hnot
    obtain ⟨hsize, hphase, hlong, hused⟩ := hnot
    have hout : ¬ bm.Within base size
        ((base - bm.memStart + blockSize - 1) / blockSize + size / blockSize - 1) := by
      unfold Within blockSize at *
      omega
    have hkept := hclears _ hout
    have hcleared := hmark.get_inside
      (show _ ≤ (base - bm.memStart + blockSize - 1) / blockSize + size / blockSize - 1 by
        unfold blockSize at *; omega)
      (by unfold blockSize at *; omega)
    rw [hcleared] at hkept
    exact hused hkept.symm
  · intro hends k hout
    by_cases hin : (base - bm.memStart + blockSize - 1) / blockSize ≤ k ∧
        k < (base - bm.memStart + blockSize - 1) / blockSize + size / blockSize
    · rw [hmark.get_inside hin.1 hin.2]
      have hlast : k = (base - bm.memStart + blockSize - 1) / blockSize + size / blockSize - 1 := by
        unfold Within blockSize at *
        omega
      rcases hends with hsmall | hphase | hlong | hfree
      · unfold blockSize at *
        omega
      · unfold Within blockSize at *
        omega
      · unfold Within blockSize at *
        omega
      · rw [hlast, hfree]
    · exact hmark.get_outside (by omega)

/-- For every region in the managed memory, `mark_region` with `isUsed` marks exactly what the
region overlaps if and only if the rounded length reaches its end, and without `isUsed` it
clears only whole blocks of the region if and only if they end inside it. -/
theorem markRegion_exact_iff (bm : Bitmap) (base size : ℕ) (h : bm.Manages base size) :
    (∃ bm', bm.markRegion base size true = .ok bm' ∧
      (bm.MarksExactly base size bm' ↔ bm.CoversEnd base size)) ∧
    ∃ bm', bm.markRegion base size false = .ok bm' ∧
      (bm.ClearsInside base size bm' ↔ bm.EndsInside base size) := by
  obtain ⟨used, hused, hmarked⟩ := h.markRegion_used
  obtain ⟨freed, hfreed, hcleared⟩ := h.markRegion_free
  exact ⟨⟨used, hused, h.marksExactly_iff hmarked⟩, freed, hfreed, h.clearsInside_iff hcleared⟩

/-- Sixteen blocks, all free. -/
def sampleFree : Bitmap where
  bytes := fun _ => 0
  sizeInBlocks := 16
  sizeInBytes := 2
  lastDeepFragmented := 0
  memStart := 0
  covered := sixteen_covered
  addressable := sixteen_addressable

theorem sampleFree_manages : sampleFree.Manages 2048 4096 := ⟨by decide, by decide, by decide⟩

/-- From an aligned start on both roundings are exact. -/
theorem markRegion_exact_aligned :
    sampleFree.CoversEnd 4096 5000 ∧ sampleFree.EndsInside 4096 5000 ∧
      ∃ bm', sampleFree.markRegion 4096 5000 true = .ok bm' ∧ sampleFree.MarksExactly 4096 5000 bm' := by
  have hcovers : sampleFree.CoversEnd 4096 5000 := .inr (.inl (by decide))
  obtain ⟨⟨bm', hbm', hiff⟩, -⟩ := markRegion_exact_iff sampleFree 4096 5000 ⟨by decide, by decide, by decide⟩
  exact ⟨hcovers, .inr (.inl (by decide)), bm', hbm', hiff.mpr hcovers⟩

/-- A region of one block's length from the middle of a block on: one of its two blocks is
not marked. -/
theorem markRegion_misses_half :
    ¬ ∀ (bm : Bitmap) (base size : ℕ), bm.Manages base size → ∀ bm',
      (bm.markRegion base size true = .ok bm' → bm.MarksExactly base size bm') ∧
        (bm.markRegion base size false = .ok bm' → bm.ClearsInside base size bm') := by
  intro h
  obtain ⟨bm', hbm', hfalse⟩ : ∃ bm', sampleFree.markRegion 2048 4096 true = .ok bm' ∧ bm'.get 1 = false :=
    ⟨_, rfl, by decide⟩
  have hover : sampleFree.Overlaps 2048 4096 1 := ⟨4096, by decide⟩
  have := ((h sampleFree 2048 4096 sampleFree_manages bm').1 hbm' 1).1 hover
  rw [hfalse] at this
  cases this

end DualFuse.Memory.Bitmap
