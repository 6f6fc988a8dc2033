import DualFuse.Memory.Bitmap

/-! Runs of the bitmap operations. Every operation that marks or allocates keeps
the hint sound, so along every run the search from the hint is the search from
block zero. -/

namespace DualFuse.Memory.Bitmap

open Library Utility

/-- A call of one of the operations that change a bitmap. -/
inductive Op where
  | markBlocks (start size : ℕ) (value : Bool)
  | markRegion (basePtr sizeBytes : ℕ) (isUsed : Bool)
  | allocate (blocks : ℕ)
  | free (base blocks : ℕ)

def step (bm : Bitmap) : Op → Exec Bitmap
  | .markBlocks start size value => bm.markBlocks start size value
  | .markRegion basePtr sizeBytes isUsed => bm.markRegion basePtr sizeBytes isUsed
  | .allocate blocks => do
    let (_, bm) ← bm.allocate blocks
    .ok bm
  | .free base blocks => bm.free base blocks

/-- `find_free_region` started at block zero instead of at the hint. -/
def findFreeRegionFromZero (bm : Bitmap) (blocks : ℕ) : ℕ × Bitmap :=
  bm.findFreeRegionFrom blocks bm.sizeInBlocks 0 0 0

theorem hintSound_of_zero {bm : Bitmap} (h : bm.lastDeepFragmented = 0) : HintSound bm :=
  ⟨fun k hk => by omega, by omega⟩

theorem HintSound.step {bm bm' : Bitmap} (hs : HintSound bm) (o : Op) (h : bm.step o = .ok bm') :
    HintSound bm' := by
  cases o with
  | markBlocks start size value => exact hs.markBlocks h
  | markRegion basePtr sizeBytes isUsed => exact hs.markRegion h
  | allocate blocks =>
    simp only [Bitmap.step] at h
    rcases Nat.eq_zero_or_pos blocks with rfl | hb
    · simp only [Bitmap.allocate, if_true, Exec.ok_bind] at h
      cases h; exact hs
    · rcases allocate_spec hs hb with ⟨-, he⟩ | ⟨s, bm₁, -, -, hs₁, he⟩
      · rw [he] at h; cases h; exact hs
      · rw [he] at h; cases h; exact hs₁
  | free base blocks => exact hs.markRegion h

theorem HintSound.run {bm bm' : Bitmap} (hs : HintSound bm) {ops : List Op}
    (h : Library.run Bitmap.step bm ops = .ok bm') : HintSound bm' :=
  run_invariant (fun _ o _ hi => hi.step o) hs h

theorem findFreeRegionFromZero_finds (bm : Bitmap) {blocks : ℕ} (hb : 1 ≤ blocks) :
    ∃ r, FirstRun.Finds bm.isFree bm.sizeInBlocks blocks r ∧
      (bm.findFreeRegionFromZero blocks).1 = r.getD invalidBlock := by
  refine ⟨_, FirstRun.scan_finds_from hb 0 (Nat.zero_le _) (by simp), ?_⟩
  rw [findFreeRegionFromZero, findFreeRegionFrom_eq, Nat.sub_zero]
  cases FirstRun.scan bm.isFree blocks bm.sizeInBlocks 0 0 0 <;> rfl

theorem findFreeRegion_fst {bm : Bitmap} (hs : HintSound bm) {blocks : ℕ} (hb : 1 ≤ blocks) :
    ∃ r, FirstRun.Finds bm.isFree bm.sizeInBlocks blocks r ∧
      (bm.findFreeRegion blocks).1 = r.getD invalidBlock := by
  obtain ⟨r, hr, he⟩ := findFreeRegion_finds hs hb
  refine ⟨r, hr, ?_⟩
  rw [he]
  cases r <;> rfl

theorem getD_eq_invalid_iff {bm : Bitmap} {blocks : ℕ} {r : Option ℕ}
    (hr : FirstRun.Finds bm.isFree bm.sizeInBlocks blocks r) :
    r.getD invalidBlock = invalidBlock ↔ ∀ s, ¬bm.FreeRun blocks s := by
  cases r with
  | none => exact ⟨fun _ => hr, fun _ => rfl⟩
  | some s =>
    have hrun : bm.FreeRun blocks s := hr.1
    exact ⟨fun h => absurd h hrun.lt_invalid.ne, fun h => absurd hrun (h s)⟩

/-- From a bitmap whose hint is zero, along every run that stays inside the
bitmap, no block below the hint is free, and the search returns for every size
what the search from block zero returns: the lowest start of a free run, and
`invalidBlock` exactly when there is none. -/
theorem run_search_eq_full_search (bm₀ bm : Bitmap) (ops : List Op) (h₀ : bm₀.lastDeepFragmented = 0)
    (h : Library.run step bm₀ ops = .ok bm) :
    (∀ k < bm.lastDeepFragmented, bm.get k = true) ∧
    ∀ blocks, 1 ≤ blocks →
      (bm.findFreeRegion blocks).1 = (bm.findFreeRegionFromZero blocks).1 ∧
      ((∃ s, bm.FreeRun blocks s) → IsLeast {s | bm.FreeRun blocks s} (bm.findFreeRegion blocks).1) ∧
      ((bm.findFreeRegion blocks).1 = invalidBlock ↔ ∀ s, ¬bm.FreeRun blocks s) := by
  have hs := (hintSound_of_zero h₀).run h
  refine ⟨hs.used, fun blocks hb => ?_⟩
  obtain ⟨r, hr, he⟩ := findFreeRegion_fst hs hb
  obtain ⟨r', hr', he'⟩ := bm.findFreeRegionFromZero_finds hb
  refine ⟨by rw [he, he', FirstRun.finds_unique hr hr'], ?_, by rw [he, getD_eq_invalid_iff hr]⟩
  rintro ⟨s, hrun⟩
  rw [he]
  cases r with
  | none => exact absurd hrun (hr s)
  | some t => exact hr

/-- A bitmap of sixteen blocks whose first block is in use. -/
def sample : Bitmap where
  bytes := fun k => if k = 0 then 1#8 else 0#8
  sizeInBlocks := 16
  sizeInBytes := 2
  lastDeepFragmented := 0
  memStart := 0
  covered := sixteen_covered
  addressable := sixteen_addressable

theorem sample_run_search : ∃ bm, Library.run step sample
      [.allocate 1, .allocate 3, .free 4096 1, .markRegion 0x5000 4096 true] = .ok bm ∧
    bm.lastDeepFragmented = 1 ∧ (bm.findFreeRegion 2).1 = (bm.findFreeRegionFromZero 2).1 := by
  obtain ⟨bm, h⟩ : ∃ bm, Library.run step sample
      [.allocate 1, .allocate 3, .free 4096 1, .markRegion 0x5000 4096 true] = .ok bm := ⟨_, rfl⟩
  refine ⟨bm, h, by cases h; rfl, ?_⟩
  exact ((run_search_eq_full_search sample bm _ rfl h).2 2 (by decide)).1

end DualFuse.Memory.Bitmap
