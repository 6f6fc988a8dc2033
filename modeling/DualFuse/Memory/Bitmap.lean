import DualFuse.Library.BitArray
import DualFuse.Library.Execution
import DualFuse.Library.FirstRun
import DualFuse.Utility.Words

/-! The bitmap region manager (`memory/bitmap.cpp`). One bit stands for one
block of 4096 bytes and is set when the block is in use. A write outside the
bytes of the bitmap is a fault. The search keeps the hint `lastDeepFragmented`,
below which it never looks. -/

namespace DualFuse.Memory

open Library Utility

def blocksPerByte : ℕ := 8

def blockSize : ℕ := 4096

/-- `(size_t)-1`. -/
def invalidBlock : ℕ := 2 ^ 64 - 1

/-- `Bitmap`. The two bounds hold of every size `CEILING_DIVISION` can give. -/
structure Bitmap where
  bytes : ℕ → BitVec 8
  sizeInBlocks : ℕ
  sizeInBytes : ℕ
  lastDeepFragmented : ℕ
  memStart : ℕ
  covered : sizeInBlocks ≤ blocksPerByte * sizeInBytes
  addressable : sizeInBlocks < 2 ^ 52

/-- Sixteen blocks have their bits in two bytes. -/
theorem sixteen_covered : 16 ≤ blocksPerByte * 2 := by decide

theorem sixteen_addressable : 16 < 2 ^ 52 := by decide

namespace Bitmap

def blockToPointer (bm : Bitmap) (block : ℕ) : ℕ := wrap (bm.memStart + block * blockSize)

/-- `u8Ptr - bitmap->mem_start` as a `size_t`. -/
def offset (bm : Bitmap) (ptr : ℕ) : ℕ := wrap (ptr + (2 ^ 64 - bm.memStart))

def pointerToBlock (bm : Bitmap) (ptr : ℕ) : ℕ := bm.offset ptr / blockSize

def pointerToBlockRoundup (bm : Bitmap) (ptr : ℕ) : ℕ := ceilingDivision (bm.offset ptr) blockSize

def get (bm : Bitmap) (block : ℕ) : Bool := BitArray.get bm.bytes block

def set (bm : Bitmap) (block : ℕ) (value : Bool) : Exec Bitmap :=
  if block / blocksPerByte < bm.sizeInBytes then .ok { bm with bytes := BitArray.set bm.bytes block value }
  else .error .fault

/-- The loop of `mark_blocks` over `n` blocks from `i`. -/
def setBlocks (value : Bool) : (n i : ℕ) → Bitmap → Exec Bitmap
  | 0, _, bm => .ok bm
  | n + 1, i, bm => do
    let bm ← bm.set i value
    setBlocks value n (i + 1) bm

def withHint (bm : Bitmap) (hint : ℕ) : Bitmap := { bm with lastDeepFragmented := hint }

def markBlocks (bm : Bitmap) (start size : ℕ) (value : Bool) : Exec Bitmap :=
  let bm := if value = false ∧ start < bm.lastDeepFragmented then bm.withHint start else bm
  setBlocks value (wrap (start + size) - start) start bm

/-- The locals `base` and `size` of `mark_region`. -/
def regionBlocks (bm : Bitmap) (basePtr sizeBytes : ℕ) (isUsed : Bool) : ℕ × ℕ :=
  if isUsed then (bm.pointerToBlock basePtr, ceilingDivision sizeBytes blockSize)
  else (bm.pointerToBlockRoundup basePtr, sizeBytes / blockSize)

def markRegion (bm : Bitmap) (basePtr sizeBytes : ℕ) (isUsed : Bool) : Exec Bitmap :=
  let region := bm.regionBlocks basePtr sizeBytes isUsed
  bm.markBlocks region.1 region.2 isUsed

/-- The loop of `find_free_region` over `n` blocks from `i`. -/
def findFreeRegionFrom (bm : Bitmap) (blocks : ℕ) : (n i start size : ℕ) → ℕ × Bitmap
  | 0, _, _, _ => (invalidBlock, bm)
  | n + 1, i, start, size =>
    if bm.get i then findFreeRegionFrom bm blocks n (i + 1) (i + 1) 0
    else
      let bm' := if blocks = 1 then bm.withHint (start + 1) else bm
      if blocks ≤ size + 1 then (start, bm') else findFreeRegionFrom bm' blocks n (i + 1) start (size + 1)

def findFreeRegion (bm : Bitmap) (blocks : ℕ) : ℕ × Bitmap :=
  bm.findFreeRegionFrom blocks (bm.sizeInBlocks - bm.lastDeepFragmented)
    bm.lastDeepFragmented bm.lastDeepFragmented 0

/-- The address handed out, `0` when there is none, and the bitmap after it. -/
def allocate (bm : Bitmap) (blocks : ℕ) : Exec (ℕ × Bitmap) :=
  if blocks = 0 then .ok (0, bm)
  else
    let (pickedRegion, bm) := bm.findFreeRegion blocks
    if pickedRegion = invalidBlock then .ok (0, bm)
    else do
      let bm ← bm.markBlocks pickedRegion blocks true
      .ok (bm.blockToPointer pickedRegion, bm)

def free (bm : Bitmap) (base blocks : ℕ) : Exec Bitmap :=
  bm.markRegion base (wrap (blockSize * blocks)) false

section Hint
variable (bm : Bitmap) (hint : ℕ)

@[simp] theorem withHint_get (k : ℕ) : (bm.withHint hint).get k = bm.get k := rfl
@[simp] theorem withHint_sizeInBlocks : (bm.withHint hint).sizeInBlocks = bm.sizeInBlocks := rfl
@[simp] theorem withHint_sizeInBytes : (bm.withHint hint).sizeInBytes = bm.sizeInBytes := rfl
@[simp] theorem withHint_memStart : (bm.withHint hint).memStart = bm.memStart := rfl
@[simp] theorem withHint_lastDeepFragmented : (bm.withHint hint).lastDeepFragmented = hint := rfl

end Hint

/-! ### What marking does -/

/-- `bm'` is `bm` with the blocks from `lo` up to `hi` marked `value`; the hint is
left open. -/
structure Marked (bm bm' : Bitmap) (lo hi : ℕ) (value : Bool) : Prop where
  blocks : bm'.sizeInBlocks = bm.sizeInBlocks
  bytes : bm'.sizeInBytes = bm.sizeInBytes
  memStart : bm'.memStart = bm.memStart
  get : ∀ k, bm'.get k = if lo ≤ k ∧ k < hi then value else bm.get k

theorem Marked.get_inside {bm bm' : Bitmap} {lo hi : ℕ} {value : Bool} (h : Marked bm bm' lo hi value)
    {k : ℕ} (hlo : lo ≤ k) (hhi : k < hi) : bm'.get k = value := by
  rw [h.get, if_pos ⟨hlo, hhi⟩]

theorem Marked.get_outside {bm bm' : Bitmap} {lo hi : ℕ} {value : Bool} (h : Marked bm bm' lo hi value)
    {k : ℕ} (hk : k < lo ∨ hi ≤ k) : bm'.get k = bm.get k := by
  rw [h.get, if_neg (by omega)]

/-- The place of a block is a byte of the bitmap. -/
def Holds (bm : Bitmap) (block : ℕ) : Prop := block / blocksPerByte < bm.sizeInBytes

theorem holds_of_lt (bm : Bitmap) {block : ℕ} (h : block < bm.sizeInBlocks) : bm.Holds block := by
  have := bm.covered
  unfold Holds blocksPerByte at *
  omega

theorem set_ok_iff {bm bm' : Bitmap} {block : ℕ} {value : Bool} :
    bm.set block value = .ok bm' ↔
      bm.Holds block ∧ bm' = { bm with bytes := BitArray.set bm.bytes block value } := by
  unfold set Holds
  split_ifs with h
  · simp [h, eq_comm]
  · simp [h]

theorem setBlocks_marked {value : Bool} {n i : ℕ} {bm bm' : Bitmap}
    (h : setBlocks value n i bm = .ok bm') :
    Marked bm bm' i (i + n) value ∧ bm'.lastDeepFragmented = bm.lastDeepFragmented := by
  induction n generalizing i bm with
  | zero =>
    cases h
    exact ⟨⟨rfl, rfl, rfl, fun k => by rw [if_neg (by omega)]⟩, rfl⟩
  | succ n ih =>
    obtain ⟨bm₁, h₁, h⟩ := Exec.bind_ok_iff.mp h
    obtain ⟨-, rfl⟩ := set_ok_iff.mp h₁
    obtain ⟨hm, hhint⟩ := ih h
    refine ⟨⟨hm.blocks, hm.bytes, hm.memStart, fun k => ?_⟩, hhint⟩
    have hk : get { bm with bytes := BitArray.set bm.bytes i value } k =
        if k = i then value else bm.get k := BitArray.get_set _ _ _ _
    rw [hm.get, hk]
    split_ifs <;> first | rfl | omega

theorem setBlocks_ok {value : Bool} {n i : ℕ} {bm : Bitmap} (h : ∀ k, i ≤ k → k < i + n → bm.Holds k) :
    ∃ bm', setBlocks value n i bm = .ok bm' := by
  induction n generalizing i bm with
  | zero => exact ⟨bm, rfl⟩
  | succ n ih =>
    simp only [setBlocks]
    rw [set_ok_iff.mpr ⟨h i le_rfl (by omega), rfl⟩, Exec.ok_bind]
    exact ih fun k hk hk' => h k (by omega) (by omega)

theorem setBlocks_holds {value : Bool} {n i : ℕ} {bm bm' : Bitmap} (h : setBlocks value n i bm = .ok bm')
    {k : ℕ} (hlo : i ≤ k) (hhi : k < i + n) : bm.Holds k := by
  induction n generalizing i bm with
  | zero => omega
  | succ n ih =>
    obtain ⟨bm₁, h₁, h⟩ := Exec.bind_ok_iff.mp h
    obtain ⟨hi, rfl⟩ := set_ok_iff.mp h₁
    rcases Nat.eq_or_lt_of_le hlo with rfl | hlt
    · exact hi
    · simpa only [Holds] using ih h hlt (by omega)

theorem markBlocks_marked {bm bm' : Bitmap} {start size : ℕ} {value : Bool}
    (h : bm.markBlocks start size value = .ok bm') :
    Marked bm bm' start (wrap (start + size)) value ∧
      bm'.lastDeepFragmented =
        if value = false ∧ start < bm.lastDeepFragmented then start else bm.lastDeepFragmented := by
  unfold markBlocks at h
  have hrange : ∀ k, (start ≤ k ∧ k < start + (wrap (start + size) - start)) ↔
      (start ≤ k ∧ k < wrap (start + size)) := by intro k; omega
  split_ifs at h ⊢ with hc
  · obtain ⟨hm, hhint⟩ := setBlocks_marked h
    exact ⟨⟨hm.blocks, hm.bytes, hm.memStart, fun k => by simp only [hm.get, hrange, withHint_get]⟩, hhint⟩
  · obtain ⟨hm, hhint⟩ := setBlocks_marked h
    exact ⟨⟨hm.blocks, hm.bytes, hm.memStart, fun k => by simp only [hm.get, hrange]⟩, hhint⟩

/-- Marking inside the bytes of the bitmap does not fault. -/
theorem markBlocks_ok (bm : Bitmap) (start size : ℕ) (value : Bool)
    (h : ∀ k, start ≤ k → k < wrap (start + size) → bm.Holds k) :
    ∃ bm', bm.markBlocks start size value = .ok bm' := by
  apply setBlocks_ok
  intro k hk hk'
  have := h k hk (by omega)
  unfold Holds at *
  split_ifs <;> exact this

theorem markBlocks_holds {bm bm' : Bitmap} {start size : ℕ} {value : Bool}
    (h : bm.markBlocks start size value = .ok bm') {k : ℕ} (hlo : start ≤ k)
    (hhi : k < wrap (start + size)) : bm.Holds k := by
  have := setBlocks_holds h hlo (by omega)
  unfold Holds at *
  split_ifs at this <;> exact this

/-! ### The search and its hint -/

/-- No block below the hint is free, and the hint is a block number. -/
structure HintSound (bm : Bitmap) : Prop where
  used : ∀ k < bm.lastDeepFragmented, bm.get k = true
  le : bm.lastDeepFragmented ≤ bm.sizeInBlocks

/-- The blocks that may be handed out. -/
def isFree (bm : Bitmap) (k : ℕ) : Bool := !bm.get k

/-- A run of `blocks` free blocks from `s`. -/
abbrev FreeRun (bm : Bitmap) (blocks s : ℕ) : Prop :=
  FirstRun.IsRun bm.isFree bm.sizeInBlocks blocks s

/-- The loop returns what the pass over the free blocks returns. It moves the
hint only when a single block is asked for, and then only on success. -/
theorem findFreeRegionFrom_eq (bm : Bitmap) (blocks n i start size : ℕ) :
    bm.findFreeRegionFrom blocks n i start size =
      match FirstRun.scan bm.isFree blocks n i start size with
      | none => (invalidBlock, bm)
      | some s => (s, if blocks = 1 then bm.withHint (s + 1) else bm) := by
  induction n generalizing i start size with
  | zero => rfl
  | succ n ih =>
    simp only [findFreeRegionFrom, FirstRun.scan]
    by_cases hg : bm.get i = true
    · have hf : bm.isFree i = false := by simp [isFree, hg]
      simp only [hg, hf, if_true, Bool.false_eq_true, if_false]
      exact ih _ _ _
    · have hf : bm.isFree i = true := by simpa [isFree] using hg
      simp only [hg, hf, if_true, Bool.false_eq_true, if_false]
      by_cases hle : blocks ≤ size + 1
      · simp only [hle, if_true]
      · simp only [hle, if_false, if_neg (show ¬blocks = 1 by omega)]
        simpa only [if_neg (show ¬blocks = 1 by omega)] using ih (i + 1) start (size + 1)

theorem findFreeRegion_finds {bm : Bitmap} (hs : HintSound bm) {blocks : ℕ} (hb : 1 ≤ blocks) :
    ∃ r, FirstRun.Finds bm.isFree bm.sizeInBlocks blocks r ∧ bm.findFreeRegion blocks =
      match r with
      | none => (invalidBlock, bm)
      | some s => (s, if blocks = 1 then bm.withHint (s + 1) else bm) :=
  ⟨_, FirstRun.scan_finds_from hb _ hs.le (fun j hj => by simp [isFree, hs.used j hj]),
    bm.findFreeRegionFrom_eq _ _ _ _ _⟩

theorem FreeRun.lt_invalid {bm : Bitmap} {blocks s : ℕ} (h : bm.FreeRun blocks s) : s < invalidBlock := by
  have := h.1
  have := bm.addressable
  unfold invalidBlock
  omega

theorem FreeRun.wrap_end {bm : Bitmap} {blocks s : ℕ} (h : bm.FreeRun blocks s) :
    wrap (s + blocks) = s + blocks := by
  have := h.1
  have := bm.addressable
  exact wrap_of_lt (by omega)

theorem FreeRun.get {bm : Bitmap} {blocks s k : ℕ} (h : bm.FreeRun blocks s) (hlo : s ≤ k)
    (hhi : k < s + blocks) : bm.get k = false := by
  have := h.2 (k - s) (by omega)
  rw [show s + (k - s) = k by omega] at this
  simpa [isFree] using this

/-- Marking keeps the hint sound, except that marking as free must lower it. -/
theorem HintSound.markBlocks {bm bm' : Bitmap} (hs : HintSound bm) {start size : ℕ} {value : Bool}
    (h : bm.markBlocks start size value = .ok bm') : HintSound bm' := by
  obtain ⟨hm, hhint⟩ := markBlocks_marked h
  have hle : bm'.lastDeepFragmented ≤ bm.lastDeepFragmented := by rw [hhint]; split_ifs <;> omega
  refine ⟨fun k hk => ?_, by have := hs.le; rw [hm.blocks]; omega⟩
  have hold := hs.used k (by omega)
  rw [hm.get, hold]
  cases value with
  | true => simp
  | false =>
    rw [if_neg]
    rintro ⟨hlo, -⟩
    rw [hhint] at hk
    split_ifs at hk with hc
    · omega
    · simp only [true_and] at hc; omega

theorem HintSound.markRegion {bm bm' : Bitmap} (hs : HintSound bm) {basePtr sizeBytes : ℕ} {isUsed : Bool}
    (h : bm.markRegion basePtr sizeBytes isUsed = .ok bm') : HintSound bm' := hs.markBlocks h

/-- The whole effect of an allocation: the lowest run that is long enough is
marked used and its address returned; without such a run nothing changes. -/
theorem allocate_spec {bm : Bitmap} (hs : HintSound bm) {blocks : ℕ} (hb : 1 ≤ blocks) :
    ((∀ s, ¬bm.FreeRun blocks s) ∧ bm.allocate blocks = .ok (0, bm)) ∨
    ∃ s bm', IsLeast {s | bm.FreeRun blocks s} s ∧ Marked bm bm' s (s + blocks) true ∧ HintSound bm' ∧
      bm.allocate blocks = .ok (bm.blockToPointer s, bm') := by
  obtain ⟨r, hr, he⟩ := findFreeRegion_finds hs hb
  unfold allocate
  rw [if_neg (by omega), he]
  cases r with
  | none => exact .inl ⟨hr, by simp⟩
  | some s =>
    have hrun : bm.FreeRun blocks s := hr.1
    right
    simp only [if_neg hrun.lt_invalid.ne]
    -- the hint may already point past the block that is marked next
    set bm₁ : Bitmap := if blocks = 1 then bm.withHint (s + 1) else bm with hbm₁
    have hget : ∀ k, bm₁.get k = bm.get k := by intro k; rw [hbm₁]; split_ifs <;> rfl
    have hblocks : bm₁.sizeInBlocks = bm.sizeInBlocks := by rw [hbm₁]; split_ifs <;> rfl
    have hbytes : bm₁.sizeInBytes = bm.sizeInBytes := by rw [hbm₁]; split_ifs <;> rfl
    have hstart : bm₁.memStart = bm.memStart := by rw [hbm₁]; split_ifs <;> rfl
    have hend := hrun.1
    obtain ⟨bm', hbm'⟩ := bm₁.markBlocks_ok s blocks true
      (fun k _ hk => holds_of_lt _ (by rw [hrun.wrap_end] at hk; omega))
    obtain ⟨hm, hhint⟩ := markBlocks_marked hbm'
    rw [hrun.wrap_end] at hm
    simp only [Bool.true_eq_false, false_and, if_false] at hhint
    refine ⟨s, bm', hr, ⟨hm.blocks.trans hblocks, hm.bytes.trans hbytes, hm.memStart.trans hstart,
      fun k => by rw [hm.get, hget]⟩, ⟨fun k hk => ?_, ?_⟩, ?_⟩
    · rw [hm.get, hget]
      split_ifs with hin
      · rfl
      · rw [hhint, hbm₁] at hk
        split_ifs at hk with h1
        · -- below the new hint and outside the block just taken: no run starts there
          rw [withHint_lastDeepFragmented] at hk
          by_contra hfree
          refine absurd (hr.2 (show bm.FreeRun blocks k from ⟨by omega, fun j hj => ?_⟩)) (by omega)
          rw [show k + j = k by omega]
          simpa [isFree] using hfree
        · exact hs.used k hk
    · rw [hhint, hm.blocks, hblocks, hbm₁]
      split_ifs with h1
      · rw [withHint_lastDeepFragmented]; omega
      · exact hs.le
    · rw [hbm', Exec.ok_bind, blockToPointer, blockToPointer, hm.memStart, hstart]

end Bitmap

end DualFuse.Memory
