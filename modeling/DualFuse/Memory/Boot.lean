import DualFuse.Memory.Physical

/-! Boot-time set-up of the physical bitmap (`bootloader.cpp`, `memory/pmm.cpp`).
The bootloader hands over a list of memory regions. The kernel sums the lengths
of the usable and the reclaimable ones, sizes the bitmap from this sum, and then
marks every region at the place of its absolute base address. The bits stay
inside the bitmap exactly when no region ends above the summed length. -/

namespace DualFuse.Memory

open Library Utility

inductive MemmapType where
  | usable | reserved | acpiReclaimable | acpiNvs | badMemory | bootloaderReclaimable
  | kernelAndModules | framebuffer | other
  deriving DecidableEq

structure MemmapEntry where
  base : ℕ
  length : ℕ
  type : MemmapType
  deriving DecidableEq

namespace MemmapEntry

def isUsable (e : MemmapEntry) : Bool := e.type = .usable

/-- The address `a` lies in the entry. -/
def Contains (e : MemmapEntry) (a : ℕ) : Prop := e.base ≤ a ∧ a < e.base + e.length

/-- Blocks that the set-up marks for a nonempty entry end here. -/
def topBlock (e : MemmapEntry) : ℕ := e.base / blockSize + (e.length + blockSize - 1) / blockSize

end MemmapEntry

/-- The memory part of `Bootloader`. -/
structure Bootloader where
  mmTotal : ℕ
  mmExecTotal : ℕ
  mmPhysExtent : ℕ
  mmEntries : List MemmapEntry

def addTotals (totals : ℕ × ℕ) (e : MemmapEntry) : ℕ × ℕ :=
  match e.type with
  | .usable => (wrap (totals.1 + e.length), totals.2)
  | .kernelAndModules => (totals.1, wrap (totals.2 + e.length))
  | .bootloaderReclaimable => (wrap (totals.1 + e.length), totals.2)
  | _ => totals

def raiseExtent (extent : ℕ) (e : MemmapEntry) : ℕ :=
  let top := wrap (e.base + e.length)
  if top > extent then top else extent

/-- `initialiseBootloaderParser`, the memory map. -/
def initialiseBootloaderParser (entries : List MemmapEntry) : Bootloader :=
  let totals := entries.foldl addTotals (0, 0)
  ⟨totals.1, totals.2, entries.foldl raiseExtent 0, entries⟩

/-- The first usable entry that can hold a bitmap of this size. -/
def holder (entries : List MemmapEntry) (sizeInBytes : ℕ) : Option MemmapEntry :=
  entries.find? fun e => e.isUsable && decide (sizeInBytes ≤ e.length)

/-- `memset(p, 0xff, n)`. -/
def fillOnes (memory : ℕ → BitVec 8) (n : ℕ) : ℕ → BitVec 8 := fun k => if k < n then 0xff#8 else memory k

/-- The sizes of the bitmap for `total` bytes of memory. -/
def bitmapBlocks (total : ℕ) : ℕ := ceilingDivision total blockSize

def bitmapBytes (total : ℕ) : ℕ := ceilingDivision (bitmapBlocks total) blocksPerByte

theorem bitmapBlocks_lt (total : ℕ) : bitmapBlocks total < 2 ^ 52 := by
  unfold bitmapBlocks ceilingDivision blockSize
  have := wrap_lt (total + 4096 + (2 ^ 64 - 1))
  omega

theorem bitmapBytes_eq (total : ℕ) : bitmapBytes total = (bitmapBlocks total + 7) / 8 := by
  have := bitmapBlocks_lt total
  unfold bitmapBytes blocksPerByte
  rw [ceilingDivision_eq (by norm_num) (by omega)]
  omega

/-- The bitmap after `memset`; `memory` is what lies at its place before. -/
def freshBitmap (total : ℕ) (memory : ℕ → BitVec 8) : Bitmap where
  bytes := fillOnes memory (bitmapBytes total)
  sizeInBlocks := bitmapBlocks total
  sizeInBytes := bitmapBytes total
  lastDeepFragmented := 0
  memStart := 0
  covered := by rw [bitmapBytes_eq, blocksPerByte]; omega
  addressable := bitmapBlocks_lt total

@[simp] theorem freshBitmap_sizeInBlocks (total : ℕ) (memory : ℕ → BitVec 8) :
    (freshBitmap total memory).sizeInBlocks = bitmapBlocks total := by rw [freshBitmap]

@[simp] theorem freshBitmap_sizeInBytes (total : ℕ) (memory : ℕ → BitVec 8) :
    (freshBitmap total memory).sizeInBytes = bitmapBytes total := by rw [freshBitmap]

@[simp] theorem freshBitmap_memStart (total : ℕ) (memory : ℕ → BitVec 8) :
    (freshBitmap total memory).memStart = 0 := by rw [freshBitmap]

theorem freshBitmap_get {total : ℕ} (memory : ℕ → BitVec 8) {k : ℕ} (hk : k < bitmapBlocks total) :
    (freshBitmap total memory).get k = true := by
  have hbyte : k / 8 < bitmapBytes total := by rw [bitmapBytes_eq]; omega
  have hones : fillOnes memory (bitmapBytes total) (k / 8) = 0xff#8 := by rw [fillOnes, if_pos hbyte]
  exact BitArray.get_allOnes (fillOnes memory (bitmapBytes total)) k hones

/-- The entries of one kind, marked in order. -/
def markEntries (usable : Bool) (bm : Bitmap) (entries : List MemmapEntry) : Exec Bitmap :=
  entries.foldlM (fun bm e => if e.isUsable = usable then bm.markRegion e.base e.length (!usable) else .ok bm) bm

def physicalMemoryManagerInitialize (total : ℕ) (entries : List MemmapEntry) (memory : ℕ → BitVec 8) :
    Exec Bitmap :=
  match holder entries (bitmapBytes total) with
  | none => .error .halt
  | some memoryMap => do
    let bm ← markEntries true (freshBitmap total memory) entries
    let bm ← markEntries false bm entries
    bm.markRegion memoryMap.base bm.sizeInBytes true

/-- The `mark_region` calls of the set-up. -/
def markCalls (total : ℕ) (entries : List MemmapEntry) (memoryMap : MemmapEntry) : List (ℕ × ℕ × Bool) :=
  (entries.filter (·.isUsable)).map (fun e => (e.base, e.length, false)) ++
    (entries.filter (!·.isUsable)).map (fun e => (e.base, e.length, true)) ++
    [(memoryMap.base, bitmapBytes total, true)]

/-- A `mark_region` call writes the bit of block `k`. -/
def Touches (bm : Bitmap) (call : ℕ × ℕ × Bool) (k : ℕ) : Prop :=
  let region := bm.regionBlocks call.1 call.2.1 call.2.2
  region.1 ≤ k ∧ k < wrap (region.1 + region.2)

/-! ### The memory map and what the set-up should do -/

/-- What the boot protocol promises: entries in order of their base, usable ones
made of whole pages and overlapping nothing, physical addresses of 52 bits. -/
structure ValidMap (entries : List MemmapEntry) : Prop where
  sorted : entries.Pairwise fun e f => e.base ≤ f.base
  aligned : ∀ e ∈ entries, e.isUsable = true → e.base % blockSize = 0 ∧ e.length % blockSize = 0
  apart : entries.Pairwise fun e f => e.isUsable = true ∨ f.isUsable = true → ∀ a, e.Contains a → ¬f.Contains a
  physical : ∀ e ∈ entries, e.base + e.length ≤ 2 ^ 52

/-- Block `k` lies wholly inside a usable entry. -/
def InUsable (entries : List MemmapEntry) (k : ℕ) : Prop :=
  ∃ e ∈ entries, e.isUsable = true ∧ e.base ≤ k * blockSize ∧ (k + 1) * blockSize ≤ e.base + e.length

/-- Block `k` holds a byte of the bitmap stored from `start` on. -/
def InStorage (start sizeInBytes k : ℕ) : Prop :=
  k * blockSize < start + sizeInBytes ∧ start < (k + 1) * blockSize

/-- The set-up for `total` bytes: unless no usable entry can hold the bitmap, it
writes only bits of blocks of the bitmap, and leaves free exactly the blocks
wholly inside a usable entry that do not store the bitmap. -/
def SetUpCorrect (total : ℕ) (entries : List MemmapEntry) (memory : ℕ → BitVec 8) : Prop :=
  ∀ memoryMap, holder entries (bitmapBytes total) = some memoryMap →
    (∀ call ∈ markCalls total entries memoryMap, ∀ k,
      Touches (freshBitmap total memory) call k → k < bitmapBlocks total) ∧
    ∃ bm, physicalMemoryManagerInitialize total entries memory = .ok bm ∧
      bm.sizeInBlocks = bitmapBlocks total ∧
      ∀ k, (k < bitmapBlocks total ∧ bm.get k = false) ↔
        (InUsable entries k ∧ ¬InStorage memoryMap.base (bitmapBytes total) k)

/-- The set-up with the total the bootloader part computes. -/
def BootCorrect (entries : List MemmapEntry) (memory : ℕ → BitVec 8) : Prop :=
  SetUpCorrect (initialiseBootloaderParser entries).mmTotal entries memory

/-! ### The blocks of an entry -/

/-- The entry's range of marked blocks. -/
def MemmapEntry.Covers (e : MemmapEntry) (k : ℕ) : Prop := e.base / blockSize ≤ k ∧ k < e.topBlock

theorem MemmapEntry.topBlock_of_zero {e : MemmapEntry} (h : e.length = 0) : e.topBlock = e.base / blockSize := by
  simp [topBlock, h, blockSize]

section Entry
variable {bm : Bitmap} {base length : ℕ}

theorem regionBlocks_used (hm : bm.memStart = 0) (h : base + length ≤ 2 ^ 52) :
    bm.regionBlocks base length true = (base / blockSize, (length + blockSize - 1) / blockSize) := by
  unfold Bitmap.regionBlocks Bitmap.pointerToBlock
  rw [Bitmap.offset_of_lt hm (by omega), ceilingDivision_eq (by decide) (by unfold blockSize; omega)]
  rfl

theorem regionBlocks_unused (hm : bm.memStart = 0) (h : base + length ≤ 2 ^ 52)
    (hb : base % blockSize = 0) (hl : length % blockSize = 0) :
    bm.regionBlocks base length false = (base / blockSize, (length + blockSize - 1) / blockSize) := by
  unfold Bitmap.regionBlocks Bitmap.pointerToBlockRoundup
  simp only [Bool.false_eq_true, if_false, Prod.mk.injEq]
  rw [Bitmap.offset_of_lt hm (by omega), ceilingDivision_eq (by decide) (by unfold blockSize; omega)]
  unfold blockSize at *
  omega

/-- Marking an aligned region, or any region as used, marks its range. -/
theorem markRegion_spec (hm : bm.memStart = 0) (h : base + length ≤ 2 ^ 52) (isUsed : Bool)
    (hal : isUsed = false → base % blockSize = 0 ∧ length % blockSize = 0)
    (hfit : length ≠ 0 → base / blockSize + (length + blockSize - 1) / blockSize ≤ bm.sizeInBlocks) :
    ∃ bm', bm.markRegion base length isUsed = .ok bm' ∧
      bm.Marked bm' (base / blockSize) (base / blockSize + (length + blockSize - 1) / blockSize) isUsed := by
  have hregion : bm.regionBlocks base length isUsed =
      (base / blockSize, (length + blockSize - 1) / blockSize) := by
    cases isUsed with
    | false => exact regionBlocks_unused hm h (hal rfl).1 (hal rfl).2
    | true => exact regionBlocks_used hm h
  unfold Bitmap.markRegion
  rw [hregion]
  have hwrap : wrap (base / blockSize + (length + blockSize - 1) / blockSize) =
      base / blockSize + (length + blockSize - 1) / blockSize := wrap_of_lt (by unfold blockSize; omega)
  obtain ⟨bm', hbm'⟩ := bm.markBlocks_ok (base / blockSize)
    ((length + blockSize - 1) / blockSize) isUsed (fun k hk hk' => by
      apply bm.holds_of_lt
      rw [hwrap] at hk'
      have := hfit (by rintro rfl; simp only [blockSize] at hk hk'; omega)
      omega)
  refine ⟨bm', hbm', ?_⟩
  have hmark := (Bitmap.markBlocks_marked hbm').1
  rwa [hwrap] at hmark

end Entry

/-- Every nonempty entry ends inside the bitmap. -/
def EntriesFit (entries : List MemmapEntry) (blocks : ℕ) : Prop :=
  ∀ e ∈ entries, e.length ≠ 0 → e.topBlock ≤ blocks

/-- Marking the entries of one kind sets the bits of their blocks and no other. -/
theorem markEntries_spec (usable : Bool) {entries : List MemmapEntry} {bm : Bitmap} (hm : bm.memStart = 0)
    (haddr : ∀ e ∈ entries, e.base + e.length ≤ 2 ^ 52)
    (hal : ∀ e ∈ entries, e.isUsable = true → e.base % blockSize = 0 ∧ e.length % blockSize = 0)
    (hfit : EntriesFit entries bm.sizeInBlocks) :
    ∃ bm', markEntries usable bm entries = .ok bm' ∧ bm'.memStart = 0 ∧
      bm'.sizeInBlocks = bm.sizeInBlocks ∧ bm'.sizeInBytes = bm.sizeInBytes ∧
      ∀ k, ((∃ e ∈ entries, e.isUsable = usable ∧ e.Covers k) → bm'.get k = !usable) ∧
        ((∀ e ∈ entries, e.isUsable = usable → ¬e.Covers k) → bm'.get k = bm.get k) := by
  induction entries generalizing bm with
  | nil => exact ⟨bm, rfl, hm, rfl, rfl, fun k => ⟨by simp, fun _ => rfl⟩⟩
  | cons e entries ih =>
    have haddr' : ∀ f ∈ entries, f.base + f.length ≤ 2 ^ 52 := fun f hf => haddr f (List.mem_cons_of_mem _ hf)
    have hal' : ∀ f ∈ entries, f.isUsable = true → f.base % blockSize = 0 ∧ f.length % blockSize = 0 :=
      fun f hf => hal f (List.mem_cons_of_mem _ hf)
    unfold markEntries at ih ⊢
    rw [List.foldlM_cons]
    by_cases hu : e.isUsable = usable
    · obtain ⟨bm₁, h₁, hmark⟩ := markRegion_spec hm
        (haddr e List.mem_cons_self) (!usable) (fun h => hal e List.mem_cons_self (by simpa [hu] using h))
        (hfit e List.mem_cons_self)
      rw [if_pos hu, h₁, Exec.ok_bind]
      obtain ⟨bm', h', hstart, hblocks, hbytes, hget⟩ := ih (hmark.memStart.trans hm) haddr' hal'
        (fun f hf => by rw [hmark.blocks]; exact hfit f (List.mem_cons_of_mem _ hf))
      refine ⟨bm', h', hstart, hblocks.trans hmark.blocks, hbytes.trans hmark.bytes, fun k => ⟨?_, ?_⟩⟩
      · rintro ⟨f, hf, hfu, hcov⟩
        by_cases hlater : ∃ f ∈ entries, f.isUsable = usable ∧ f.Covers k
        · exact (hget k).1 hlater
        · -- only the first entry covers the block, and nothing later changes it
          push Not at hlater
          rcases List.mem_cons.mp hf with rfl | hf
          · rw [(hget k).2 hlater, hmark.get_inside hcov.1 hcov.2]
          · exact absurd hcov (hlater f hf hfu)
      · intro hno
        rw [(hget k).2 fun f hf => hno f (List.mem_cons_of_mem _ hf), hmark.get, if_neg]
        exact hno e List.mem_cons_self hu
    · rw [if_neg hu, Exec.ok_bind]
      obtain ⟨bm', h', hstart, hblocks, hbytes, hget⟩ := ih hm haddr' hal'
        (fun f hf => hfit f (List.mem_cons_of_mem _ hf))
      refine ⟨bm', h', hstart, hblocks, hbytes, fun k => ⟨?_, fun hno => ?_⟩⟩
      · rintro ⟨f, hf, hfu, hcov⟩
        rcases List.mem_cons.mp hf with rfl | hf
        · exact absurd hfu hu
        · exact (hget k).1 ⟨f, hf, hfu, hcov⟩
      · exact (hget k).2 fun f hf => hno f (List.mem_cons_of_mem _ hf)

/-! ### When the set-up is correct -/

section Correct
variable {entries : List MemmapEntry} (hv : ValidMap entries)
include hv

theorem ValidMap.inUsable_iff (k : ℕ) :
    InUsable entries k ↔ ∃ e ∈ entries, e.isUsable = true ∧ e.Covers k := by
  constructor
  · rintro ⟨e, he, hu, h1, h2⟩
    refine ⟨e, he, hu, ?_, ?_⟩
    · unfold blockSize at *; omega
    · unfold MemmapEntry.topBlock blockSize at *; omega
  · rintro ⟨e, he, hu, h1, h2⟩
    obtain ⟨hb, hl⟩ := hv.aligned e he hu
    refine ⟨e, he, hu, ?_, ?_⟩
    · unfold blockSize at *; omega
    · unfold MemmapEntry.topBlock blockSize at *; omega

/-- A block of a usable entry is touched by no entry of another kind. -/
theorem ValidMap.not_covered_twice {k : ℕ} (h : InUsable entries k) :
    ∀ f ∈ entries, f.isUsable = false → ¬f.Covers k := by
  rintro f hf hfu ⟨h1, h2⟩
  obtain ⟨e, he, hu, h3, h4⟩ := h
  -- the first byte of the block, or the first byte of `f`, lies in both
  have hboth : ∀ a, e.Contains a → ¬f.Contains a := by
    have hne : e ≠ f := by rintro rfl; rw [hu] at hfu; cases hfu
    have hsymm : Std.Symm fun e f : MemmapEntry =>
        e.isUsable = true ∨ f.isUsable = true → ∀ a, e.Contains a → ¬f.Contains a :=
      ⟨fun x y hxy hor a hy hx => hxy hor.symm a hx hy⟩
    exact hv.apart.forall he hf hne (.inl hu)
  have hlen : f.length ≠ 0 := by
    intro h0
    rw [MemmapEntry.topBlock_of_zero h0] at h2
    omega
  refine hboth (max (k * blockSize) f.base) ⟨by omega, ?_⟩ ⟨by omega, ?_⟩
  · unfold blockSize at *; omega
  · unfold MemmapEntry.topBlock blockSize at *; omega

theorem ValidMap.covers_storage {memoryMap : MemmapEntry} {n : ℕ} (hmem : memoryMap ∈ entries)
    (hu : memoryMap.isUsable = true) (k : ℕ) :
    (memoryMap.base / blockSize ≤ k ∧ k < memoryMap.base / blockSize + (n + blockSize - 1) / blockSize) ↔
      InStorage memoryMap.base n k := by
  obtain ⟨hb, -⟩ := hv.aligned memoryMap hmem hu
  unfold InStorage blockSize at *
  omega

theorem ValidMap.region_eq {bm : Bitmap} (hm : bm.memStart = 0) {e : MemmapEntry} (he : e ∈ entries) :
    bm.regionBlocks e.base e.length (!e.isUsable) = (e.base / blockSize, (e.length + blockSize - 1) / blockSize) := by
  cases hu : e.isUsable with
  | false => exact regionBlocks_used hm (hv.physical e he)
  | true => exact regionBlocks_unused hm (hv.physical e he) (hv.aligned e he hu).1 (hv.aligned e he hu).2

/-- A call for an entry touches exactly the blocks of its range. -/
theorem ValidMap.touches_iff {bm : Bitmap} (hm : bm.memStart = 0) {e : MemmapEntry} (he : e ∈ entries) (k : ℕ) :
    Touches bm (e.base, e.length, !e.isUsable) k ↔ e.Covers k := by
  have haddr := hv.physical e he
  have hwrap : wrap (e.base / blockSize + (e.length + blockSize - 1) / blockSize) = e.topBlock :=
    wrap_of_lt (by unfold blockSize; omega)
  simp only [Touches, hv.region_eq hm he, hwrap]
  rfl

omit hv in
theorem mem_markCalls {total : ℕ} {memoryMap : MemmapEntry} {call : ℕ × ℕ × Bool} :
    call ∈ markCalls total entries memoryMap ↔
      (∃ e ∈ entries, call = (e.base, e.length, !e.isUsable)) ∨
        call = (memoryMap.base, bitmapBytes total, true) := by
  simp only [markCalls, List.mem_append, List.mem_map, List.mem_filter, List.mem_singleton]
  constructor
  · rintro ((⟨e, ⟨he, hu⟩, rfl⟩ | ⟨e, ⟨he, hu⟩, rfl⟩) | h)
    · exact .inl ⟨e, he, by rw [hu]; rfl⟩
    · exact .inl ⟨e, he, by rw [show e.isUsable = false by simpa using hu]; rfl⟩
    · exact .inr h
  · rintro (⟨e, he, rfl⟩ | h)
    · cases hu : e.isUsable with
      | true => exact .inl (.inl ⟨e, ⟨he, hu⟩, rfl⟩)
      | false => exact .inl (.inr ⟨e, ⟨he, by simp [hu]⟩, rfl⟩)
    · exact .inr h

omit hv in
/-- When the entries fit, the storage of the bitmap ends inside the bitmap too. -/
theorem storage_fits {memoryMap : MemmapEntry} {n blocks : ℕ} (hfit : EntriesFit entries blocks)
    (hmem : memoryMap ∈ entries) (hn : n ≤ memoryMap.length) (h0 : n ≠ 0) :
    memoryMap.base / blockSize + (n + blockSize - 1) / blockSize ≤ blocks := by
  have htop := hfit memoryMap hmem (by omega)
  unfold MemmapEntry.topBlock at htop
  have := Nat.div_le_div_right (c := blockSize) (show n + blockSize - 1 ≤ memoryMap.length + blockSize - 1 by omega)
  omega

theorem ValidMap.initialize_free_iff {total : ℕ} {memory : ℕ → BitVec 8} {memoryMap : MemmapEntry}
    (hfit : EntriesFit entries (bitmapBlocks total))
    (hhold : holder entries (bitmapBytes total) = some memoryMap) :
    ∃ bm, physicalMemoryManagerInitialize total entries memory = .ok bm ∧
      bm.sizeInBlocks = bitmapBlocks total ∧
      ∀ k, (k < bitmapBlocks total ∧ bm.get k = false) ↔
        (InUsable entries k ∧ ¬InStorage memoryMap.base (bitmapBytes total) k) := by
  have hmem := List.mem_of_find?_eq_some hhold
  obtain ⟨hu, hlen⟩ : memoryMap.isUsable = true ∧ bitmapBytes total ≤ memoryMap.length := by
    simpa using List.find?_some hhold
  obtain ⟨bm₁, h₁, hm₁, hb₁, hy₁, hg₁⟩ := markEntries_spec true
    (freshBitmap_memStart total memory) hv.physical hv.aligned
    (by rw [freshBitmap_sizeInBlocks]; exact hfit)
  rw [freshBitmap_sizeInBlocks] at hb₁
  rw [freshBitmap_sizeInBytes] at hy₁
  obtain ⟨bm₂, h₂, hm₂, hb₂, hy₂, hg₂⟩ := markEntries_spec false hm₁ hv.physical
    hv.aligned (by rw [hb₁]; exact hfit)
  have hbytes : bm₂.sizeInBytes = bitmapBytes total := hy₂.trans hy₁
  have hblocks : bm₂.sizeInBlocks = bitmapBlocks total := hb₂.trans hb₁
  obtain ⟨bm₃, h₃, hm₃⟩ := markRegion_spec hm₂
    (show memoryMap.base + bitmapBytes total ≤ 2 ^ 52 by have := hv.physical memoryMap hmem; omega) true (by simp)
    (fun h0 => by rw [hblocks]; exact storage_fits hfit hmem hlen h0)
  refine ⟨bm₃, ?_, hm₃.blocks.trans hblocks, fun k => ?_⟩
  · unfold physicalMemoryManagerInitialize
    rw [hhold]
    dsimp only
    rw [h₁, Exec.ok_bind, h₂, Exec.ok_bind, hbytes, h₃]
  · have hstorage := hv.covers_storage (n := bitmapBytes total) hmem hu k
    by_cases hstore : InStorage memoryMap.base (bitmapBytes total) k
    · obtain ⟨hlo, hhi⟩ := hstorage.mpr hstore
      simp [hstore, hm₃.get_inside hlo hhi]
    · rw [hm₃.get, if_neg (fun h => hstore (hstorage.mp h))]
      simp only [hstore, not_false_eq_true, and_true]
      by_cases hin : InUsable entries k
      · have hcov := (hv.inUsable_iff k).mp hin
        rw [(hg₂ k).2 (hv.not_covered_twice hin), (hg₁ k).1 hcov]
        obtain ⟨e, he, -, hlo, hhi⟩ := hcov
        have htop : e.topBlock ≤ bitmapBlocks total := hfit e he fun h0 => by
          rw [MemmapEntry.topBlock_of_zero h0] at hhi; omega
        simp only [Bool.not_true, and_true, hin, iff_true]
        exact hhi.trans_le htop
      · -- outside the usable entries the bit is still the one `memset` wrote
        simp only [hin, iff_false, not_and, Bool.not_eq_false]
        intro hk
        by_cases hother : ∃ e ∈ entries, e.isUsable = false ∧ e.Covers k
        · exact (hg₂ k).1 hother
        · push Not at hother
          have hno : ∀ e ∈ entries, e.isUsable = true → ¬e.Covers k := fun e he heu hc =>
            hin ((hv.inUsable_iff k).mpr ⟨e, he, heu, hc⟩)
          rw [(hg₂ k).2 hother, (hg₁ k).2 hno, freshBitmap_get memory hk]

theorem ValidMap.setUp_correct_of_fits {total : ℕ} {memory : ℕ → BitVec 8}
    (hfit : EntriesFit entries (bitmapBlocks total)) : SetUpCorrect total entries memory := by
  intro memoryMap hhold
  refine ⟨?_, hv.initialize_free_iff hfit hhold⟩
  have hmem := List.mem_of_find?_eq_some hhold
  obtain ⟨hu, hlen⟩ : memoryMap.isUsable = true ∧ bitmapBytes total ≤ memoryMap.length := by
    simpa using List.find?_some hhold
  have hstart := freshBitmap_memStart total memory
  intro call hcall k htouch
  rcases mem_markCalls.mp hcall with ⟨e, he, rfl⟩ | rfl
  · obtain ⟨hlo, hhi⟩ := (hv.touches_iff hstart he k).mp htouch
    have htop := hfit e he fun h0 => by rw [MemmapEntry.topBlock_of_zero h0] at hhi; omega
    exact hhi.trans_le htop
  · have haddr := hv.physical memoryMap hmem
    have hle := wrap_le (memoryMap.base / blockSize + (bitmapBytes total + blockSize - 1) / blockSize)
    simp only [Touches, regionBlocks_used hstart
      (show memoryMap.base + bitmapBytes total ≤ 2 ^ 52 by omega)] at htouch
    have hend := storage_fits hfit hmem hlen (by
      intro h0
      simp only [h0, blockSize] at htouch hle
      omega)
    omega

/-- A correct set-up marks the last block of every nonempty entry inside the bitmap. -/
theorem ValidMap.fits_of_setUp_correct {total : ℕ} {memory : ℕ → BitVec 8} {memoryMap : MemmapEntry}
    (hhold : holder entries (bitmapBytes total) = some memoryMap) (hc : SetUpCorrect total entries memory) :
    EntriesFit entries (bitmapBlocks total) := by
  intro e he hlen
  have hpos : e.base / blockSize + 1 ≤ e.topBlock := by
    unfold MemmapEntry.topBlock blockSize; omega
  have hlast := (hc memoryMap hhold).1 (e.base, e.length, !e.isUsable)
    (mem_markCalls.mpr (.inl ⟨e, he, rfl⟩)) (e.topBlock - 1)
  rw [hv.touches_iff (freshBitmap_memStart total memory) he] at hlast
  have := hlast ⟨Nat.le_sub_of_add_le hpos, Nat.sub_lt (Nat.lt_of_lt_of_le (Nat.succ_pos _) hpos) one_pos⟩
  omega

end Correct

/-- The set-up of a memory map is correct exactly when no usable entry can hold
the bitmap, where it halts, or every nonempty entry, rounded to whole blocks, ends
at or below the summed length of the usable and reclaimable entries. -/
theorem boot_correct_iff_entries_fit (entries : List MemmapEntry) (memory : ℕ → BitVec 8)
    (hv : ValidMap entries) :
    BootCorrect entries memory ↔
      holder entries (bitmapBytes (initialiseBootloaderParser entries).mmTotal) = none ∨
      EntriesFit entries (bitmapBlocks (initialiseBootloaderParser entries).mmTotal) := by
  unfold BootCorrect
  generalize (initialiseBootloaderParser entries).mmTotal = total
  constructor
  · intro hc
    cases hhold : holder entries (bitmapBytes total) with
    | none => exact .inl rfl
    | some memoryMap => exact .inr (hv.fits_of_setUp_correct hhold hc)
  · rintro (hnone | hfit)
    · intro memoryMap hhold
      rw [hnone] at hhold
      cases hhold
    · exact hv.setUp_correct_of_fits hfit

/-- A map without holes whose only other entry is reclaimable. -/
def denseMap : List MemmapEntry := [⟨0, 0x1000, .bootloaderReclaimable⟩, ⟨0x1000, 0xf000, .usable⟩]

theorem denseMap_valid : ValidMap denseMap := by
  refine ⟨by decide, by decide, ?_, by decide⟩
  simp only [denseMap, List.pairwise_cons, List.mem_singleton, MemmapEntry.Contains]
  refine ⟨?_, by simp⟩
  rintro f rfl - a ⟨-, h1⟩ ⟨h2, -⟩
  simp only at h1 h2
  omega

theorem denseMap_boot_correct : BootCorrect denseMap (fun _ => 0) :=
  (boot_correct_iff_entries_fit denseMap _ denseMap_valid).mpr (.inr (by
    unfold EntriesFit
    decide +kernel))

/-- The usual map of a small machine: a hole of 97 pages below one mebibyte. -/
def holedMap : List MemmapEntry := [⟨0x1000, 0x9e000, .usable⟩, ⟨0x100000, 0x7ee0000, .usable⟩]

theorem holedMap_valid : ValidMap holedMap := by
  refine ⟨by decide, by decide, ?_, by decide⟩
  simp only [holedMap, List.pairwise_cons, List.mem_singleton, MemmapEntry.Contains]
  refine ⟨?_, by simp⟩
  rintro f rfl - a ⟨-, h1⟩ ⟨h2, -⟩
  simp only at h1 h2
  omega

/-- With a hole below the last usable entry the set-up writes bits past the end
of the bitmap. -/
theorem holedMap_not_boot_correct : ValidMap holedMap ∧ ¬BootCorrect holedMap (fun _ => 0) := by
  refine ⟨holedMap_valid, fun hc => ?_⟩
  have hhold : holder holedMap (bitmapBytes (initialiseBootloaderParser holedMap).mmTotal) =
      some ⟨0x1000, 0x9e000, .usable⟩ := by decide +kernel
  have htouch := (hc _ hhold).1 (0x100000, 0x7ee0000, false) (by decide +kernel) 0x7fdf
    (by unfold Touches; decide +kernel)
  exact absurd htouch (by decide +kernel)

end DualFuse.Memory
