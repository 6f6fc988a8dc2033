import DualFuse.Library.BitArray
import DualFuse.Library.Execution
import DualFuse.Library.FirstRun

/-! The block allocator of ext2 (`filesystems/ext2/ext2_util.c`). Each group has a bitmap
block on disk with a bit for each of its blocks, a counter of its free blocks in the
group descriptors, and the superblock counts the free blocks of all groups. The disk is
seen as blocks of bytes; the copies of the descriptors and of the superblock that are
pushed to it are left out, and so are the locks. -/

namespace DualFuse.Filesystems

open Library

/-- The bytes of a block. -/
abbrev Block := ℕ → BitVec 8

/-- `Ext2BlockGroup`; `freeBlocks` has 16 bits. -/
structure Ext2BlockGroup where
  blockBitmap : ℕ
  freeBlocks : ℕ
  deriving DecidableEq, Repr

/-- `Ext2Superblock`; the fields have 32 bits, and `superblockIdx` is the first data
block: 1 for blocks of 1024 bytes, else 0. -/
structure Ext2Superblock where
  totalBlocks : ℕ
  freeBlocks : ℕ
  superblockIdx : ℕ
  blocksPerGroup : ℕ
  deriving DecidableEq, Repr

structure Ext2 where
  blockSize : ℕ
  blockGroups : ℕ
  superblock : Ext2Superblock
  bgdts : ℕ → Ext2BlockGroup
  disk : ℕ → Block

namespace Ext2

/-- The bitmap of a group on disk. -/
def bitmap (e : Ext2) (group : ℕ) : Block := e.disk (e.bgdts group).blockBitmap

/-- The bits `start .. start + n` are set, one after the other. -/
def markUsed (buff : Block) (start : ℕ) : ℕ → Block
  | 0 => buff
  | n + 1 => BitArray.set (markUsed buff start n) (start + n) true

def writeBitmap (e : Ext2) (group : ℕ) (buff : Block) : Ext2 :=
  { e with disk := Function.update e.disk (e.bgdts group).blockBitmap buff }

/-- The counters of the group and of the superblock. -/
def setFree (e : Ext2) (group groupFree superFree : ℕ) : Ext2 :=
  { e with
    bgdts := Function.update e.bgdts group { e.bgdts group with freeBlocks := groupFree }
    superblock := { e.superblock with freeBlocks := superFree } }

/-- The first `amnt` free bits in a row, unless they are the first of all: a result of
zero means that there is none. -/
def ext2BlockFindL (e : Ext2) (group amnt : ℕ) : Ext2 × ℕ :=
  if (e.bgdts group).freeBlocks < amnt then (e, 0)
  else
    match FirstRun.scan (fun i => !BitArray.get (e.bitmap group) i) amnt (8 * e.blockSize) 0 0 0 with
    | none | some 0 => (e, 0)
    | some (foundBlk + 1) =>
      let found := foundBlk + 1
      let e' := e.writeBitmap group (markUsed (e.bitmap group) found amnt)
      (e'.setFree group (((e.bgdts group).freeBlocks + 2 ^ 16 - amnt) % 2 ^ 16)
        ((e.superblock.freeBlocks + 2 ^ 32 - amnt) % 2 ^ 32),
        (group * e.superblock.blocksPerGroup + found) % 2 ^ 32)

/-- The loop over the groups from `i`, `n` of them to go. -/
def findInOthers (e : Ext2) (groupSuggestion amnt : ℕ) : (n i : ℕ) → Exec (Ext2 × ℕ)
  | 0, _ => .error .halt
  | n + 1, i =>
    if i = groupSuggestion then e.findInOthers groupSuggestion amnt n (i + 1)
    else if (e.ext2BlockFindL i amnt).2 ≠ 0 then .ok (e.ext2BlockFindL i amnt)
    else e.findInOthers groupSuggestion amnt n (i + 1)

/-- A suggestion that is no group is read behind the end of the descriptors. -/
def ext2BlockFind (e : Ext2) (groupSuggestion amnt : ℕ) : Exec (Ext2 × ℕ) :=
  if e.superblock.freeBlocks < amnt then .error .halt
  else if e.blockGroups ≤ groupSuggestion then .error .fault
  else if (e.ext2BlockFindL groupSuggestion amnt).2 ≠ 0 then .ok (e.ext2BlockFindL groupSuggestion amnt)
  else e.findInOthers groupSuggestion amnt e.blockGroups 0

def ext2BlockDelete (e : Ext2) (group index : ℕ) : Ext2 :=
  let e' := e.writeBitmap group (BitArray.set (e.bitmap group) index false)
  e'.setFree group (((e.bgdts group).freeBlocks + 1) % 2 ^ 16) ((e.superblock.freeBlocks + 1) % 2 ^ 32)

/-- The deletion of a block, as `ext2Delete` finds its group and its bit. -/
def deleteBlock (e : Ext2) (block : ℕ) : Ext2 :=
  e.ext2BlockDelete (block / e.superblock.blocksPerGroup) (block % e.superblock.blocksPerGroup)

/-! ### The meaning of the bitmaps -/

/-- The block that a bit of a group stands for. -/
def blockOf (e : Ext2) (group i : ℕ) : ℕ := e.superblock.superblockIdx + group * e.superblock.blocksPerGroup + i

/-- The bit of a block is set. -/
def blockUsed (e : Ext2) (block : ℕ) : Bool :=
  BitArray.get (e.bitmap ((block - e.superblock.superblockIdx) / e.superblock.blocksPerGroup))
    ((block - e.superblock.superblockIdx) % e.superblock.blocksPerGroup)

/-- The zero bits of the bitmap of a group. -/
def zeroBits (e : Ext2) (group : ℕ) : Finset ℕ :=
  (Finset.range (8 * e.blockSize)).filter fun i => BitArray.get (e.bitmap group) i = false

/-- The counters count the zero bits. -/
structure Accounted (e : Ext2) : Prop where
  groups : ∀ g < e.blockGroups, (e.bgdts g).freeBlocks = (e.zeroBits g).card
  total : e.superblock.freeBlocks = ∑ g ∈ Finset.range e.blockGroups, (e.bgdts g).freeBlocks

/-- The geometry of an image: each group has a bitmap block of its own, a bit for each
of its blocks, and the bits that stand for no block are set. -/
structure Image (e : Ext2) : Prop where
  covered : 0 < e.superblock.blocksPerGroup
  addressed : e.superblock.totalBlocks < 2 ^ 32
  bitmaps : ∀ g < e.blockGroups, ∀ g' < e.blockGroups, (e.bgdts g).blockBitmap = (e.bgdts g').blockBitmap → g = g'
  padding : ∀ g < e.blockGroups, ∀ i < 8 * e.blockSize,
    e.superblock.blocksPerGroup ≤ i ∨ e.superblock.totalBlocks ≤ e.blockOf g i → BitArray.get (e.bitmap g) i = true

/-- A consistent image, with counters that fit their fields. -/
structure Consistent (e : Ext2) : Prop extends e.Image, e.Accounted where
  groupField : ∀ g < e.blockGroups, (e.bgdts g).freeBlocks < 2 ^ 16
  superField : e.superblock.freeBlocks < 2 ^ 32

/-! ### One bitmap changes -/

theorem get_markUsed (buff : Block) (start n j : ℕ) :
    BitArray.get (markUsed buff start n) j = if start ≤ j ∧ j < start + n then true else BitArray.get buff j := by
  induction n with
  | zero => rw [markUsed, if_neg (by omega)]
  | succ n ih =>
    rw [markUsed, BitArray.get_set, ih]
    split_ifs <;> first | rfl | omega

/-- A new bitmap for a group, and new counters. -/
def change (e : Ext2) (group : ℕ) (buff : Block) (groupFree superFree : ℕ) : Ext2 :=
  (e.writeBitmap group buff).setFree group groupFree superFree

section Change
variable {e : Ext2} {g g' a b : ℕ} {buff : Block}

theorem bgdts_change :
    (e.change g buff a b).bgdts = Function.update e.bgdts g { e.bgdts g with freeBlocks := a } := rfl

@[simp] theorem blocksPerGroup_change :
    (e.change g buff a b).superblock.blocksPerGroup = e.superblock.blocksPerGroup := rfl

theorem blockBitmap_change (g' : ℕ) : ((e.change g buff a b).bgdts g').blockBitmap = (e.bgdts g').blockBitmap := by
  rw [bgdts_change]
  by_cases h : g' = g
  · rw [h, Function.update_self]
  · rw [Function.update_of_ne h]

theorem freeBlocks_change (g' : ℕ) :
    ((e.change g buff a b).bgdts g').freeBlocks = Function.update (fun g' => (e.bgdts g').freeBlocks) g a g' := by
  rw [bgdts_change]
  by_cases h : g' = g
  · rw [h, Function.update_self, Function.update_self]
  · rw [Function.update_of_ne h, Function.update_of_ne h]

theorem bitmap_change_self : (e.change g buff a b).bitmap g = buff := by
  rw [bitmap, blockBitmap_change]
  exact Function.update_self _ _ _

theorem Image.bitmap_change_of_ne (h : e.Image) (hg : g < e.blockGroups) (hg' : g' < e.blockGroups) (hne : g' ≠ g) :
    (e.change g buff a b).bitmap g' = e.bitmap g' := by
  rw [bitmap, blockBitmap_change]
  exact Function.update_of_ne (fun heq => hne (h.bitmaps g' hg' g hg heq)) _ _

theorem Image.change (h : e.Image) (hg : g < e.blockGroups)
    (hbuff : ∀ i < 8 * e.blockSize, e.superblock.blocksPerGroup ≤ i ∨ e.superblock.totalBlocks ≤ e.blockOf g i →
      BitArray.get buff i = true) : (e.change g buff a b).Image where
  covered := h.covered
  addressed := h.addressed
  bitmaps := by
    intro g₁ h₁ g₂ h₂ heq
    rw [blockBitmap_change, blockBitmap_change] at heq
    exact h.bitmaps g₁ h₁ g₂ h₂ heq
  padding := by
    intro g' hg' i hi hpad
    by_cases hne : g' = g
    · rw [hne, bitmap_change_self]
      exact hbuff i hi (by rw [← hne]; exact hpad)
    · rw [h.bitmap_change_of_ne hg hg' hne]
      exact h.padding g' hg' i hi hpad

theorem sum_update {f : ℕ → ℕ} {n : ℕ} (hg : g < n) :
    (∑ i ∈ Finset.range n, Function.update f g a i) + f g = (∑ i ∈ Finset.range n, f i) + a := by
  have hmem := Finset.mem_range.mpr hg
  rw [Finset.sum_update_of_mem hmem, ← Finset.add_sum_erase _ f hmem, Finset.sdiff_singleton_eq_erase]
  omega

theorem Accounted.change (h : e.Accounted) (himage : e.Image) (hg : g < e.blockGroups)
    (ha : a = ((Finset.range (8 * e.blockSize)).filter fun i => BitArray.get buff i = false).card)
    (hb : b + (e.bgdts g).freeBlocks = e.superblock.freeBlocks + a) : (e.change g buff a b).Accounted where
  groups := by
    intro g' hg'
    rw [freeBlocks_change, zeroBits]
    by_cases hne : g' = g
    · rw [hne, Function.update_self, bitmap_change_self]
      exact ha
    · rw [Function.update_of_ne hne, himage.bitmap_change_of_ne hg hg' hne]
      exact h.groups g' hg'
  total := by
    have hsum := sum_update (a := a) (f := fun g' => (e.bgdts g').freeBlocks) hg
    rw [← h.total] at hsum
    change b = ∑ g' ∈ Finset.range e.blockGroups, ((e.change g buff a b).bgdts g').freeBlocks
    simp only [freeBlocks_change]
    omega

end Change

/-! ### One call -/

section Calls
variable {e : Ext2} {g amnt : ℕ}

/-- A free bit stands for a block of the file system. -/
theorem Image.of_free (h : e.Image) (hg : g < e.blockGroups) {i : ℕ} (hi : i < 8 * e.blockSize)
    (hfree : BitArray.get (e.bitmap g) i = false) :
    i < e.superblock.blocksPerGroup ∧ e.blockOf g i < e.superblock.totalBlocks := by
  by_contra hpad
  rw [h.padding g hg i hi (by omega)] at hfree
  cases hfree

/-- What a search in one group that succeeds has done. -/
structure FoundIn (e : Ext2) (g amnt i : ℕ) (r : Ext2 × ℕ) : Prop where
  result : r = (e.change g (markUsed (e.bitmap g) i amnt) ((e.bgdts g).freeBlocks - amnt)
    ((e.superblock.freeBlocks + 2 ^ 32 - amnt) % 2 ^ 32), g * e.superblock.blocksPerGroup + i)
  enough : amnt ≤ (e.bgdts g).freeBlocks
  bit : i < 8 * e.blockSize ∧ BitArray.get (e.bitmap g) i = false
  run : i + amnt ≤ 8 * e.blockSize ∧ ∀ k < amnt, BitArray.get (e.bitmap g) (i + k) = false

theorem ext2BlockFindL_spec (h : e.Image) (hg : g < e.blockGroups) (hfield : (e.bgdts g).freeBlocks < 2 ^ 16)
    (hr : (e.ext2BlockFindL g amnt).2 ≠ 0) : ∃ i, FoundIn e g amnt i (e.ext2BlockFindL g amnt) := by
  rw [ext2BlockFindL] at hr ⊢
  by_cases henough : (e.bgdts g).freeBlocks < amnt
  · rw [if_pos henough] at hr
    exact absurd rfl hr
  · rw [if_neg henough] at hr ⊢
    cases hscan : FirstRun.scan (fun i => !BitArray.get (e.bitmap g) i) amnt (8 * e.blockSize) 0 0 0 with
    | none =>
      rw [hscan] at hr
      exact absurd rfl hr
    | some s =>
      rw [hscan] at hr
      obtain ⟨hend, hfree⟩ := FirstRun.scan_isRun (N := 8 * e.blockSize) (by omega) rfl
        (fun k hk => absurd hk (Nat.not_lt_zero k)) hscan
      have hfree : ∀ k < max amnt 1, BitArray.get (e.bitmap g) (s + k) = false := by
        intro k hk
        have := hfree k hk
        simpa using this
      cases s with
      | zero => exact absurd rfl hr
      | succ s =>
        have hbit := hfree 0 (by omega)
        have hlt : s + 1 < 8 * e.blockSize := by omega
        have hblock := (h.of_free hg hlt hbit).2
        have haddressed := h.addressed
        rw [blockOf] at hblock
        refine ⟨s + 1, ?_, by omega, ⟨hlt, hbit⟩, by omega, fun k hk => hfree k (by omega)⟩
        have hgroup : ((e.bgdts g).freeBlocks + 2 ^ 16 - amnt) % 2 ^ 16 = (e.bgdts g).freeBlocks - amnt := by omega
        have hnumber : (g * e.superblock.blocksPerGroup + (s + 1)) % 2 ^ 32 =
            g * e.superblock.blocksPerGroup + (s + 1) := by omega
        dsimp only
        rw [hgroup, hnumber]
        rfl

/-- The search in the other groups ends in one of them or halts. -/
theorem findInOthers_meets (e : Ext2) (hint amnt n i : ℕ) :
    Exec.Meets (· = .halt) (fun r => ∃ g < i + n, r = e.ext2BlockFindL g amnt ∧ r.2 ≠ 0)
      (e.findInOthers hint amnt n i) := by
  induction n generalizing i with
  | zero => exact rfl
  | succ n ih =>
    have hnext := ih (i + 1)
    rw [show i + 1 + n = i + (n + 1) by omega] at hnext
    rw [findInOthers]
    split_ifs with hi hr
    · exact hnext
    · exact ⟨i, by omega, rfl, hr⟩
    · exact hnext

theorem ext2BlockFind_meets {hint : ℕ} (hhint : hint < e.blockGroups) :
    Exec.Meets (· = .halt) (fun r => ∃ g < e.blockGroups, r = e.ext2BlockFindL g amnt ∧ r.2 ≠ 0 ∧
      amnt ≤ e.superblock.freeBlocks) (e.ext2BlockFind hint amnt) := by
  rw [ext2BlockFind]
  split_ifs with hfull hfault hr
  · exact rfl
  · omega
  · exact ⟨hint, hhint, rfl, hr, by omega⟩
  · refine (findInOthers_meets e hint amnt e.blockGroups 0).mono ?_
    rintro r ⟨g, hg, rfl, hr⟩
    exact ⟨g, by omega, rfl, hr, by omega⟩

/-- Marking a run of zero bits takes them out of the zero bits. -/
theorem zeroBits_markUsed {i : ℕ} (hend : i + amnt ≤ 8 * e.blockSize)
    (hfree : ∀ k < amnt, BitArray.get (e.bitmap g) (i + k) = false) :
    ((Finset.range (8 * e.blockSize)).filter fun j =>
      BitArray.get (markUsed (e.bitmap g) i amnt) j = false).card = (e.zeroBits g).card - amnt := by
  have hsub : Finset.Ico i (i + amnt) ⊆ e.zeroBits g := by
    intro j hj
    rw [Finset.mem_Ico] at hj
    have hzero := hfree (j - i) (by omega)
    rw [show i + (j - i) = j by omega] at hzero
    exact Finset.mem_filter.mpr ⟨Finset.mem_range.mpr (by omega), hzero⟩
  have hdiff : ((Finset.range (8 * e.blockSize)).filter fun j =>
      BitArray.get (markUsed (e.bitmap g) i amnt) j = false) = e.zeroBits g \ Finset.Ico i (i + amnt) := by
    ext j
    simp only [zeroBits, Finset.mem_sdiff, Finset.mem_filter, Finset.mem_Ico, get_markUsed]
    split_ifs with hj
    · simp [hj]
    · tauto
  rw [hdiff, Finset.card_sdiff_of_subset hsub, Nat.card_Ico]
  omega

/-- Clearing a bit puts it to the zero bits. -/
theorem zeroBits_clear {i : ℕ} (hi : i < 8 * e.blockSize) (hused : BitArray.get (e.bitmap g) i = true) :
    ((Finset.range (8 * e.blockSize)).filter fun j =>
      BitArray.get (BitArray.set (e.bitmap g) i false) j = false).card = (e.zeroBits g).card + 1 := by
  have hnot : i ∉ e.zeroBits g := by simp [zeroBits, hused]
  have hinsert : ((Finset.range (8 * e.blockSize)).filter fun j =>
      BitArray.get (BitArray.set (e.bitmap g) i false) j = false) = insert i (e.zeroBits g) := by
    ext j
    simp only [zeroBits, Finset.mem_insert, Finset.mem_filter, Finset.mem_range, BitArray.get_set]
    split_ifs with hj
    · simp [hj, hi]
    · simp [hj]
  rw [hinsert, Finset.card_insert_of_notMem hnot]

end Calls

end Ext2

/-! ### Runs -/

/-- The allocator and the blocks that were returned and not deleted since. -/
structure BlockUse where
  ext2 : Ext2
  outstanding : List ℕ

inductive BlockEvent where
  | find (groupSuggestion amnt : ℕ)
  | delete (block : ℕ)
  deriving DecidableEq, Repr

/-- The blocks `b .. b + amnt`. -/
def blockRun (b amnt : ℕ) : List ℕ := (List.range amnt).map (b + ·)

namespace BlockUse

open Ext2

def step (s : BlockUse) : BlockEvent → Exec BlockUse
  | .find groupSuggestion amnt => do
    let (e, b) ← s.ext2.ext2BlockFind groupSuggestion amnt
    .ok ⟨e, blockRun b amnt ++ s.outstanding⟩
  | .delete block => .ok ⟨s.ext2.deleteBlock block, s.outstanding.erase block⟩

/-- A suggestion is a group, and only what was allocated is deleted. -/
def Legal (s : BlockUse) : BlockEvent → Prop
  | .find groupSuggestion _ => groupSuggestion < s.ext2.blockGroups
  | .delete block => block ∈ s.outstanding

instance Legal.decidable (s : BlockUse) : (event : BlockEvent) → Decidable (s.Legal event)
  | .find groupSuggestion _ => inferInstanceAs (Decidable (groupSuggestion < s.ext2.blockGroups))
  | .delete block => inferInstanceAs (Decidable (block ∈ s.outstanding))

/-- The blocks of a run were free, are in the file system and not outstanding, and are
used after it. -/
def GoodRun (s : BlockUse) (e : Ext2) (b amnt : ℕ) : Prop :=
  ∀ block ∈ blockRun b amnt, s.ext2.blockUsed block = false ∧ s.ext2.superblock.superblockIdx ≤ block ∧
    block < s.ext2.superblock.totalBlocks ∧ block ∉ s.outstanding ∧ e.blockUsed block = true

/-- Beside the accounting: each outstanding block is used, and the counters still fit
their fields when it is deleted. -/
structure Kept (s : BlockUse) : Prop extends s.ext2.Image, s.ext2.Accounted where
  first : s.ext2.superblock.superblockIdx = 0
  nodup : s.outstanding.Nodup
  used : ∀ b ∈ s.outstanding, b < s.ext2.superblock.totalBlocks ∧
    b / s.ext2.superblock.blocksPerGroup < s.ext2.blockGroups ∧
    b % s.ext2.superblock.blocksPerGroup < 8 * s.ext2.blockSize ∧ s.ext2.blockUsed b = true
  groupRoom : ∀ g < s.ext2.blockGroups, (s.ext2.bgdts g).freeBlocks +
    s.outstanding.countP (fun b => b / s.ext2.superblock.blocksPerGroup == g) < 2 ^ 16
  superRoom : s.ext2.superblock.freeBlocks + s.outstanding.length < 2 ^ 32

theorem kept_start {e : Ext2} (h : e.Consistent) (hfirst : e.superblock.superblockIdx = 0) :
    (⟨e, []⟩ : BlockUse).Kept where
  toImage := h.toImage
  toAccounted := h.toAccounted
  first := hfirst
  nodup := List.nodup_nil
  used := fun _ hb => absurd hb List.not_mem_nil
  groupRoom := h.groupField
  superRoom := h.superField

theorem Kept.blockUsed_eq {s : BlockUse} (h : s.Kept) (b : ℕ) : s.ext2.blockUsed b =
    BitArray.get (s.ext2.bitmap (b / s.ext2.superblock.blocksPerGroup)) (b % s.ext2.superblock.blocksPerGroup) := by
  rw [blockUsed, h.first, Nat.sub_zero]

theorem mem_blockRun {b amnt block : ℕ} : block ∈ blockRun b amnt ↔ ∃ k < amnt, block = b + k := by
  simp only [blockRun, List.mem_map, List.mem_range]
  exact ⟨fun ⟨k, hk, heq⟩ => ⟨k, hk, heq.symm⟩, fun ⟨k, hk, heq⟩ => ⟨k, hk, heq.symm⟩⟩

theorem nodup_blockRun (b amnt : ℕ) : (blockRun b amnt).Nodup :=
  List.nodup_range.map fun _ _ h => Nat.add_left_cancel h

/-- The group and the bit of a block number. -/
theorem div_mod_block {g i n : ℕ} (hi : i < n) : (g * n + i) / n = g ∧ (g * n + i) % n = i := by
  constructor
  · rw [Nat.mul_comm, Nat.mul_add_div (by omega), Nat.div_eq_of_lt hi, Nat.add_zero]
  · rw [Nat.mul_comm, Nat.mul_add_mod, Nat.mod_eq_of_lt hi]

/-- The bit of a block after one bitmap changed. -/
theorem Kept.blockUsed_change {s : BlockUse} (h : s.Kept) {g a b block : ℕ} {buff : Block} (hg : g < s.ext2.blockGroups)
    (hblock : block / s.ext2.superblock.blocksPerGroup < s.ext2.blockGroups) :
    (s.ext2.change g buff a b).blockUsed block =
      if block / s.ext2.superblock.blocksPerGroup = g then BitArray.get buff (block % s.ext2.superblock.blocksPerGroup)
      else s.ext2.blockUsed block := by
  have hused : (s.ext2.change g buff a b).blockUsed block = BitArray.get ((s.ext2.change g buff a b).bitmap
      ((block - s.ext2.superblock.superblockIdx) / s.ext2.superblock.blocksPerGroup))
      ((block - s.ext2.superblock.superblockIdx) % s.ext2.superblock.blocksPerGroup) := rfl
  rw [hused, h.first, Nat.sub_zero]
  split_ifs with heq
  · rw [heq, bitmap_change_self]
  · rw [h.toImage.bitmap_change_of_ne hg hblock heq, h.blockUsed_eq]

theorem countP_blockRun {b amnt n g g' : ℕ} (hplace : ∀ k < amnt, (b + k) / n = g) :
    (blockRun b amnt).countP (fun block => block / n == g') = if g' = g then amnt else 0 := by
  have hgroup : ∀ block ∈ blockRun b amnt, block / n = g := by
    intro block hblock
    obtain ⟨k, hk, rfl⟩ := mem_blockRun.mp hblock
    exact hplace k hk
  split_ifs with heq
  · rw [List.countP_eq_length.mpr fun block hblock => ?_, blockRun, List.length_map, List.length_range]
    rw [heq, hgroup block hblock]
    exact beq_self_eq_true g
  · rw [List.countP_eq_zero]
    intro block hblock
    rw [hgroup block hblock, beq_iff_eq]
    exact fun hgg => heq hgg.symm

theorem Kept.found {s : BlockUse} (h : s.Kept) {g amnt i : ℕ} {r : Ext2 × ℕ} (hg : g < s.ext2.blockGroups)
    (hfound : FoundIn s.ext2 g amnt i r) (hsuper : amnt ≤ s.ext2.superblock.freeBlocks) :
    (⟨r.1, blockRun r.2 amnt ++ s.outstanding⟩ : BlockUse).Kept ∧ s.GoodRun r.1 r.2 amnt := by
  obtain ⟨rfl, henough, hbit, hend, hfree⟩ := hfound
  dsimp only
  have hroom := h.superRoom
  have hsub : (s.ext2.superblock.freeBlocks + 2 ^ 32 - amnt) % 2 ^ 32 = s.ext2.superblock.freeBlocks - amnt := by
    omega
  rw [hsub]
  -- the place of each block of the run
  have hplace : ∀ k < amnt, (g * s.ext2.superblock.blocksPerGroup + i + k) / s.ext2.superblock.blocksPerGroup = g ∧
      (g * s.ext2.superblock.blocksPerGroup + i + k) % s.ext2.superblock.blocksPerGroup = i + k ∧
      g * s.ext2.superblock.blocksPerGroup + i + k < s.ext2.superblock.totalBlocks := by
    intro k hk
    obtain ⟨hlt, hblock⟩ := h.toImage.of_free hg (by omega) (hfree k hk)
    rw [blockOf, h.first] at hblock
    obtain ⟨hdiv, hmod⟩ := div_mod_block (g := g) hlt
    rw [Nat.add_assoc]
    exact ⟨hdiv, hmod, by omega⟩
  generalize hb : g * s.ext2.superblock.blocksPerGroup + i = b at hplace ⊢
  have hwas : ∀ block ∈ blockRun b amnt, s.ext2.blockUsed block = false := by
    intro block hblock
    obtain ⟨k, hk, rfl⟩ := mem_blockRun.mp hblock
    rw [h.blockUsed_eq, (hplace k hk).1, (hplace k hk).2.1]
    exact hfree k hk
  have hnew : ∀ block ∈ blockRun b amnt, block ∉ s.outstanding := by
    intro block hblock hmem
    have hused := (h.used block hmem).2.2.2
    rw [hwas block hblock] at hused
    cases hused
  have hnow : ∀ block ∈ blockRun b amnt, (s.ext2.change g (markUsed (s.ext2.bitmap g) i amnt)
      ((s.ext2.bgdts g).freeBlocks - amnt) (s.ext2.superblock.freeBlocks - amnt)).blockUsed block = true := by
    intro block hblock
    obtain ⟨k, hk, rfl⟩ := mem_blockRun.mp hblock
    obtain ⟨hdiv, hmod, -⟩ := hplace k hk
    rw [h.blockUsed_change hg (by rw [hdiv]; exact hg), if_pos hdiv, hmod, get_markUsed, if_pos (by omega)]
  refine ⟨⟨?_, ?_, h.first, ?_, ?_, ?_, ?_⟩, ?_⟩
  · refine h.toImage.change hg fun j hj hpad => ?_
    rw [get_markUsed]
    split_ifs
    · rfl
    · exact h.padding g hg j hj hpad
  · refine h.toAccounted.change h.toImage hg ?_ (by omega)
    rw [zeroBits_markUsed hend hfree, h.groups g hg]
  · exact List.nodup_append.mpr ⟨nodup_blockRun b amnt, h.nodup,
      fun x hx y hy heq => hnew x hx (by rw [heq]; exact hy)⟩
  · intro block hblock
    rcases List.mem_append.mp hblock with hblock | hblock
    · obtain ⟨k, hk, heq⟩ := mem_blockRun.mp hblock
      obtain ⟨hdiv, hmod, htotal⟩ := hplace k hk
      have hlt : i + k < 8 * s.ext2.blockSize := by omega
      rw [← heq] at hdiv hmod htotal
      exact ⟨htotal, hdiv ▸ hg, hmod ▸ hlt, hnow block hblock⟩
    · obtain ⟨htotal, hgroup, hbit, hused⟩ := h.used block hblock
      refine ⟨htotal, hgroup, hbit, ?_⟩
      rw [h.blockUsed_change hg hgroup]
      split_ifs with heq
      · rw [get_markUsed]
        rw [h.blockUsed_eq, heq] at hused
        split_ifs
        · rfl
        · exact hused
      · exact hused
  · intro g' hg'
    have hold := h.groupRoom g' hg'
    simp only [blocksPerGroup_change]
    rw [List.countP_append, countP_blockRun fun k hk => (hplace k hk).1, freeBlocks_change]
    by_cases heq : g' = g
    · rw [if_pos heq, heq, Function.update_self]
      rw [heq] at hold
      omega
    · rw [if_neg heq, Function.update_of_ne heq, Nat.zero_add]
      exact hold
  · change s.ext2.superblock.freeBlocks - amnt + (blockRun b amnt ++ s.outstanding).length < 2 ^ 32
    rw [List.length_append, blockRun, List.length_map, List.length_range]
    omega
  · intro block hblock
    obtain ⟨k, hk, heq⟩ := mem_blockRun.mp hblock
    refine ⟨hwas block hblock, ?_, ?_, hnew block hblock, hnow block hblock⟩
    · rw [h.first]
      exact Nat.zero_le _
    · rw [heq]
      exact (hplace k hk).2.2

theorem Kept.delete {s : BlockUse} (h : s.Kept) {block : ℕ} (hblock : block ∈ s.outstanding) :
    (⟨s.ext2.deleteBlock block, s.outstanding.erase block⟩ : BlockUse).Kept := by
  obtain ⟨htotal, hg, hbit, hused⟩ := h.used block hblock
  have hroom := h.superRoom
  have hgroupRoom := h.groupRoom _ hg
  have hlength := List.length_pos_of_mem hblock
  have hcount : 0 < s.outstanding.countP (fun b => b / s.ext2.superblock.blocksPerGroup ==
      block / s.ext2.superblock.blocksPerGroup) :=
    List.countP_pos_iff.mpr ⟨block, hblock, beq_self_eq_true _⟩
  have hdelete : s.ext2.deleteBlock block = s.ext2.change (block / s.ext2.superblock.blocksPerGroup)
      (BitArray.set (s.ext2.bitmap (block / s.ext2.superblock.blocksPerGroup))
        (block % s.ext2.superblock.blocksPerGroup) false)
      ((s.ext2.bgdts (block / s.ext2.superblock.blocksPerGroup)).freeBlocks + 1)
      (s.ext2.superblock.freeBlocks + 1) := by
    have hgroupField : ((s.ext2.bgdts (block / s.ext2.superblock.blocksPerGroup)).freeBlocks + 1) % 2 ^ 16 =
        (s.ext2.bgdts (block / s.ext2.superblock.blocksPerGroup)).freeBlocks + 1 := by omega
    have hsuperField : (s.ext2.superblock.freeBlocks + 1) % 2 ^ 32 = s.ext2.superblock.freeBlocks + 1 := by omega
    rw [deleteBlock, ext2BlockDelete, hgroupField, hsuperField]
    rfl
  rw [hdelete]
  rw [h.blockUsed_eq] at hused
  refine ⟨?_, ?_, h.first, h.nodup.erase block, ?_, ?_, ?_⟩
  · refine h.toImage.change hg fun j hj hpad => ?_
    rw [BitArray.get_set, if_neg ?_]
    · exact h.padding _ hg j hj hpad
    · rintro rfl
      have hmod := Nat.mod_lt block h.covered
      have hdiv := Nat.div_add_mod' block s.ext2.superblock.blocksPerGroup
      rw [blockOf, h.first] at hpad
      omega
  · refine h.toAccounted.change h.toImage hg ?_ (by omega)
    rw [zeroBits_clear hbit hused, h.groups _ hg]
  · intro b hb
    have hne : b ≠ block := ((List.Nodup.mem_erase_iff h.nodup).mp hb).1
    obtain ⟨htotal', hg', hbit', hused'⟩ := h.used b (List.mem_of_mem_erase hb)
    refine ⟨htotal', hg', hbit', ?_⟩
    rw [h.blockUsed_change hg hg']
    split_ifs with heq
    · rw [BitArray.get_set, if_neg ?_]
      · rw [h.blockUsed_eq, heq] at hused'
        exact hused'
      · intro hmod
        refine hne ?_
        rw [← Nat.div_add_mod' b s.ext2.superblock.blocksPerGroup, heq, hmod, Nat.div_add_mod']
    · exact hused'
  · intro g' hg'
    have hold := h.groupRoom g' hg'
    simp only [blocksPerGroup_change]
    rw [List.countP_erase, freeBlocks_change]
    by_cases heq : g' = block / s.ext2.superblock.blocksPerGroup
    · rw [heq, Function.update_self]
      rw [heq] at hold
      rw [if_pos ⟨hblock, beq_self_eq_true _⟩]
      omega
    · rw [Function.update_of_ne heq]
      exact (Nat.add_le_add_left (Nat.sub_le _ _) _).trans_lt hold
  · change s.ext2.superblock.freeBlocks + 1 + (s.outstanding.erase block).length < 2 ^ 32
    rw [List.length_erase_of_mem hblock]
    omega

/-- A search in a kept state finds a run, or halts because there is none. -/
theorem Kept.find {s : BlockUse} (h : s.Kept) {hint : ℕ} (hhint : hint < s.ext2.blockGroups) (amnt : ℕ) :
    Exec.Meets (· = .halt) (fun r => (⟨r.1, blockRun r.2 amnt ++ s.outstanding⟩ : BlockUse).Kept ∧
      s.GoodRun r.1 r.2 amnt) (s.ext2.ext2BlockFind hint amnt) := by
  refine (ext2BlockFind_meets hhint).mono ?_
  rintro r ⟨g, hg, rfl, hr, hsuper⟩
  have hfield := (Nat.le_add_right _ _).trans_lt (h.groupRoom g hg)
  obtain ⟨i, hfound⟩ := ext2BlockFindL_spec h.toImage hg hfield hr
  exact h.found hg hfound hsuper

theorem Kept.step {s : BlockUse} (h : s.Kept) {event : BlockEvent} (hlegal : s.Legal event) :
    Exec.Meets (· = .halt) Kept (s.step event) := by
  cases event with
  | find hint amnt => exact (h.find hlegal amnt).bind fun r hr => hr.1
  | delete block => exact h.delete hlegal

/-- Where the first data block is block 0, the counters count the zero bits after every
run, and every search returns blocks that were free, in the file system and nobody's,
and marks them used. -/
theorem block_runs_sound {e : Ext2} (h : e.Consistent) (hfirst : e.superblock.superblockIdx = 0)
    (events : List BlockEvent) (hlegal : Guarded step Legal ⟨e, []⟩ events) :
    Exec.Meets (· = .halt) (fun s => s.ext2.Accounted ∧ ∀ hint < s.ext2.blockGroups, ∀ amnt e' b,
      s.ext2.ext2BlockFind hint amnt = .ok (e', b) → s.GoodRun e' b amnt) (run step ⟨e, []⟩ events) := by
  refine (run_meets_of_guarded (fun s event h hl => Kept.step h hl) (kept_start h hfirst) hlegal).mono ?_
  intro s hs
  refine ⟨hs.toAccounted, fun hint hhint amnt e' b hfind => ?_⟩
  have hmeets := hs.find hhint amnt
  rw [hfind] at hmeets
  exact hmeets.2

/-- A bitmap in which the bits 8 to 11 are zero. -/
def sampleBitmap : Block := fun i => if i = 1 then 0xf0 else 0xff

theorem sampleBitmap_get (i : ℕ) : BitArray.get sampleBitmap i = true ↔ ¬(8 ≤ i ∧ i < 12) := by
  by_cases hbyte : i / 8 = 1
  · have hlo : 8 ≤ i := by omega
    have hhi : i < 16 := by omega
    interval_cases i <;> decide
  · have hother : ¬(8 ≤ i ∧ i < 12) := by omega
    simp only [hother, not_false_eq_true, iff_true]
    exact BitArray.get_allOnes _ i (if_neg hbyte)

/-- An image of one group. -/
def sampleImage (blockSize superblockIdx : ℕ) : Ext2 where
  blockSize := blockSize
  blockGroups := 1
  superblock := ⟨64, 4, superblockIdx, 8 * blockSize⟩
  bgdts := fun _ => ⟨3, 4⟩
  disk := fun _ => sampleBitmap

theorem sampleImage_consistent {blockSize superblockIdx : ℕ} (hsize : 2 ≤ blockSize) (hidx : superblockIdx ≤ 1) :
    (sampleImage blockSize superblockIdx).Consistent where
  covered := by
    change 0 < 8 * blockSize
    omega
  addressed := by
    change 64 < 2 ^ 32
    decide
  bitmaps := by
    intro g hg g' hg' _
    have : g < 1 := hg
    have : g' < 1 := hg'
    omega
  padding := by
    intro g hg i hi hpad
    obtain rfl : g = 0 := Nat.lt_one_iff.mp hg
    change BitArray.get sampleBitmap i = true
    rw [sampleBitmap_get]
    change 8 * blockSize ≤ i ∨ 64 ≤ superblockIdx + 0 * (8 * blockSize) + i at hpad
    change i < 8 * blockSize at hi
    omega
  groups := by
    intro g hg
    obtain rfl : g = 0 := Nat.lt_one_iff.mp hg
    have hzero : (sampleImage blockSize superblockIdx).zeroBits 0 = Finset.Ico 8 12 := by
      ext i
      rw [zeroBits, Finset.mem_filter, Finset.mem_range, Finset.mem_Ico, ← Bool.not_eq_true]
      change i < 8 * blockSize ∧ ¬BitArray.get sampleBitmap i = true ↔ _
      rw [sampleBitmap_get]
      omega
    rw [hzero]
    rfl
  total := rfl
  groupField := fun _ _ => show 4 < 2 ^ 16 by decide
  superField := show 4 < 2 ^ 32 by decide

/-- Two runs, of which one block is deleted, on blocks of 4096 bytes. -/
theorem block_runs_sample :
    Exec.Meets (· = .halt) (fun s => s.ext2.Accounted ∧ ∀ hint < s.ext2.blockGroups, ∀ amnt e' b,
      s.ext2.ext2BlockFind hint amnt = .ok (e', b) → s.GoodRun e' b amnt)
      (run step ⟨sampleImage 4096 0, []⟩ [.find 0 2, .find 0 1, .delete 9]) :=
  block_runs_sound (sampleImage_consistent (by decide) (by decide)) rfl _ (by decide +kernel)

/-- On blocks of 1024 bytes the number returned is that of the block before, which is
in use. -/
theorem returned_block_in_use :
    (sampleImage 1024 1).Consistent ∧ ∃ r, (sampleImage 1024 1).ext2BlockFind 0 1 = .ok r ∧
      (sampleImage 1024 1).blockUsed r.2 = true ∧ ¬(⟨sampleImage 1024 1, []⟩ : BlockUse).GoodRun r.1 r.2 1 := by
  refine ⟨sampleImage_consistent (by decide) (by decide), ?_⟩
  have hused : (sampleImage 1024 1).blockUsed 8 = true := by decide +kernel
  have hfind : ∃ r, (sampleImage 1024 1).ext2BlockFind 0 1 = .ok r ∧ r.2 = 8 := by decide +kernel
  obtain ⟨r, hr, hr8⟩ := hfind
  refine ⟨r, hr, by rw [hr8]; exact hused, fun hgood => ?_⟩
  have hwas := (hgood r.2 (by simp [blockRun])).1
  rw [hr8] at hwas
  exact absurd (hwas.symm.trans hused) (by decide)

end BlockUse

end DualFuse.Filesystems
