import DualFuse.Filesystems.Ext2.Write

/-! The size of a file with its indirect blocks (`ext2BlockSizeCalculate` of
`filesystems/ext2/ext2_util.c`), against the indirect blocks that the map of blocks leads
through. A range of the map counts as used up one block too early. -/

namespace DualFuse.Filesystems

open Library Utility

/-- The indirect blocks of a file up to the second level, by their place in the map. -/
inductive IndirectSlot where
  | singly
  | doubly
  | inner (i : ℕ)
  deriving DecidableEq, Repr

namespace Ext2

/-- The indirect blocks that lead to a place of the file. -/
def wayTo (e : Ext2) (place : ℕ) : Finset IndirectSlot :=
  let n := e.itemsPerBlock
  if place < 12 then ∅
  else if place < 12 + n then {.singly}
  else {.doubly, .inner ((place - (12 + n)) / n)}

/-- How many indirect blocks a file of so many blocks needs. -/
def indirectNeeded (e : Ext2) (blocks : ℕ) : ℕ := ((Finset.range blocks).biUnion e.wayTo).card

/-- The blocks that so many bytes fill. -/
def dataBlocks (e : Ext2) (raw : ℕ) : ℕ := (raw + e.blockSize - 1) / e.blockSize

/-- The size of the data and indirect blocks is found, and no smaller file has a larger one. -/
def Accounts (e : Ext2) (raw : ℕ) : Prop :=
  let size := e.blockSize * (e.dataBlocks raw + e.indirectNeeded (e.dataBlocks raw))
  e.ext2BlockSizeCalculate raw = .ok size ∧
    ∀ raw' ≤ raw, ∃ size' ≤ size, e.ext2BlockSizeCalculate raw' = .ok size'

section Sizes
variable {e : Ext2} {blocks raw : ℕ}

theorem indirectNeeded_direct (h : blocks ≤ 12) : e.indirectNeeded blocks = 0 := by
  rw [indirectNeeded, Finset.card_eq_zero, Finset.eq_empty_iff_forall_notMem]
  intro slot hslot
  obtain ⟨place, hplace, hslot⟩ := Finset.mem_biUnion.mp hslot
  have hlt := Finset.mem_range.mp hplace
  rw [wayTo, if_pos (by omega)] at hslot
  exact Finset.notMem_empty slot hslot

theorem indirectNeeded_singly (hlow : 12 < blocks) (hhigh : blocks ≤ 12 + e.itemsPerBlock) :
    e.indirectNeeded blocks = 1 := by
  rw [indirectNeeded, Finset.card_eq_one]
  refine ⟨.singly, Finset.ext fun slot => ?_⟩
  rw [Finset.mem_biUnion, Finset.mem_singleton]
  constructor
  · rintro ⟨place, hplace, hslot⟩
    have hlt := Finset.mem_range.mp hplace
    unfold wayTo at hslot
    dsimp only at hslot
    split_ifs at hslot with hdirect hsingly
    · exact absurd hslot (Finset.notMem_empty slot)
    · exact Finset.mem_singleton.mp hslot
    · omega
  · rintro rfl
    refine ⟨12, Finset.mem_range.mpr hlow, ?_⟩
    unfold wayTo
    dsimp only
    rw [if_neg (by omega), if_pos (by omega)]
    exact Finset.mem_singleton_self _

/-- The slots of a file that reaches into the second level. -/
theorem biUnion_wayTo (hpos : 0 < e.itemsPerBlock) (h : 12 + e.itemsPerBlock < blocks) :
    (Finset.range blocks).biUnion e.wayTo = insert .singly (insert .doubly
      ((Finset.range ((blocks - (12 + e.itemsPerBlock) + e.itemsPerBlock - 1) / e.itemsPerBlock)).image .inner)) := by
  ext slot
  simp only [Finset.mem_biUnion, Finset.mem_range, Finset.mem_insert, Finset.mem_image]
  constructor
  · rintro ⟨place, hplace, hslot⟩
    unfold wayTo at hslot
    dsimp only at hslot
    split_ifs at hslot with hdirect hsingly
    · exact absurd hslot (Finset.notMem_empty slot)
    · exact .inl (Finset.mem_singleton.mp hslot)
    · rw [Finset.mem_insert, Finset.mem_singleton] at hslot
      refine .inr (hslot.imp_right fun heq => ⟨_, ?_, heq.symm⟩)
      rw [Nat.lt_div_iff_mul_lt hpos]
      have := Nat.div_mul_le_self (place - (12 + e.itemsPerBlock)) e.itemsPerBlock
      omega
  · rintro (rfl | rfl | ⟨i, hi, rfl⟩)
    · refine ⟨12, by omega, ?_⟩
      unfold wayTo
      dsimp only
      rw [if_neg (by omega), if_pos (by omega)]
      exact Finset.mem_singleton_self _
    · refine ⟨12 + e.itemsPerBlock, h, ?_⟩
      unfold wayTo
      dsimp only
      rw [if_neg (by omega), if_neg (by omega)]
      exact Finset.mem_insert_self _ _
    · have hmul : i * e.itemsPerBlock < blocks - (12 + e.itemsPerBlock) := by
        rw [Nat.lt_div_iff_mul_lt hpos] at hi
        omega
      refine ⟨12 + e.itemsPerBlock + i * e.itemsPerBlock, by omega, ?_⟩
      unfold wayTo
      dsimp only
      rw [if_neg (by omega), if_neg (by omega), Nat.add_sub_cancel_left, Nat.mul_div_cancel _ hpos]
      exact Finset.mem_insert_of_mem (Finset.mem_singleton_self _)

theorem indirectNeeded_doubly (hpos : 0 < e.itemsPerBlock) (h : 12 + e.itemsPerBlock < blocks) :
    e.indirectNeeded blocks =
      2 + (blocks - (12 + e.itemsPerBlock) + e.itemsPerBlock - 1) / e.itemsPerBlock := by
  rw [indirectNeeded, biUnion_wayTo hpos h, Finset.card_insert_of_notMem, Finset.card_insert_of_notMem,
    Finset.card_image_of_injective, Finset.card_range]
  · omega
  · intro i j heq
    cases heq
    rfl
  · simp
  · simp

/-! ### What is computed -/

/-- The indirect blocks that the computation adds. -/
def indirectAdded (e : Ext2) (blocks : ℕ) : ℕ :=
  let n := e.itemsPerBlock
  if blocks < 12 then 0
  else if blocks < 12 + n then 1
  else 2 + (blocks - (12 + n) + n - 1) / n

theorem indirectAdded_mono {blocks' : ℕ} (h : blocks' ≤ blocks) : e.indirectAdded blocks' ≤ e.indirectAdded blocks := by
  have hdiv : (blocks' - (12 + e.itemsPerBlock) + e.itemsPerBlock - 1) / e.itemsPerBlock ≤
      (blocks - (12 + e.itemsPerBlock) + e.itemsPerBlock - 1) / e.itemsPerBlock := Nat.div_le_div_right (by omega)
  unfold indirectAdded
  dsimp only
  generalize (blocks' - (12 + e.itemsPerBlock) + e.itemsPerBlock - 1) / e.itemsPerBlock = c' at hdiv ⊢
  generalize (blocks - (12 + e.itemsPerBlock) + e.itemsPerBlock - 1) / e.itemsPerBlock = c at hdiv ⊢
  split_ifs <;> omega

theorem indirectAdded_le (hsize : 1024 ≤ e.blockSize) : e.indirectAdded blocks ≤ 3 + blocks / 256 := by
  have hitems : 256 ≤ e.itemsPerBlock := by
    unfold itemsPerBlock
    omega
  have hdiv : (blocks - (12 + e.itemsPerBlock) + e.itemsPerBlock - 1) / e.itemsPerBlock ≤ blocks / 256 + 1 := by
    calc (blocks - (12 + e.itemsPerBlock) + e.itemsPerBlock - 1) / e.itemsPerBlock
        ≤ (blocks + e.itemsPerBlock) / e.itemsPerBlock := Nat.div_le_div_right (by omega)
      _ = blocks / e.itemsPerBlock + 1 := Nat.add_div_right _ (by omega)
      _ ≤ blocks / 256 + 1 := Nat.add_le_add_right (Nat.div_le_div_left hitems (by norm_num)) 1
  unfold indirectAdded
  dsimp only
  split_ifs <;> omega

/-- At the end of a range one block is added too many. -/
theorem indirectAdded_eq_iff (hpos : 0 < e.itemsPerBlock) (blocks : ℕ) :
    e.indirectAdded blocks = e.indirectNeeded blocks ↔ blocks ≠ 12 ∧ blocks ≠ 12 + e.itemsPerBlock := by
  unfold indirectAdded
  dsimp only
  rcases Nat.lt_trichotomy blocks 12 with hlt | rfl | hgt
  · rw [if_pos hlt, indirectNeeded_direct hlt.le]
    exact iff_of_true rfl (by omega)
  · have hsingly : 12 < 12 + e.itemsPerBlock := by omega
    rw [if_neg (lt_irrefl 12), if_pos hsingly, indirectNeeded_direct le_rfl]
    exact iff_of_false one_ne_zero fun h => h.1 rfl
  · rw [if_neg hgt.not_gt]
    rcases Nat.lt_trichotomy blocks (12 + e.itemsPerBlock) with hlt | heq | hgt'
    · rw [if_pos hlt, indirectNeeded_singly hgt hlt.le]
      exact iff_of_true rfl (by omega)
    · rw [if_neg heq.not_lt, indirectNeeded_singly hgt heq.le]
      refine iff_of_false ?_ fun h => h.2 heq
      generalize (blocks - (12 + e.itemsPerBlock) + e.itemsPerBlock - 1) / e.itemsPerBlock = c
      omega
    · rw [if_neg hgt'.not_gt, indirectNeeded_doubly hpos hgt']
      exact iff_of_true rfl (by omega)

theorem ext2BlockSizeCalculate_eq (hsize : 1024 ≤ e.blockSize) (hbig : e.blockSize ≤ 2 ^ 31) (raw : ℕ) :
    e.ext2BlockSizeCalculate raw =
      let blocks := ceilingDivision raw e.blockSize % 2 ^ 32
      if blocks < 12 + e.itemsPerBlock + e.itemsPerBlock ^ 2 then .ok (e.blockSize * (blocks + e.indirectAdded blocks))
      else .error .halt := by
  have hitems : 256 ≤ e.itemsPerBlock ∧ e.itemsPerBlock ≤ 2 ^ 29 := by
    unfold itemsPerBlock
    omega
  unfold ext2BlockSizeCalculate
  dsimp only
  rw [show e.blockSize / 4 = e.itemsPerBlock from rfl, ← pow_two]
  generalize hblocks : ceilingDivision raw e.blockSize % 2 ^ 32 = blocks
  have hword : blocks < 2 ^ 32 := hblocks ▸ Nat.mod_lt _ (by norm_num)
  have hadded : e.indirectAdded blocks ≤ 3 + blocks / 256 := indirectAdded_le hsize
  have hwrap : wrap ((blocks + e.indirectAdded blocks) * e.blockSize) =
      e.blockSize * (blocks + e.indirectAdded blocks) := by
    rw [wrap_of_lt, Nat.mul_comm]
    calc (blocks + e.indirectAdded blocks) * e.blockSize
        ≤ (2 ^ 32 + 2 ^ 25) * 2 ^ 31 := Nat.mul_le_mul (by omega) hbig
      _ < 2 ^ 64 := by norm_num
  by_cases hfits : blocks < 12 + e.itemsPerBlock + e.itemsPerBlock ^ 2
  · rw [if_pos hfits, ← hwrap, if_pos hfits]
    unfold indirectAdded
    dsimp only
    by_cases hdirect : blocks < 12
    · rw [if_pos hdirect, if_pos hdirect, Nat.add_zero]
    rw [if_neg hdirect, if_neg hdirect]
    by_cases hsingly : blocks < 12 + e.itemsPerBlock
    · rw [if_pos hsingly, if_pos hsingly]
    · rw [if_neg hsingly, if_neg hsingly, ceilingDivision_eq (by omega) (by omega), Nat.add_assoc]
  · have hdirect : ¬blocks < 12 := by omega
    have hsingly : ¬blocks < 12 + e.itemsPerBlock := by omega
    rw [if_neg hfits, if_neg hdirect, if_neg hsingly, if_neg hfits]

theorem dataBlocks_mono {raw' : ℕ} (h : raw' ≤ raw) : e.dataBlocks raw' ≤ e.dataBlocks raw :=
  Nat.div_le_div_right (by omega)

/-- The division that is computed, unless it leaves the 64-bit words. -/
theorem ceilingDivision_blockSize (hsize : 1024 ≤ e.blockSize) (hbig : e.blockSize ≤ 2 ^ 31) (hraw : raw < 2 ^ 64) :
    raw + e.blockSize ≤ 2 ^ 64 ∧ ceilingDivision raw e.blockSize = e.dataBlocks raw ∨
      ceilingDivision raw e.blockSize = 0 ∧ 2 ^ 32 ≤ e.dataBlocks raw := by
  rcases le_or_gt (raw + e.blockSize) (2 ^ 64) with hle | hgt
  · exact .inl ⟨hle, ceilingDivision_eq (by omega) hle⟩
  · refine .inr ⟨?_, ?_⟩
    · unfold ceilingDivision wrap
      exact Nat.div_eq_of_lt (by omega)
    · rw [dataBlocks, Nat.le_div_iff_mul_le (by omega)]
      calc 2 ^ 32 * e.blockSize ≤ 2 ^ 32 * 2 ^ 31 := Nat.mul_le_mul_left _ hbig
        _ ≤ raw + e.blockSize - 1 := by omega

theorem ext2BlockSizeCalculate_dataBlocks (hsize : 1024 ≤ e.blockSize) (hbig : e.blockSize ≤ 2 ^ 31)
    (hraw : raw < 2 ^ 64) (hword : e.dataBlocks raw < 2 ^ 32)
    (hfits : e.dataBlocks raw < 12 + e.itemsPerBlock + e.itemsPerBlock ^ 2) :
    e.ext2BlockSizeCalculate raw =
      .ok (e.blockSize * (e.dataBlocks raw + e.indirectAdded (e.dataBlocks raw))) := by
  have hdivision := ceilingDivision_blockSize hsize hbig hraw
  have heq : ceilingDivision raw e.blockSize % 2 ^ 32 = e.dataBlocks raw := by omega
  rw [ext2BlockSizeCalculate_eq hsize hbig]
  dsimp only
  rw [heq, if_pos hfits]

/-- A size that is found right fits the words and fills no range of the map to its end. -/
theorem Accounts.not_at_end (hsize : 1024 ≤ e.blockSize) (hbig : e.blockSize ≤ 2 ^ 31) (hraw : raw < 2 ^ 64)
    (h : e.Accounts raw) : e.dataBlocks raw < 2 ^ 32 ∧ e.dataBlocks raw ≠ 12 ∧
      e.dataBlocks raw ≠ 12 + e.itemsPerBlock ∧ e.dataBlocks raw ≠ 12 + e.itemsPerBlock + e.itemsPerBlock ^ 2 := by
  have hitems : 256 ≤ e.itemsPerBlock := by
    unfold itemsPerBlock
    omega
  have hexact := h.1
  rw [ext2BlockSizeCalculate_eq hsize hbig] at hexact
  dsimp only at hexact
  have hdivision := ceilingDivision_blockSize hsize hbig hraw
  generalize hb : ceilingDivision raw e.blockSize % 2 ^ 32 = b at hexact
  by_cases hfits : b < 12 + e.itemsPerBlock + e.itemsPerBlock ^ 2
  · rw [if_pos hfits, Except.ok.injEq, Nat.mul_right_inj (by omega)] at hexact
    have hadded : e.indirectAdded b ≤ 3 + b / 256 := indirectAdded_le hsize
    have hword : e.dataBlocks raw < 2 ^ 32 := by omega
    obtain rfl : b = e.dataBlocks raw := by omega
    have hpos : 0 < e.itemsPerBlock := by omega
    have hends := (indirectAdded_eq_iff hpos (e.dataBlocks raw)).mp (by omega)
    exact ⟨hword, hends.1, hends.2, by omega⟩
  · rw [if_neg hfits] at hexact
    cases hexact

/-- The size is right unless the data blocks fill a range of the map to its end, or overflow 32 bits. -/
theorem accounts_iff (hsize : 1024 ≤ e.blockSize) (hbig : e.blockSize ≤ 2 ^ 31) (hraw : raw < 2 ^ 64)
    (hrange : e.dataBlocks raw ≤ 12 + e.itemsPerBlock + e.itemsPerBlock ^ 2) :
    e.Accounts raw ↔ e.dataBlocks raw < 2 ^ 32 ∧ e.dataBlocks raw ≠ 12 ∧ e.dataBlocks raw ≠ 12 + e.itemsPerBlock ∧
      e.dataBlocks raw ≠ 12 + e.itemsPerBlock + e.itemsPerBlock ^ 2 := by
  refine ⟨Accounts.not_at_end hsize hbig hraw, ?_⟩
  rintro ⟨hword, hdirect, hsingly, hdoubly⟩
  have hitems : 256 ≤ e.itemsPerBlock := by
    unfold itemsPerBlock
    omega
  have hpos : 0 < e.itemsPerBlock := by omega
  have hneeded := (indirectAdded_eq_iff hpos (e.dataBlocks raw)).mpr ⟨hdirect, hsingly⟩
  unfold Accounts
  dsimp only
  rw [← hneeded]
  refine ⟨ext2BlockSizeCalculate_dataBlocks hsize hbig hraw hword (by omega), fun raw' hle => ?_⟩
  have hblocks := dataBlocks_mono (e := e) hle
  exact ⟨_, Nat.mul_le_mul_left _ (Nat.add_le_add hblocks (indirectAdded_mono hblocks)),
    ext2BlockSizeCalculate_dataBlocks hsize hbig (by omega) (by omega) (by omega)⟩

theorem accounts_sample : (BlockUse.sampleImage 4096 0).Accounts 53249 :=
  (accounts_iff (by decide) (by decide) (by decide) (by decide)).mpr (by decide)

/-- Twelve blocks need no indirect block, and one is added. -/
theorem twelve_blocks_not_accounted : ¬∀ (e : Ext2) (raw : ℕ), 1024 ≤ e.blockSize → e.blockSize ≤ 2 ^ 31 →
    raw < 2 ^ 64 → e.dataBlocks raw ≤ 12 + e.itemsPerBlock + e.itemsPerBlock ^ 2 → e.Accounts raw := by
  intro hall
  have h := (hall (BlockUse.sampleImage 4096 0) 49152 (by decide) (by decide) (by decide) (by decide)).1
  rw [indirectNeeded_direct (by decide)] at h
  exact absurd h (by decide)

end Sizes

end Ext2

end DualFuse.Filesystems
