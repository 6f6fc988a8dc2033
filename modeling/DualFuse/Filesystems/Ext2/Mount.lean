import DualFuse.Library.Bytes
import DualFuse.Library.Execution
import DualFuse.Utility.Words

/-! Mounting an ext2 volume (`ext2_mount` of `filesystems/ext2/ext2_controller.c`). The sizes
of the volume are taken from the superblock on the disk. A division by zero and a shift by
more than the width of an `int` are faults; an `int` that is shifted beyond its width keeps
its lower bits. The locks are left out. -/

namespace DualFuse.Filesystems.Ext2Mount

open Library Utility

def sectorSize : ℕ := 512

/-- The fields of `Ext2Superblock` and `Ext2SuperblockExtended` that are looked at. -/
structure Superblock where
  totalInodes : ℕ
  totalBlocks : ℕ
  superblockIdx : ℕ
  log2blockSize : ℕ
  blocksPerGroup : ℕ
  inodesPerGroup : ℕ
  ext2Magic : ℕ
  fsState : ℕ
  err : ℕ
  major : ℕ
  inodeSize : ℕ
  requiredFeature : ℕ
  deriving DecidableEq, Repr

/-- The superblock at byte `o` of the disk. -/
def superblockAt (disk : ℕ → BitVec 8) (o : ℕ) : Superblock where
  totalInodes := Bytes.readNat disk o 4
  totalBlocks := Bytes.readNat disk (o + 4) 4
  superblockIdx := Bytes.readNat disk (o + 20) 4
  log2blockSize := Bytes.readNat disk (o + 24) 4
  blocksPerGroup := Bytes.readNat disk (o + 32) 4
  inodesPerGroup := Bytes.readNat disk (o + 40) 4
  ext2Magic := Bytes.readNat disk (o + 56) 2
  fsState := Bytes.readNat disk (o + 58) 2
  err := Bytes.readNat disk (o + 60) 2
  major := Bytes.readNat disk (o + 76) 4
  inodeSize := Bytes.readNat disk (o + 88) 2
  requiredFeature := Bytes.readNat disk (o + 96) 4

/-- `Ext2`; `bgdts` has the bytes of the descriptors. -/
structure Volume where
  offsetBase : ℕ
  offsetSuperblock : ℕ
  offsetBgdt : ℕ
  blockSize : ℕ
  inodeSize : ℕ
  inodeSizeRounded : ℕ
  blockGroups : ℕ
  bgdts : List (BitVec 8)
  superblock : Superblock

/-- `1024 << log2block_size`, as a `size_t`. -/
def blockSizeOf (log2blockSize : ℕ) : Exec ℕ :=
  if log2blockSize ≥ 32 then .error .fault else .ok (intToSize (wrapInt (1024 * 2 ^ log2blockSize : ℕ)))

/-- `CEILING_DIVISION` of 32-bit words. -/
def ceilingDivision32 (a b : ℕ) : ℕ := (a + b + (2 ^ 32 - 1)) % 2 ^ 32 / b

def groupCount (total perGroup : ℕ) : Exec ℕ :=
  if perGroup = 0 then .error .fault else .ok (ceilingDivision32 total perGroup)

/-- `BLOCK_TO_LBA`, for blocks that are counted from the first group. -/
def blockToLba (offsetBase blockSize block : ℕ) : ℕ := wrap (offsetBase + wrap (block * blockSize) / sectorSize)

/-- The driver takes 32 bits of a sector number. -/
def getDiskBytes (disk : ℕ → BitVec 8) (lba sectorCount : ℕ) : List (BitVec 8) :=
  Bytes.read disk (lba % 2 ^ 32 * sectorSize) (sectorCount * sectorSize)

def mountWith (disk : ℕ → BitVec 8) (offsetBase blockSize blockGroups : ℕ) (superblock : Superblock) : Volume :=
  let offsetBgdt := blockToLba offsetBase blockSize ((superblock.superblockIdx + 1) % 2 ^ 32)
  { offsetBase := offsetBase
    offsetSuperblock := (offsetBase + 2) % 2 ^ 32
    offsetBgdt := offsetBgdt
    blockSize := blockSize
    inodeSize := superblock.inodeSize
    inodeSizeRounded := ceilingDivision superblock.inodeSize sectorSize * sectorSize
    blockGroups := blockGroups
    bgdts := getDiskBytes disk offsetBgdt (ceilingDivision blockSize sectorSize)
    superblock := superblock }

def ext2FsClean : ℕ := 1
def ext2FsRemountRo : ℕ := 2
def ext2FsKHalt : ℕ := 3
def ext2TypeField : ℕ := 2

/-- The superblock that is read. -/
def mountedSuperblock (disk : ℕ → BitVec 8) (lbaFirstSector : ℕ) : Superblock :=
  superblockAt disk ((lbaFirstSector + 2) % 2 ^ 32 * sectorSize)

/-- Without a volume the call returns false. -/
def ext2Mount (disk : ℕ → BitVec 8) (lbaFirstSector : ℕ) : Exec (Option Volume) :=
  let superblock := mountedSuperblock disk lbaFirstSector
  if superblock.ext2Magic ≠ 0xEF53 then .ok none
  else if superblock.major < 1 then .ok none
  else if superblock.requiredFeature ≠ ext2TypeField then .ok none
  else if superblock.fsState ≠ ext2FsClean ∧ superblock.err = ext2FsRemountRo then .ok none
  else if superblock.fsState ≠ ext2FsClean ∧ superblock.err = ext2FsKHalt then .error .halt
  else do
    let blockSize ← blockSizeOf superblock.log2blockSize
    if blockSize % sectorSize ≠ 0 then .ok none
    else do
      let blockGroups1 ← groupCount superblock.totalBlocks superblock.blocksPerGroup
      let blockGroups2 ← groupCount superblock.totalInodes superblock.inodesPerGroup
      if blockGroups1 ≠ blockGroups2 then .ok none
      else .ok (some (mountWith disk lbaFirstSector blockSize blockGroups1 superblock))

/-! ### What is accepted -/

/-- The size of a descriptor. -/
def bgdtSize : ℕ := 32

/-- A geometry that can be worked with. -/
structure Volume.Sound (v : Volume) : Prop where
  powerOfTwo : ∃ k, v.blockSize = 2 ^ k
  inodeSize : 128 ≤ v.inodeSize
  described : ∀ g < v.blockGroups, bgdtSize * (g + 1) ≤ v.bgdts.length

/-- The call returns false, halts in the state that is meant for it, or accepts a sound geometry. -/
def Checked (superblock : Superblock) (r : Exec (Option Volume)) : Prop :=
  r = .ok none ∨ (r = .error .halt ∧ superblock.fsState ≠ ext2FsClean ∧ superblock.err = ext2FsKHalt) ∨
    ∃ v, r = .ok (some v) ∧ v.Sound

/-- A superblock for which the call stops before it looks at the sizes. -/
def Superblock.Refused (s : Superblock) : Prop :=
  s.ext2Magic ≠ 0xEF53 ∨ s.major < 1 ∨ s.requiredFeature ≠ ext2TypeField ∨
    s.fsState ≠ ext2FsClean ∧ (s.err = ext2FsRemountRo ∨ s.err = ext2FsKHalt)

def Superblock.blockGroups (s : Superblock) : ℕ := ceilingDivision32 s.totalBlocks s.blocksPerGroup

/-- The two counts of groups differ. -/
def Superblock.Mismatched (s : Superblock) : Prop :=
  s.blockGroups ≠ ceilingDivision32 s.totalInodes s.inodesPerGroup

/-- Sizes that the volume can be worked with. -/
structure Superblock.Sized (s : Superblock) : Prop where
  log2blockSize : s.log2blockSize ≤ 20
  inodeSize : 128 ≤ s.inodeSize
  groups : bgdtSize * s.blockGroups ≤ 1024 * 2 ^ s.log2blockSize

theorem blockSizeOf_small {n : ℕ} (h : n ≤ 20) : blockSizeOf n = .ok (1024 * 2 ^ n) := by
  have hpow : 2 ^ n ≤ 2 ^ 20 := Nat.pow_le_pow_right (by decide) h
  rw [blockSizeOf, if_neg (by omega), wrapInt_natCast (by omega), intToSize_of_nonneg (by omega)]

/-- From 21 on no bit is left, except the one of the sign. -/
theorem blockSizeOf_large {n : ℕ} (h : 21 ≤ n) (h' : n < 32) :
    blockSizeOf n = .ok (if n = 21 then 2 ^ 64 - 2 ^ 31 else 0) := by
  interval_cases n <;> decide +kernel

theorem not_power_of_two {k n : ℕ} : (if n = 21 then 2 ^ 64 - 2 ^ 31 else 0) ≠ 2 ^ k := by
  split_ifs
  · intro h
    rcases Nat.lt_or_ge k 64 with hk | hk
    · have hle : 2 ^ k ≤ 2 ^ 63 := Nat.pow_le_pow_right (by decide) (by omega)
      omega
    · have hle : 2 ^ 64 ≤ 2 ^ k := Nat.pow_le_pow_right (by decide) hk
      omega
  · exact (pow_pos (by decide) k).ne

section Mount
variable {disk : ℕ → BitVec 8} {lba : ℕ}

/-- The call after the first checks. -/
theorem ext2Mount_of_not_refused (h : ¬(mountedSuperblock disk lba).Refused) :
    ext2Mount disk lba = (do
      let blockSize ← blockSizeOf (mountedSuperblock disk lba).log2blockSize
      if blockSize % sectorSize ≠ 0 then .ok none
      else do
        let blockGroups1 ← groupCount (mountedSuperblock disk lba).totalBlocks (mountedSuperblock disk lba).blocksPerGroup
        let blockGroups2 ← groupCount (mountedSuperblock disk lba).totalInodes (mountedSuperblock disk lba).inodesPerGroup
        if blockGroups1 ≠ blockGroups2 then .ok none
        else .ok (some (mountWith disk lba blockSize blockGroups1 (mountedSuperblock disk lba)))) := by
  simp only [Superblock.Refused, not_or, not_and, not_not, not_lt] at h
  obtain ⟨hmagic, hmajor, hfeature, hstate⟩ := h
  unfold ext2Mount
  rw [if_neg (not_not.mpr hmagic), if_neg (not_lt.mpr hmajor), if_neg (not_not.mpr hfeature),
    if_neg (fun hc => (hstate hc.1).1 hc.2), if_neg (fun hc => (hstate hc.1).2 hc.2)]

theorem checked_of_refused (h : (mountedSuperblock disk lba).Refused) :
    Checked (mountedSuperblock disk lba) (ext2Mount disk lba) := by
  unfold ext2Mount Checked
  dsimp only
  split_ifs with hmagic hmajor hfeature hro hhalt
  · exact Or.inl rfl
  · exact Or.inl rfl
  · exact Or.inl rfl
  · exact Or.inl rfl
  · exact Or.inr (Or.inl ⟨rfl, hhalt⟩)
  · rcases h with h | h | h | ⟨h, h' | h'⟩
    · exact absurd h hmagic
    · exact absurd h hmajor
    · exact absurd h hfeature
    · exact absurd ⟨h, h'⟩ hro
    · exact absurd ⟨h, h'⟩ hhalt

theorem length_bgdts {blockSize : ℕ} (hlt : blockSize + sectorSize ≤ 2 ^ 64) (hsector : sectorSize ∣ blockSize)
    (offsetBase blockGroups : ℕ) (s : Superblock) :
    (mountWith disk offsetBase blockSize blockGroups s).bgdts.length = blockSize := by
  obtain ⟨k, rfl⟩ := hsector
  have hpos : 0 < sectorSize := by decide
  have hround : ceilingDivision (sectorSize * k) sectorSize = k := by
    rw [ceilingDivision_eq hpos hlt]
    unfold sectorSize
    omega
  change (getDiskBytes _ _ _).length = _
  rw [getDiskBytes, Bytes.length_read, hround, Nat.mul_comm]

/-- A geometry is sound if its block size was not shifted out of its word and the rest fits. -/
theorem mountWith_sound_iff {s : Superblock} {blockSize : ℕ} (hn : s.log2blockSize < 32)
    (hsize : blockSizeOf s.log2blockSize = .ok blockSize) (offsetBase : ℕ) :
    (mountWith disk offsetBase blockSize s.blockGroups s).Sound ↔ s.Sized := by
  by_cases hsmall : s.log2blockSize ≤ 20
  · rw [blockSizeOf_small hsmall] at hsize
    cases hsize
    have hpow : 2 ^ s.log2blockSize ≤ 2 ^ 20 := Nat.pow_le_pow_right (by decide) hsmall
    have hsector : sectorSize ∣ 1024 * 2 ^ s.log2blockSize := ⟨2 * 2 ^ s.log2blockSize, by unfold sectorSize; ring⟩
    have hlength : (mountWith disk offsetBase (1024 * 2 ^ s.log2blockSize) s.blockGroups s).bgdts.length = _ :=
      length_bgdts (by unfold sectorSize; omega) hsector offsetBase s.blockGroups s
    constructor
    · intro h
      refine ⟨hsmall, h.inodeSize, ?_⟩
      cases hgroups : s.blockGroups with
      | zero => omega
      | succ g =>
        have hlast := h.described g (by change g < s.blockGroups; omega)
        rwa [hlength] at hlast
    · intro h
      refine ⟨⟨10 + s.log2blockSize, ?_⟩, h.inodeSize, fun g hg => ?_⟩
      · rw [pow_add]
        rfl
      · rw [hlength]
        exact (Nat.mul_le_mul_left bgdtSize hg).trans h.groups
  · rw [blockSizeOf_large (by omega) hn] at hsize
    cases hsize
    refine iff_of_false ?_ fun h => hsmall h.log2blockSize
    rintro ⟨⟨k, hk⟩, -, -⟩
    exact not_power_of_two hk

theorem checked_none (s : Superblock) : Checked s (.ok none) := Or.inl rfl

theorem not_checked_fault (s : Superblock) : ¬Checked s (.error .fault) := by
  rintro (h | ⟨h, -⟩ | ⟨v, h, -⟩) <;> cases h

theorem checked_some_iff {s : Superblock} {v : Volume} : Checked s (.ok (some v)) ↔ v.Sound := by
  constructor
  · rintro (h | ⟨h, -⟩ | ⟨v', h, hsound⟩)
    · cases h
    · cases h
    · cases h
      exact hsound
  · exact fun h => Or.inr (Or.inr ⟨v, rfl, h⟩)

/-- A shift in range gives whole sectors. -/
theorem blockSizeOf_sectors {n : ℕ} (h : n < 32) : ∃ b, blockSizeOf n = .ok b ∧ b % sectorSize = 0 := by
  by_cases hsmall : n ≤ 20
  · refine ⟨_, blockSizeOf_small hsmall, ?_⟩
    unfold sectorSize
    omega
  · refine ⟨_, blockSizeOf_large (by omega) h, ?_⟩
    split_ifs <;> rfl

/-- Where the shift and the divisions are in range and the counts agree, the volume is accepted. -/
theorem ext2Mount_accepts {blockSize : ℕ} (hrefused : ¬(mountedSuperblock disk lba).Refused)
    (hsize : blockSizeOf (mountedSuperblock disk lba).log2blockSize = .ok blockSize) (hsector : blockSize % sectorSize = 0)
    (hblocks : (mountedSuperblock disk lba).blocksPerGroup ≠ 0) (hinodes : (mountedSuperblock disk lba).inodesPerGroup ≠ 0)
    (hmatched : ¬(mountedSuperblock disk lba).Mismatched) :
    ext2Mount disk lba = .ok (some (mountWith disk lba blockSize (mountedSuperblock disk lba).blockGroups
      (mountedSuperblock disk lba))) := by
  rw [ext2Mount_of_not_refused hrefused]
  generalize mountedSuperblock disk lba = s at *
  have hcounts : ¬ceilingDivision32 s.totalBlocks s.blocksPerGroup ≠ ceilingDivision32 s.totalInodes s.inodesPerGroup :=
    hmatched
  rw [hsize, Exec.ok_bind, if_neg (not_not.mpr hsector), groupCount, if_neg hblocks, Exec.ok_bind, groupCount,
    if_neg hinodes, Exec.ok_bind, if_neg hcounts]
  rfl

/-- Then the sizes decide. -/
theorem checked_iff_sized (hrefused : ¬(mountedSuperblock disk lba).Refused)
    (hshift : (mountedSuperblock disk lba).log2blockSize < 32) (hblocks : (mountedSuperblock disk lba).blocksPerGroup ≠ 0)
    (hinodes : (mountedSuperblock disk lba).inodesPerGroup ≠ 0) (hmatched : ¬(mountedSuperblock disk lba).Mismatched) :
    Checked (mountedSuperblock disk lba) (ext2Mount disk lba) ↔ (mountedSuperblock disk lba).Sized := by
  obtain ⟨blockSize, hsize, hsector⟩ := blockSizeOf_sectors hshift
  rw [ext2Mount_accepts hrefused hsize hsector hblocks hinodes hmatched, checked_some_iff]
  exact mountWith_sound_iff hshift hsize lba

/-- The call is safe exactly for a superblock that is refused, or whose shift and divisors are
in range and whose counts of groups differ or whose sizes can be worked with. -/
theorem ext2Mount_checked_iff (disk : ℕ → BitVec 8) (lba : ℕ) :
    Checked (mountedSuperblock disk lba) (ext2Mount disk lba) ↔
      (mountedSuperblock disk lba).Refused ∨
        (mountedSuperblock disk lba).log2blockSize < 32 ∧ (mountedSuperblock disk lba).blocksPerGroup ≠ 0 ∧
          (mountedSuperblock disk lba).inodesPerGroup ≠ 0 ∧
          ((mountedSuperblock disk lba).Mismatched ∨ (mountedSuperblock disk lba).Sized) := by
  by_cases hrefused : (mountedSuperblock disk lba).Refused
  · exact iff_of_true (checked_of_refused hrefused) (Or.inl hrefused)
  rw [or_iff_right hrefused]
  by_cases hshift : (mountedSuperblock disk lba).log2blockSize < 32
  · obtain ⟨blockSize, hsize, hsector⟩ := blockSizeOf_sectors hshift
    have hmount := ext2Mount_of_not_refused hrefused
    rw [hsize, Exec.ok_bind, if_neg (not_not.mpr hsector)] at hmount
    by_cases hblocks : (mountedSuperblock disk lba).blocksPerGroup = 0
    · rw [hmount, groupCount, if_pos hblocks]
      exact iff_of_false (not_checked_fault _) fun h => h.2.1 hblocks
    by_cases hinodes : (mountedSuperblock disk lba).inodesPerGroup = 0
    · rw [hmount, groupCount, if_neg hblocks, Exec.ok_bind, groupCount, if_pos hinodes]
      exact iff_of_false (not_checked_fault _) fun h => h.2.2.1 hinodes
    by_cases hmismatched : (mountedSuperblock disk lba).Mismatched
    · have hcounts : ceilingDivision32 (mountedSuperblock disk lba).totalBlocks (mountedSuperblock disk lba).blocksPerGroup ≠
          ceilingDivision32 (mountedSuperblock disk lba).totalInodes (mountedSuperblock disk lba).inodesPerGroup :=
        hmismatched
      rw [hmount, groupCount, if_neg hblocks, Exec.ok_bind, groupCount, if_neg hinodes, Exec.ok_bind, if_pos hcounts]
      exact iff_of_true (checked_none _) ⟨hshift, hblocks, hinodes, Or.inl hmismatched⟩
    · refine (checked_iff_sized hrefused hshift hblocks hinodes hmismatched).trans ?_
      exact ⟨fun h => ⟨hshift, hblocks, hinodes, Or.inr h⟩, fun h => h.2.2.2.resolve_left hmismatched⟩
  · rw [ext2Mount_of_not_refused hrefused, blockSizeOf, if_pos (by omega)]
    exact iff_of_false (not_checked_fault _) fun h => hshift h.1

end Mount

/-- A volume of 33 groups with blocks of 1024 bytes, whose descriptors take more than a block. -/
def manyGroupsDisk (i : ℕ) : BitVec 8 :=
  (([(1024, 8), (1025, 1), (1029, 0x20), (1030, 4), (1044, 1), (1057, 0x20), (1064, 8), (1080, 0x53), (1081, 0xEF),
    (1082, 1), (1100, 1), (1112, 128), (1120, 2)] : List (ℕ × BitVec 8)).lookup i).getD 0

/-- The last descriptor is behind the block that is read. -/
theorem many_groups_accepted :
    ¬Checked (mountedSuperblock manyGroupsDisk 0) (ext2Mount manyGroupsDisk 0) := by
  have hsuper : mountedSuperblock manyGroupsDisk 0 =
      { totalInodes := 264, totalBlocks := 270336, superblockIdx := 1, log2blockSize := 0, blocksPerGroup := 8192,
        inodesPerGroup := 8, ext2Magic := 0xEF53, fsState := 1, err := 0, major := 1, inodeSize := 128,
        requiredFeature := 2 } := by decide +kernel
  have hsized : ¬(mountedSuperblock manyGroupsDisk 0).Sized := by
    rw [hsuper]
    intro h
    exact absurd h.groups (by decide +kernel)
  have hrefused : ¬(mountedSuperblock manyGroupsDisk 0).Refused := by
    rw [hsuper]
    rintro (h | h | h | ⟨h, -⟩)
    · exact h rfl
    · exact absurd h (by decide)
    · exact h rfl
    · exact h rfl
  refine fun h => hsized ((checked_iff_sized hrefused ?_ ?_ ?_ ?_).mp h)
  · rw [hsuper]
    decide
  · rw [hsuper]
    decide
  · rw [hsuper]
    decide
  · rw [hsuper]
    intro h
    exact h (by decide +kernel)

end DualFuse.Filesystems.Ext2Mount
