import DualFuse.Filesystems.Ext2.Blocks
import DualFuse.Filesystems.Ext2.Mount

/-! Where the superblock and the group descriptors of an ext2 volume are written back to, and
what the numbers of blocks stand for (`filesystems/ext2/ext2_util.c`). The copies belong to
group 1 and to the powers of 3, 5 and 7. Groups are counted from the first data block, while
the code counts them from block 0. The bytes that are written are left out. -/

namespace DualFuse.Filesystems.Ext2Mount

open Library Utility

/-! ### The code -/

/-- The loop of `isPowerOf`; `n` rounds are enough for `n`. -/
def divideOut (power : ℕ) : (rounds n : ℕ) → ℕ
  | 0, n => n
  | rounds + 1, n => if n % power = 0 then divideOut power rounds (n / power) else n

def isPowerOf (n power : ℕ) : Bool := if n < 1 then false else divideOut power n n == 1

/-- A call of `set_disk_bytes`. -/
structure DiskWrite where
  lba : ℕ
  sectorCount : ℕ
  deriving DecidableEq, Repr

/-- The test in both loops. -/
def hasCopy (i : ℕ) : Bool := i == 0 || i == 1 || isPowerOf i 3 || isPowerOf i 5 || isPowerOf i 7

/-- The loop over the groups from 1 on, with an `int`. -/
def pushCopies (blockGroups : ℕ) (copy : ℕ → DiskWrite) : Exec (List DiskWrite) :=
  if 2 ^ 31 ≤ blockGroups then .error .fault
  else .ok (((List.range' 1 (blockGroups - 1)).filter hasCopy).map copy)

namespace Volume

def lbaOf (v : Volume) (block : ℕ) : ℕ := blockToLba v.offsetBase v.blockSize block

def bgdtSectorCount (v : Volume) : ℕ := ceilingDivision v.blockSize sectorSize

def ext2BgdtPushM (v : Volume) : Exec (List DiskWrite) := do
  let copies ← pushCopies v.blockGroups fun i =>
    ⟨v.lbaOf ((i * v.superblock.blocksPerGroup + 1) % 2 ^ 32), v.bgdtSectorCount⟩
  .ok (⟨v.offsetBgdt, v.bgdtSectorCount⟩ :: copies)

def ext2SuperblockPushM (v : Volume) : Exec (List DiskWrite) := do
  let copies ← pushCopies v.blockGroups fun i => ⟨v.lbaOf (i * v.superblock.blocksPerGroup % 2 ^ 32), 2⟩
  .ok (⟨v.offsetSuperblock, 2⟩ :: copies)

end Volume

/-! ### Where the copies are -/

/-- A group with a copy of the superblock and the descriptors. -/
def HasCopy (g : ℕ) : Prop := g = 1 ∨ (∃ k, g = 3 ^ k) ∨ (∃ k, g = 5 ^ k) ∨ ∃ k, g = 7 ^ k

namespace Volume

def sectorsPerBlock (v : Volume) : ℕ := v.blockSize / sectorSize

/-- The first sector of a block. -/
def sectorOf (v : Volume) (block : ℕ) : ℕ := v.offsetBase + block * v.sectorsPerBlock

/-- The first block of a group. -/
def firstBlock (v : Volume) (g : ℕ) : ℕ := v.superblock.superblockIdx + g * v.superblock.blocksPerGroup

/-- The groups behind the first one that have copies. -/
def copyGroups (v : Volume) : Set ℕ := { g | 1 ≤ g ∧ g < v.blockGroups ∧ HasCopy g }

/-- The primary superblock is 1024 bytes behind the start, and a copy is at the start of its group. -/
def superblockSectors (v : Volume) : Set ℕ :=
  Set.Ico (v.offsetBase + 2) (v.offsetBase + 4) ∪
    ⋃ g ∈ v.copyGroups, Set.Ico (v.sectorOf (v.firstBlock g)) (v.sectorOf (v.firstBlock g) + 2)

/-- The descriptors follow the superblock. -/
def bgdtSectors (v : Volume) : Set ℕ :=
  Set.Ico (v.sectorOf (v.firstBlock 0 + 1)) (v.sectorOf (v.firstBlock 0 + 2)) ∪
    ⋃ g ∈ v.copyGroups, Set.Ico (v.sectorOf (v.firstBlock g + 1)) (v.sectorOf (v.firstBlock g + 2))

end Volume

/-- The write goes to these sectors, and the driver can address them. -/
structure DiskWrite.Into (w : DiskWrite) (sectors : Set ℕ) : Prop where
  addressed : w.lba + w.sectorCount ≤ 2 ^ 32
  inside : Set.Ico w.lba (w.lba + w.sectorCount) ⊆ sectors

/-- An image with the sizes of the volume. -/
structure Describes (v : Volume) (e : Ext2) : Prop where
  blockSize : e.blockSize = v.blockSize
  blockGroups : e.blockGroups = v.blockGroups
  superblockIdx : e.superblock.superblockIdx = v.superblock.superblockIdx
  blocksPerGroup : e.superblock.blocksPerGroup = v.superblock.blocksPerGroup

/-- The numbers that a search returns stand for the blocks of the bits that it found: the bits
`i` to `i + amnt` of a group. -/
def NumbersDenote (v : Volume) (e : Ext2) (hint amnt : ℕ) : Prop :=
  ∀ r, e.ext2BlockFind hint amnt = .ok r → ∀ g < e.blockGroups, e.ext2BlockFindL g amnt = r → ∀ i,
    FirstRun.scan (fun i => !BitArray.get (e.bitmap g) i) amnt (8 * e.blockSize) 0 0 0 = some i →
      g * e.superblock.blocksPerGroup + i + amnt ≤ 2 ^ 32 → ∀ k < amnt, v.lbaOf (r.2 + k) = v.lbaOf (e.blockOf g (i + k))

structure WritesBack (v : Volume) : Prop where
  superblock : ∃ l, v.ext2SuperblockPushM = .ok l ∧ ∀ w ∈ l, w.Into v.superblockSectors
  bgdts : ∃ l, v.ext2BgdtPushM = .ok l ∧ ∀ w ∈ l, w.Into v.bgdtSectors
  numbers : ∀ e, Describes v e → ∀ hint amnt, NumbersDenote v e hint amnt

/-! ### The groups with copies -/

theorem divideOut_eq_one_iff {p : ℕ} (hp : 2 ≤ p) {rounds n : ℕ} (hn : 1 ≤ n) (hrounds : n ≤ rounds) :
    divideOut p rounds n = 1 ↔ ∃ k, n = p ^ k := by
  induction rounds generalizing n with
  | zero => omega
  | succ rounds ih =>
    rw [divideOut]
    split_ifs with hmod
    · obtain ⟨m, rfl⟩ := Nat.dvd_of_mod_eq_zero hmod
      have hm : 1 ≤ m := Nat.pos_of_mul_pos_left hn
      have hlt : m < p * m := lt_mul_of_one_lt_left hm hp
      rw [Nat.mul_div_cancel_left m (by omega), ih hm (by omega)]
      constructor
      · rintro ⟨k, rfl⟩
        exact ⟨k + 1, (pow_succ' p k).symm⟩
      · rintro ⟨k, hk⟩
        cases k with
        | zero =>
          rw [pow_zero] at hk
          omega
        | succ k =>
          rw [pow_succ'] at hk
          exact ⟨k, Nat.eq_of_mul_eq_mul_left (by omega) hk⟩
    · constructor
      · rintro rfl
        exact ⟨0, rfl⟩
      · rintro ⟨k, rfl⟩
        cases k with
        | zero => rfl
        | succ k => exact absurd (Nat.mod_eq_zero_of_dvd (dvd_pow_self p k.succ_ne_zero)) hmod

theorem isPowerOf_iff {p : ℕ} (hp : 2 ≤ p) {n : ℕ} (hn : 1 ≤ n) : isPowerOf n p = true ↔ ∃ k, n = p ^ k := by
  rw [isPowerOf, if_neg (by omega), beq_iff_eq, divideOut_eq_one_iff hp hn le_rfl]

theorem hasCopy_iff {g : ℕ} (hg : 1 ≤ g) : hasCopy g = true ↔ HasCopy g := by
  simp only [hasCopy, HasCopy, Bool.or_eq_true, beq_iff_eq, isPowerOf_iff (show 2 ≤ 3 by decide) hg,
    isPowerOf_iff (show 2 ≤ 5 by decide) hg, isPowerOf_iff (show 2 ≤ 7 by decide) hg, or_assoc]
  exact or_iff_right (by omega)

/-- What the loop writes. -/
theorem pushCopies_ok_iff {v : Volume} {copy : ℕ → DiskWrite} {l : List DiskWrite} :
    pushCopies v.blockGroups copy = .ok l ↔ v.blockGroups < 2 ^ 31 ∧
      l = ((List.range' 1 (v.blockGroups - 1)).filter hasCopy).map copy := by
  unfold pushCopies
  split_ifs with hmany
  · exact iff_of_false (fun h => by cases h) fun h => by omega
  · rw [Except.ok.injEq, eq_comm, and_iff_right (by omega)]

theorem mem_copies_iff {v : Volume} {g : ℕ} :
    g ∈ (List.range' 1 (v.blockGroups - 1)).filter hasCopy ↔ g ∈ v.copyGroups := by
  rw [List.mem_filter, List.mem_range'_1]
  constructor
  · rintro ⟨⟨hlo, hhi⟩, hcopy⟩
    exact ⟨hlo, by omega, (hasCopy_iff hlo).mp hcopy⟩
  · rintro ⟨hlo, hhi, hcopy⟩
    exact ⟨⟨hlo, by omega⟩, (hasCopy_iff hlo).mpr hcopy⟩

/-! ### Geometry -/

/-- What mounting gives for a block size that was not shifted out of its word. -/
structure Volume.Mounted (v : Volume) : Prop where
  blockSize : v.blockSize = v.sectorsPerBlock * sectorSize
  sectors_ge : 2 ≤ v.sectorsPerBlock
  sectors_le : v.sectorsPerBlock ≤ 2 ^ 21
  offsetBase : v.offsetBase < 2 ^ 32
  superblockIdx : v.superblock.superblockIdx < 2 ^ 32
  blocksPerGroup : 0 < v.superblock.blocksPerGroup
  groups : v.blockGroups * v.superblock.blocksPerGroup < 2 ^ 32
  offsetSuperblock : v.offsetSuperblock = (v.offsetBase + 2) % 2 ^ 32
  offsetBgdt : v.offsetBgdt = v.lbaOf ((v.superblock.superblockIdx + 1) % 2 ^ 32)

theorem mounted_of_ext2Mount {disk : ℕ → BitVec 8} {lba : ℕ} {v : Volume} (h : ext2Mount disk lba = .ok (some v))
    (hlba : lba < 2 ^ 32) (hsize : v.superblock.log2blockSize ≤ 20) : v.Mounted := by
  have hidx : (mountedSuperblock disk lba).superblockIdx < 256 ^ 4 := Bytes.readNat_lt
  unfold ext2Mount at h
  dsimp only at h
  generalize mountedSuperblock disk lba = s at h hidx
  obtain ⟨blockSize, groups, hblockSize, hgroups, hv⟩ : ∃ blockSize groups : ℕ,
      blockSizeOf s.log2blockSize = .ok blockSize ∧ groupCount s.totalBlocks s.blocksPerGroup = .ok groups ∧
        v = mountWith disk lba blockSize groups s := by
    split_ifs at h
    · cases h
    · cases h
    · cases h
    · cases h
    · obtain ⟨blockSize, hblockSize, h⟩ := Exec.bind_ok_iff.mp h
      split_ifs at h
      · cases h
      · obtain ⟨groups, hgroups, h⟩ := Exec.bind_ok_iff.mp h
        obtain ⟨groups', -, h⟩ := Exec.bind_ok_iff.mp h
        split_ifs at h
        · cases h
        · exact ⟨blockSize, groups, hblockSize, hgroups, (Option.some.inj (Except.ok.inj h)).symm⟩
  subst hv
  change s.log2blockSize ≤ 20 at hsize
  rw [blockSizeOf_small hsize] at hblockSize
  cases hblockSize
  unfold groupCount at hgroups
  split_ifs at hgroups with hperGroup
  cases hgroups
  have hpow : 2 ^ s.log2blockSize ≤ 2 ^ 20 := Nat.pow_le_pow_right (by decide) hsize
  have hpos : 0 < 2 ^ s.log2blockSize := Nat.two_pow_pos _
  have hsectors : 1024 * 2 ^ s.log2blockSize / sectorSize = 2 * 2 ^ s.log2blockSize := by
    unfold sectorSize
    omega
  refine ⟨?_, ?_, ?_, hlba, hidx, Nat.pos_of_ne_zero hperGroup, ?_, rfl, rfl⟩
  · change 1024 * 2 ^ s.log2blockSize = 1024 * 2 ^ s.log2blockSize / sectorSize * sectorSize
    rw [hsectors]
    unfold sectorSize
    omega
  · change 2 ≤ 1024 * 2 ^ s.log2blockSize / sectorSize
    omega
  · change 1024 * 2 ^ s.log2blockSize / sectorSize ≤ 2 ^ 21
    omega
  · exact (Nat.div_mul_le_self _ _).trans_lt (Nat.mod_lt _ (by decide))

section Geometry
variable {v : Volume} (hv : v.Mounted)
include hv

/-- Without overflow the macro gives the sector of the block. -/
theorem Volume.Mounted.lbaOf_eq {block : ℕ} (hblock : block < 2 ^ 33) : v.lbaOf block = v.sectorOf block := by
  have hle : block * v.sectorsPerBlock ≤ 2 ^ 33 * 2 ^ 21 := Nat.mul_le_mul hblock.le hv.sectors_le
  have hbase := hv.offsetBase
  have hbytes : wrap (block * v.sectorsPerBlock * sectorSize) = block * v.sectorsPerBlock * sectorSize :=
    wrap_of_lt (by unfold sectorSize; omega)
  unfold Volume.lbaOf blockToLba Volume.sectorOf
  rw [hv.blockSize, ← Nat.mul_assoc, hbytes, Nat.mul_div_cancel _ (by decide), wrap_of_lt (by omega)]

theorem Volume.Mounted.bgdtSectorCount_eq : v.bgdtSectorCount = v.sectorsPerBlock := by
  have hle := hv.sectors_le
  unfold Volume.bgdtSectorCount
  rw [ceilingDivision_eq (by decide) (by rw [hv.blockSize]; unfold sectorSize; omega), hv.blockSize]
  unfold sectorSize
  omega

theorem Volume.Mounted.block_lt {g : ℕ} (hg : g ∈ v.copyGroups) : g * v.superblock.blocksPerGroup + 1 < 2 ^ 32 := by
  have hgroups := hv.groups
  have hle : (g + 1) * v.superblock.blocksPerGroup ≤ v.blockGroups * v.superblock.blocksPerGroup :=
    Nat.mul_le_mul_right _ hg.2.1
  have hpos := hv.blocksPerGroup
  rw [Nat.succ_mul] at hle
  omega

end Geometry

theorem Volume.sectorOf_add (v : Volume) (block n : ℕ) : v.sectorOf (block + n) = v.sectorOf block + n * v.sectorsPerBlock := by
  unfold Volume.sectorOf
  ring

theorem Volume.sectorOf_mono (v : Volume) {b b' : ℕ} (h : b ≤ b') : v.sectorOf b ≤ v.sectorOf b' :=
  Nat.add_le_add_left (Nat.mul_le_mul_right _ h) _

/-- The descriptors begin behind the first superblock. -/
theorem Volume.le_of_mem_bgdtSectors {v : Volume} {s : ℕ} (h : s ∈ v.bgdtSectors) :
    v.sectorOf (v.superblock.superblockIdx + 1) ≤ s := by
  have hfirst : ∀ g, v.superblock.superblockIdx + 1 ≤ v.firstBlock g + 1 := by
    intro g
    unfold Volume.firstBlock
    omega
  rcases h with h | h
  · exact (v.sectorOf_mono (hfirst 0)).trans h.1
  · obtain ⟨g, -, hs⟩ := Set.mem_iUnion₂.mp h
    exact (v.sectorOf_mono (hfirst g)).trans hs.1

/-! ### Numbers of blocks -/

theorem ext2BlockFind_ne_zero {e : Ext2} {hint amnt : ℕ} {r : Ext2 × ℕ} (h : e.ext2BlockFind hint amnt = .ok r) :
    r.2 ≠ 0 := by
  by_cases hhint : hint < e.blockGroups
  · have hmeets : Exec.Meets _ _ (e.ext2BlockFind hint amnt) := Ext2.ext2BlockFind_meets hhint
    rw [h] at hmeets
    obtain ⟨g, -, rfl, hne, -⟩ := hmeets
    exact hne
  · unfold Ext2.ext2BlockFind at h
    split_ifs at h with hfull hfault
    · exact absurd (not_lt.mp hhint) hfault
    · exact absurd (not_lt.mp hhint) hfault

/-- The number that a search in one group returns. -/
theorem ext2BlockFindL_number {e : Ext2} {g amnt i : ℕ} (hne : (e.ext2BlockFindL g amnt).2 ≠ 0)
    (hscan : FirstRun.scan (fun i => !BitArray.get (e.bitmap g) i) amnt (8 * e.blockSize) 0 0 0 = some i) :
    (e.ext2BlockFindL g amnt).2 = (g * e.superblock.blocksPerGroup + i) % 2 ^ 32 := by
  unfold Ext2.ext2BlockFindL at hne ⊢
  rw [hscan] at hne ⊢
  split_ifs at hne ⊢
  · exact absurd rfl hne
  · cases i with
    | zero => exact absurd rfl hne
    | succ i => rfl

/-- Where blocks are counted from block 0, the numbers denote the blocks of the bits. -/
theorem numbersDenote_of_zero {v : Volume} {e : Ext2} (hidx : e.superblock.superblockIdx = 0) (hint amnt : ℕ) :
    NumbersDenote v e hint amnt := by
  rintro r hr g - rfl i hscan hlt k hk
  rw [ext2BlockFindL_number (ext2BlockFind_ne_zero hr) hscan, Nat.mod_eq_of_lt (by omega), Ext2.blockOf, hidx,
    Nat.zero_add, Nat.add_assoc]

/-- A bitmap in which only bit 0 is set. -/
def firstUsed : Block := fun i => if i = 0 then 1 else 0

/-- An image of the volume in which every block but the first one of a group is free. -/
def freshImage (v : Volume) : Ext2 where
  blockSize := v.blockSize
  blockGroups := v.blockGroups
  superblock := ⟨v.superblock.totalBlocks, 1, v.superblock.superblockIdx, v.superblock.blocksPerGroup⟩
  bgdts _ := ⟨0, 1⟩
  disk _ := firstUsed

theorem freshImage_scan {v : Volume} (hsize : 1 ≤ v.blockSize) (g : ℕ) :
    FirstRun.scan (fun i => !BitArray.get ((freshImage v).bitmap g) i) 1 (8 * (freshImage v).blockSize) 0 0 0 = some 1 := by
  have hbit : (freshImage v).bitmap g = firstUsed := rfl
  obtain ⟨n, hn⟩ : ∃ n, 8 * (freshImage v).blockSize = n + 2 := ⟨8 * v.blockSize - 2, by
    change 8 * v.blockSize = _
    omega⟩
  have hfirst : BitArray.get firstUsed 0 = true := by decide
  have hsecond : BitArray.get firstUsed 1 = false := by decide
  rw [hn]
  simp [FirstRun.scan, hbit, hfirst, hsecond]

/-- The number found in the fresh image denotes the block before, or many blocks before. -/
theorem not_numbersDenote {v : Volume} (hv : v.Mounted) (hgroups : 1 ≤ v.blockGroups)
    (hidx : v.superblock.superblockIdx ≠ 0) : ¬NumbersDenote v (freshImage v) 0 1 := by
  intro h
  have hsize : 1 ≤ v.blockSize := by
    have := hv.sectors_ge
    rw [hv.blockSize]
    unfold sectorSize
    omega
  have hscan := freshImage_scan hsize 0
  have hnumber : ((freshImage v).ext2BlockFindL 0 1).2 = 1 := by
    unfold Ext2.ext2BlockFindL
    rw [hscan, if_neg (by change ¬1 < 1; omega)]
    change (0 * v.superblock.blocksPerGroup + 1) % 2 ^ 32 = 1
    omega
  have hfind : (freshImage v).ext2BlockFind 0 1 = .ok ((freshImage v).ext2BlockFindL 0 1) := by
    unfold Ext2.ext2BlockFind
    rw [if_neg (by change ¬1 < 1; omega), if_neg (by change ¬v.blockGroups ≤ 0; omega), if_pos (by rw [hnumber]; decide)]
  have hdenote := h _ hfind 0 hgroups rfl 1 hscan (by omega) 0 (by omega)
  have hblock : (freshImage v).blockOf 0 (1 + 0) = v.superblock.superblockIdx + 1 := by
    unfold Ext2.blockOf
    change v.superblock.superblockIdx + 0 * v.superblock.blocksPerGroup + (1 + 0) = _
    omega
  have hlt := hv.superblockIdx
  rw [hnumber, hblock, hv.lbaOf_eq (by omega), hv.lbaOf_eq (by omega)] at hdenote
  have hsectors := hv.sectors_ge
  have heq := Nat.eq_of_mul_eq_mul_right (by omega) (Nat.add_left_cancel hdenote)
  omega

/-! ### Writing back -/

/-- What it takes to write to the copies only: the primary descriptors and those of the groups
with copies have sectors that can be addressed, and the first data block is block 0. -/
def InPlace (v : Volume) : Prop :=
  v.sectorOf (v.superblock.superblockIdx + 2) ≤ 2 ^ 32 ∧ v.blockGroups < 2 ^ 31 ∧
    (v.blockGroups = 0 ∨ v.superblock.superblockIdx = 0 ∧
      ∀ g ∈ v.copyGroups, v.sectorOf (g * v.superblock.blocksPerGroup + 2) ≤ 2 ^ 32)

section WriteBack
variable {v : Volume}

theorem primary_addressed (hv : v.Mounted) (h : (DiskWrite.mk v.offsetBgdt v.bgdtSectorCount).Into v.bgdtSectors) :
    v.sectorOf (v.superblock.superblockIdx + 2) ≤ 2 ^ 32 := by
  have hidx := hv.superblockIdx
  have hsectors := hv.sectors_ge
  obtain ⟨haddressed, hinside⟩ := h
  dsimp only at haddressed hinside
  rw [hv.offsetBgdt, hv.bgdtSectorCount_eq] at haddressed hinside
  rcases Nat.lt_or_ge (v.superblock.superblockIdx + 1) (2 ^ 32) with hlt | hge
  · rw [Nat.mod_eq_of_lt hlt, hv.lbaOf_eq (by omega)] at haddressed
    rw [show v.superblock.superblockIdx + 2 = v.superblock.superblockIdx + 1 + 1 by omega, v.sectorOf_add, Nat.one_mul]
    exact haddressed
  · -- the number of the block behind the superblock is 0
    rw [show (v.superblock.superblockIdx + 1) % 2 ^ 32 = 0 by omega, hv.lbaOf_eq (by decide)] at hinside
    have hmem := Volume.le_of_mem_bgdtSectors (hinside ⟨le_refl _, by omega⟩)
    rw [v.sectorOf_add, ← Nat.zero_add v.superblock.superblockIdx, v.sectorOf_add] at hmem
    omega

theorem inPlace_of_writesBack (hv : v.Mounted) (h : WritesBack v) : InPlace v := by
  obtain ⟨l, hl, hall⟩ := h.bgdts
  obtain ⟨copies, hcopies, hl⟩ := Exec.bind_ok_iff.mp hl
  cases hl
  obtain ⟨hfew, rfl⟩ := pushCopies_ok_iff.mp hcopies
  refine ⟨primary_addressed hv (hall _ List.mem_cons_self), hfew, ?_⟩
  by_cases hgroups : v.blockGroups = 0
  · exact Or.inl hgroups
  · have hidx : v.superblock.superblockIdx = 0 := by
      by_contra hidx
      exact not_numbersDenote hv (Nat.pos_of_ne_zero hgroups) hidx (h.numbers _ ⟨rfl, rfl, rfl, rfl⟩ 0 1)
    refine Or.inr ⟨hidx, fun g hg => ?_⟩
    have hinto := hall _ (List.mem_cons_of_mem _ (List.mem_map_of_mem (mem_copies_iff.mpr hg)))
    have haddressed := hinto.addressed
    have hlt := hv.block_lt hg
    dsimp only at haddressed
    rw [Nat.mod_eq_of_lt hlt, hv.lbaOf_eq (by omega), hv.bgdtSectorCount_eq] at haddressed
    rw [show g * v.superblock.blocksPerGroup + 2 = g * v.superblock.blocksPerGroup + 1 + 1 by omega, v.sectorOf_add,
      Nat.one_mul]
    exact haddressed

/-- The pushes of the copies go to their sectors. -/
theorem copies_into (hv : v.Mounted) (hidx : v.superblock.superblockIdx = 0) {g : ℕ} (hg : g ∈ v.copyGroups)
    (hlast : v.sectorOf (g * v.superblock.blocksPerGroup + 2) ≤ 2 ^ 32) :
    (DiskWrite.mk (v.lbaOf (g * v.superblock.blocksPerGroup % 2 ^ 32)) 2).Into v.superblockSectors ∧
      (DiskWrite.mk (v.lbaOf ((g * v.superblock.blocksPerGroup + 1) % 2 ^ 32)) v.bgdtSectorCount).Into v.bgdtSectors := by
  have hlt := hv.block_lt hg
  have hsectors := hv.sectors_ge
  have hfirst : v.firstBlock g = g * v.superblock.blocksPerGroup := by
    unfold Volume.firstBlock
    rw [hidx, Nat.zero_add]
  rw [Nat.mod_eq_of_lt hlt, Nat.mod_eq_of_lt (by omega), hv.lbaOf_eq (by omega), hv.lbaOf_eq (by omega),
    hv.bgdtSectorCount_eq]
  have hsecond := v.sectorOf_add (g * v.superblock.blocksPerGroup) 1
  have hthird := v.sectorOf_add (g * v.superblock.blocksPerGroup) 2
  constructor
  · refine ⟨by dsimp only; omega, fun s hs => Or.inr (Set.mem_iUnion₂.mpr ⟨g, hg, ?_⟩)⟩
    rw [hfirst]
    exact hs
  · refine ⟨by dsimp only; omega, fun s hs => Or.inr (Set.mem_iUnion₂.mpr ⟨g, hg, ?_⟩)⟩
    rw [hfirst]
    refine ⟨hs.1, hs.2.trans_le ?_⟩
    dsimp only
    omega

theorem primary_into (hv : v.Mounted) (h : v.sectorOf (v.superblock.superblockIdx + 2) ≤ 2 ^ 32) :
    (DiskWrite.mk v.offsetSuperblock 2).Into v.superblockSectors ∧
      (DiskWrite.mk v.offsetBgdt v.bgdtSectorCount).Into v.bgdtSectors := by
  have hsectors := hv.sectors_ge
  have hbase : v.offsetBase + (v.superblock.superblockIdx + 2) * 2 ≤ 2 ^ 32 :=
    (Nat.add_le_add_left (Nat.mul_le_mul_left _ hsectors) _).trans h
  have hsecond : v.sectorOf (v.superblock.superblockIdx + 2) = v.sectorOf (v.superblock.superblockIdx + 1) +
      1 * v.sectorsPerBlock := v.sectorOf_add (v.superblock.superblockIdx + 1) 1
  have hzero : v.firstBlock 0 = v.superblock.superblockIdx := by
    unfold Volume.firstBlock
    omega
  rw [hv.offsetSuperblock, hv.offsetBgdt, hv.bgdtSectorCount_eq, Nat.mod_eq_of_lt (by omega), Nat.mod_eq_of_lt (by omega),
    hv.lbaOf_eq (by omega)]
  constructor
  · exact ⟨by dsimp only; omega, fun s hs => Or.inl hs⟩
  · refine ⟨by dsimp only; omega, fun s hs => Or.inl ?_⟩
    rw [hzero]
    refine ⟨hs.1, hs.2.trans_le ?_⟩
    dsimp only
    omega

theorem writesBack_of_inPlace (hv : v.Mounted) (h : InPlace v) : WritesBack v := by
  obtain ⟨hprimary, hfew, hplace⟩ := h
  obtain ⟨hsuper, hbgdt⟩ := primary_into hv hprimary
  have hcopies : ∀ g ∈ v.copyGroups, v.superblock.superblockIdx = 0 ∧
      v.sectorOf (g * v.superblock.blocksPerGroup + 2) ≤ 2 ^ 32 := by
    intro g hg
    rcases hplace with hnone | ⟨hidx, hlast⟩
    · exact absurd hg.2.1 (by omega)
    · exact ⟨hidx, hlast g hg⟩
  have hpushed : ∀ copy, pushCopies v.blockGroups copy =
      .ok (((List.range' 1 (v.blockGroups - 1)).filter hasCopy).map copy) :=
    fun copy => pushCopies_ok_iff.mpr ⟨hfew, rfl⟩
  refine ⟨⟨_, Exec.bind_ok_iff.mpr ⟨_, hpushed _, rfl⟩, ?_⟩, ⟨_, Exec.bind_ok_iff.mpr ⟨_, hpushed _, rfl⟩, ?_⟩, ?_⟩
  · rw [List.forall_mem_cons, List.forall_mem_map]
    refine ⟨hsuper, fun g hg => ?_⟩
    have hmem := mem_copies_iff.mp hg
    exact (copies_into hv (hcopies g hmem).1 hmem (hcopies g hmem).2).1
  · rw [List.forall_mem_cons, List.forall_mem_map]
    refine ⟨hbgdt, fun g hg => ?_⟩
    have hmem := mem_copies_iff.mp hg
    exact (copies_into hv (hcopies g hmem).1 hmem (hcopies g hmem).2).2
  · intro e he hint amnt
    rcases hplace with hnone | ⟨hidx, -⟩
    · intro r _ g hg
      rw [he.blockGroups, hnone] at hg
      omega
    · exact numbersDenote_of_zero (he.superblockIdx.trans hidx) hint amnt

end WriteBack

/-- On a mounted volume the metadata is written to its places, and block numbers stand for the
blocks of their bits, exactly if blocks are counted from block 0 and the copies have sectors
that can be addressed. -/
theorem writesBack_iff {disk : ℕ → BitVec 8} {lba : ℕ} {v : Volume} (hmount : ext2Mount disk lba = .ok (some v))
    (hlba : lba < 2 ^ 32) (hsize : v.superblock.log2blockSize ≤ 20) : WritesBack v ↔ InPlace v := by
  have hv := mounted_of_ext2Mount hmount hlba hsize
  exact ⟨inPlace_of_writesBack hv, writesBack_of_inPlace hv⟩

/-! ### Two groups -/

/-- The superblock of a volume of two groups, by its first data block and its block size. -/
def twoGroups (superblockIdx log2blockSize : ℕ) : Superblock where
  totalInodes := 16
  totalBlocks := 16384
  superblockIdx := superblockIdx
  log2blockSize := log2blockSize
  blocksPerGroup := 8192
  inodesPerGroup := 8
  ext2Magic := 0xEF53
  fsState := 1
  err := 0
  major := 1
  inodeSize := 128
  requiredFeature := 2

def twoGroupsDisk (superblockIdx log2blockSize : BitVec 8) (i : ℕ) : BitVec 8 :=
  (([(1024, 16), (1029, 0x40), (1044, superblockIdx), (1048, log2blockSize), (1057, 0x20), (1064, 8), (1080, 0x53),
    (1081, 0xEF), (1082, 1), (1100, 1), (1112, 128), (1120, 2)] : List (ℕ × BitVec 8)).lookup i).getD 0

def twoGroupsVolume (disk : ℕ → BitVec 8) (blockSize superblockIdx log2blockSize : ℕ) : Volume :=
  mountWith disk 0 blockSize 2 (twoGroups superblockIdx log2blockSize)

theorem twoGroups_mounted {disk : ℕ → BitVec 8} {blockSize superblockIdx log2blockSize : ℕ}
    (hsuper : mountedSuperblock disk 0 = twoGroups superblockIdx log2blockSize)
    (hsize : blockSizeOf log2blockSize = .ok blockSize) (hsector : blockSize % sectorSize = 0) :
    ext2Mount disk 0 = .ok (some (twoGroupsVolume disk blockSize superblockIdx log2blockSize)) := by
  have hrefused : ¬(mountedSuperblock disk 0).Refused := by
    rw [hsuper]
    rintro (h | h | h | ⟨h, -⟩)
    · exact h rfl
    · exact absurd h (by decide : ¬(1 < 1))
    · exact h rfl
    · exact h rfl
  have hmatched : ¬(mountedSuperblock disk 0).Mismatched := by
    rw [hsuper]
    exact fun h => h (by decide : ceilingDivision32 16384 8192 = ceilingDivision32 16 8)
  have haccepts := ext2Mount_accepts hrefused (by rw [hsuper]; exact hsize) hsector
    (by rw [hsuper]; exact (by decide : 8192 ≠ 0)) (by rw [hsuper]; exact (by decide : 8 ≠ 0)) hmatched
  have hcount : (twoGroups superblockIdx log2blockSize).blockGroups = 2 :=
    (by decide : ceilingDivision32 16384 8192 = 2)
  rw [haccepts, hsuper, hcount]
  rfl

/-- With blocks of 4096 bytes the copies are in their places. -/
theorem large_blocks_written_back : WritesBack (twoGroupsVolume (twoGroupsDisk 0 2) 4096 0 2) := by
  refine (writesBack_iff (twoGroups_mounted (by decide +kernel) (by decide) (by decide)) (by decide)
    (by decide : 2 ≤ 20)).mpr ⟨by decide +kernel, by decide +kernel, Or.inr ⟨rfl, fun g hg => ?_⟩⟩
  obtain rfl : g = 1 := by
    have hlo := hg.1
    have hhi : g < 2 := hg.2.1
    omega
  decide +kernel

/-- With blocks of 1024 bytes the copy of the superblock is written to the block before it, the
last one of group 0. -/
theorem small_blocks_not_written_back :
    ext2Mount (twoGroupsDisk 1 0) 0 = .ok (some (twoGroupsVolume (twoGroupsDisk 1 0) 1024 1 0)) ∧
      ¬WritesBack (twoGroupsVolume (twoGroupsDisk 1 0) 1024 1 0) := by
  have hmount : ext2Mount (twoGroupsDisk 1 0) 0 = .ok (some (twoGroupsVolume (twoGroupsDisk 1 0) 1024 1 0)) :=
    twoGroups_mounted (by decide +kernel) (by decide) (by decide)
  refine ⟨hmount, fun h => ?_⟩
  have hv := mounted_of_ext2Mount hmount (by decide) (by decide : 0 ≤ 20)
  rcases (inPlace_of_writesBack hv h).2.2 with hnone | ⟨hidx, -⟩
  · exact absurd hnone (by decide : ¬2 = 0)
  · exact absurd hidx (by decide : ¬1 = 0)

end DualFuse.Filesystems.Ext2Mount
