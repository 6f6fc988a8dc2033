import DualFuse.Filesystems.Ext2.Blocks
import DualFuse.Library.Bytes
import DualFuse.Utility.Words

/-! The blocks of a file of ext2 (`ext2BlockFetch` and `ext2BlockChain` of
`filesystems/ext2/ext2_util.c`). An inode names twelve blocks, and one block each that
names blocks on one, two and three levels. A descriptor keeps the two indirect blocks that
were read last. What the map of blocks means is stated beside it: the bytes of the file. -/

namespace DualFuse.Filesystems

open Library Utility

/-- `Ext2Inode` as far as the content of a file depends on it; `blocks` has 15 entries. -/
structure FileInode where
  permission : ℕ
  size : ℕ
  sizeHigh : ℕ
  numSectors : ℕ
  blocks : ℕ → ℕ

/-- `Ext2LookupControl`: two indirect blocks by their number, which is zero where none was read. -/
structure Ext2LookupControl where
  tmp1 : Block
  tmp1Block : ℕ
  tmp2 : Block
  tmp2Block : ℕ

namespace Ext2

def itemsPerBlock (e : Ext2) : ℕ := e.blockSize / 4

/-- An entry of an indirect block. -/
def item (b : Block) (i : ℕ) : ℕ := Bytes.readNat b (4 * i) 4

/-- An indirect block is read unless it was read last. -/
def loadTmp1 (e : Ext2) (control : Ext2LookupControl) (block : ℕ) : Ext2LookupControl :=
  if control.tmp1Block ≠ block then { control with tmp1Block := block, tmp1 := e.disk block } else control

def loadTmp2 (e : Ext2) (control : Ext2LookupControl) (block : ℕ) : Ext2LookupControl :=
  if control.tmp2Block ≠ block then { control with tmp2Block := block, tmp2 := e.disk block } else control

/-- The place in a block of the second level; the first level is read behind its end where the
range of the second is taken for `blockSize` blocks of items. -/
def fetchDoubly (e : Ext2) (control : Ext2LookupControl) (place : ℕ) : Exec (ℕ × Ext2LookupControl) :=
  if e.itemsPerBlock ≤ place / e.itemsPerBlock then .error .fault
  else if item control.tmp1 (place / e.itemsPerBlock) ≠ 0 then
    let control := e.loadTmp2 control (item control.tmp1 (place / e.itemsPerBlock))
    .ok (item control.tmp2 (place % e.itemsPerBlock), control)
  else .ok (0, control)

def ext2BlockFetch (e : Ext2) (ino : FileInode) (control : Ext2LookupControl) (curr : ℕ) :
    Exec (ℕ × Ext2LookupControl) :=
  let baseSingly := 12 + e.itemsPerBlock
  let baseDoubly := baseSingly + e.blockSize * e.itemsPerBlock
  if curr < 12 then .ok (ino.blocks curr, control)
  else if curr < baseSingly then
    if ino.blocks 12 ≠ 0 then
      let control := e.loadTmp1 control (ino.blocks 12)
      .ok (item control.tmp1 (curr - 12), control)
    else .ok (0, control)
  else if curr < baseDoubly then
    if ino.blocks 13 ≠ 0 then e.fetchDoubly (e.loadTmp1 control (ino.blocks 13)) (curr - baseSingly)
    else .ok (0, control)
  else .error .halt

/-- The blocks of `n` places from `curr` on. -/
def ext2BlockChain (e : Ext2) (ino : FileInode) : (n curr : ℕ) → Ext2LookupControl → Exec (List ℕ × Ext2LookupControl)
  | 0, _, control => .ok ([], control)
  | n + 1, curr, control => do
    let (block, control) ← e.ext2BlockFetch ino control curr
    let (blocks, control) ← e.ext2BlockChain ino n (curr + 1) control
    .ok (block :: blocks, control)

/-! ### The content of a file -/

/-- The block at a place that an indirect block of some level leads to. -/
def pointed (e : Ext2) : (level block place : ℕ) → ℕ
  | 0, block, _ => block
  | level + 1, block, place =>
    if block = 0 then 0
    else e.pointed level (item (e.disk block) (place / e.itemsPerBlock ^ level)) (place % e.itemsPerBlock ^ level)

theorem pointed_zero (e : Ext2) (level place : ℕ) : e.pointed (level + 1) 0 place = 0 := by
  rw [pointed, if_pos rfl]

/-- The block of a file at a place, zero where there is none. -/
def fileBlock (e : Ext2) (ino : FileInode) (curr : ℕ) : ℕ :=
  let n := e.itemsPerBlock
  if curr < 12 then ino.blocks curr
  else if curr < 12 + n then e.pointed 1 (ino.blocks 12) (curr - 12)
  else if curr < 12 + n + n ^ 2 then e.pointed 2 (ino.blocks 13) (curr - (12 + n))
  else if curr < 12 + n + n ^ 2 + n ^ 3 then e.pointed 3 (ino.blocks 14) (curr - (12 + n + n ^ 2))
  else 0

/-- A byte of a file; what no block is there for is zero. -/
def fileByte (e : Ext2) (ino : FileInode) (place : ℕ) : BitVec 8 :=
  if e.fileBlock ino (place / e.blockSize) = 0 then 0
  else e.disk (e.fileBlock ino (place / e.blockSize)) (place % e.blockSize)

/-- The indirect blocks that were read are those on disk. -/
structure Fresh (e : Ext2) (control : Ext2LookupControl) : Prop where
  tmp1 : control.tmp1Block ≠ 0 → control.tmp1 = e.disk control.tmp1Block
  tmp2 : control.tmp2Block ≠ 0 → control.tmp2 = e.disk control.tmp2Block

section Fetch
variable {e : Ext2} {ino : FileInode} {control : Ext2LookupControl} {block curr place : ℕ}

theorem Fresh.loadTmp1 (h : e.Fresh control) (hblock : block ≠ 0) :
    e.Fresh (e.loadTmp1 control block) ∧ (e.loadTmp1 control block).tmp1 = e.disk block := by
  unfold Ext2.loadTmp1
  by_cases hne : control.tmp1Block ≠ block
  · rw [if_pos hne]
    exact ⟨⟨fun _ => rfl, h.tmp2⟩, rfl⟩
  · rw [if_neg hne]
    have heq := not_not.mp hne
    refine ⟨h, ?_⟩
    rw [← heq]
    exact h.tmp1 (heq ▸ hblock)

theorem Fresh.loadTmp2 (h : e.Fresh control) (hblock : block ≠ 0) :
    e.Fresh (e.loadTmp2 control block) ∧ (e.loadTmp2 control block).tmp2 = e.disk block := by
  unfold Ext2.loadTmp2
  by_cases hne : control.tmp2Block ≠ block
  · rw [if_pos hne]
    exact ⟨⟨h.tmp1, fun _ => rfl⟩, rfl⟩
  · rw [if_neg hne]
    have heq := not_not.mp hne
    refine ⟨h, ?_⟩
    rw [← heq]
    exact h.tmp2 (heq ▸ hblock)

/-- What `ext2BlockFetch` answers, without the blocks that were read before. -/
def fetched (e : Ext2) (ino : FileInode) (curr : ℕ) : Exec ℕ :=
  let n := e.itemsPerBlock
  if curr < 12 + n + n ^ 2 then .ok (e.fileBlock ino curr)
  else if curr < 12 + n + e.blockSize * n then if ino.blocks 13 ≠ 0 then .error .fault else .ok 0
  else .error .halt

theorem itemsPerBlock_sq_le (e : Ext2) : e.itemsPerBlock ^ 2 ≤ e.blockSize * e.itemsPerBlock := by
  rw [pow_two]
  exact Nat.mul_le_mul_right _ (Nat.div_le_self _ _)

theorem Fresh.fetchDoubly (h : e.Fresh control) {root : ℕ} (hroot : root ≠ 0) (htmp : control.tmp1 = e.disk root)
    (hplace : place < e.itemsPerBlock ^ 2) :
    ∃ control', e.Fresh control' ∧ e.fetchDoubly control place = .ok (e.pointed 2 root place, control') := by
  have hlt : place / e.itemsPerBlock < e.itemsPerBlock := by
    rw [pow_two] at hplace
    exact Nat.div_lt_of_lt_mul hplace
  unfold Ext2.fetchDoubly pointed
  rw [if_neg (not_le.mpr hlt), if_neg hroot, pow_one, htmp]
  by_cases hitem : item (e.disk root) (place / e.itemsPerBlock) = 0
  · rw [if_neg (not_not.mpr hitem), pointed, if_pos hitem]
    exact ⟨control, h, rfl⟩
  · obtain ⟨hfresh, htmp2⟩ := h.loadTmp2 hitem
    rw [if_pos hitem, pointed, if_neg hitem, pow_zero, Nat.div_one]
    dsimp only
    rw [htmp2]
    exact ⟨_, hfresh, rfl⟩

/-- The blocks that were read before change nothing. -/
theorem Fresh.fetch (h : e.Fresh control) (ino : FileInode) (curr : ℕ) :
    ∃ control', e.Fresh control' ∧ e.ext2BlockFetch ino control curr = (·, control') <$> e.fetched ino curr := by
  have hsq := e.itemsPerBlock_sq_le
  unfold ext2BlockFetch fetched
  dsimp only
  by_cases hdirect : curr < 12
  · rw [if_pos hdirect, if_pos (by omega), fileBlock, if_pos hdirect]
    exact ⟨control, h, rfl⟩
  rw [if_neg hdirect]
  by_cases hsingly : curr < 12 + e.itemsPerBlock
  · have hlow : curr < 12 + e.itemsPerBlock + e.itemsPerBlock ^ 2 := hsingly.trans_le (Nat.le_add_right _ _)
    rw [if_pos hsingly, if_pos hlow, fileBlock, if_neg hdirect, if_pos hsingly, pointed]
    by_cases hroot : ino.blocks 12 = 0
    · rw [if_neg (not_not.mpr hroot), if_pos hroot]
      exact ⟨control, h, rfl⟩
    · obtain ⟨hfresh, htmp⟩ := h.loadTmp1 hroot
      rw [if_pos hroot, if_neg hroot, htmp, pow_zero, Nat.div_one]
      exact ⟨_, hfresh, rfl⟩
  rw [if_neg hsingly]
  by_cases hdoubly : curr < 12 + e.itemsPerBlock + e.itemsPerBlock ^ 2
  · have hlow : curr < 12 + e.itemsPerBlock + e.blockSize * e.itemsPerBlock := by omega
    rw [if_pos hdoubly, if_pos hlow, fileBlock, if_neg hdirect, if_neg hsingly, if_pos hdoubly]
    by_cases hroot : ino.blocks 13 = 0
    · rw [if_neg (not_not.mpr hroot), pointed, if_pos hroot]
      exact ⟨control, h, rfl⟩
    · obtain ⟨hfresh, htmp⟩ := h.loadTmp1 hroot
      rw [if_pos hroot]
      obtain ⟨control', hfresh', hfetch⟩ := hfresh.fetchDoubly hroot htmp
        (show curr - (12 + e.itemsPerBlock) < e.itemsPerBlock ^ 2 by omega)
      exact ⟨control', hfresh', hfetch⟩
  rw [if_neg hdoubly]
  by_cases hbehind : curr < 12 + e.itemsPerBlock + e.blockSize * e.itemsPerBlock
  · rw [if_pos hbehind, if_pos hbehind]
    by_cases hroot : ino.blocks 13 = 0
    · rw [if_neg (not_not.mpr hroot), if_neg (not_not.mpr hroot)]
      exact ⟨control, h, rfl⟩
    · have hge : e.itemsPerBlock ≤ (curr - (12 + e.itemsPerBlock)) / e.itemsPerBlock := by
        have hn : 0 < e.itemsPerBlock := Nat.pos_of_ne_zero fun hzero => by
          rw [hzero, Nat.mul_zero] at hbehind
          omega
        rw [Nat.le_div_iff_mul_le hn, ← pow_two]
        omega
      rw [if_pos hroot, if_pos hroot, Ext2.fetchDoubly, if_pos hge]
      exact ⟨control, h, rfl⟩
  · rw [if_neg hbehind, if_neg hbehind]
    exact ⟨control, h, rfl⟩

/-- A block that is found is a block of the file. -/
theorem fetched_eq_fileBlock {b : ℕ} (h : e.fetched ino curr = .ok b) (hb : b ≠ 0) : e.fileBlock ino curr = b := by
  unfold fetched at h
  dsimp only at h
  split_ifs at h with hlow
  · exact Except.ok.inj h
  · exact absurd (Except.ok.inj h).symm hb

/-- The entries of indirect blocks that a lookup reads. -/
def fetchPlaces (e : Ext2) (ino : FileInode) (control : Ext2LookupControl) (curr : ℕ) : List ℕ :=
  let baseSingly := 12 + e.itemsPerBlock
  let baseDoubly := baseSingly + e.blockSize * e.itemsPerBlock
  if curr < 12 then []
  else if curr < baseSingly then if ino.blocks 12 ≠ 0 then [curr - 12] else []
  else if curr < baseDoubly then
    if ino.blocks 13 ≠ 0 then
      let index := (curr - baseSingly) / e.itemsPerBlock
      let rem := (curr - baseSingly) % e.itemsPerBlock
      if item (e.loadTmp1 control (ino.blocks 13)).tmp1 index ≠ 0 then [index, rem] else [index]
    else []
  else []

/-- A lookup finds the block of the file up to the end of the doubly indirect range and halts
behind it, and reads entries inside the indirect blocks only. -/
structure Classifies (e : Ext2) (curr : ℕ) : Prop where
  found : curr < 12 + e.itemsPerBlock + e.itemsPerBlock ^ 2 → ∀ ino control, e.Fresh control →
    ∃ control', e.ext2BlockFetch ino control curr = .ok (e.fileBlock ino curr, control')
  behind : 12 + e.itemsPerBlock + e.itemsPerBlock ^ 2 ≤ curr → ∀ ino control, e.Fresh control →
    e.ext2BlockFetch ino control curr = .error .halt
  inside : ∀ ino control, e.Fresh control → ∀ i ∈ e.fetchPlaces ino control curr, i < e.itemsPerBlock

theorem fetchPlaces_lt (h : curr < 12 + e.itemsPerBlock + e.itemsPerBlock ^ 2) :
    ∀ i ∈ e.fetchPlaces ino control curr, i < e.itemsPerBlock := by
  have hdoubly : 12 + e.itemsPerBlock ≤ curr → (curr - (12 + e.itemsPerBlock)) / e.itemsPerBlock < e.itemsPerBlock ∧
      (curr - (12 + e.itemsPerBlock)) % e.itemsPerBlock < e.itemsPerBlock := by
    intro hge
    have hplace : curr - (12 + e.itemsPerBlock) < e.itemsPerBlock * e.itemsPerBlock := by
      rw [← pow_two]
      omega
    exact ⟨Nat.div_lt_of_lt_mul hplace, Nat.mod_lt _ (Nat.pos_of_mul_pos_left ((Nat.zero_le _).trans_lt hplace))⟩
  intro i hi
  unfold fetchPlaces at hi
  dsimp only at hi
  split_ifs at hi with hdirect hsingly hroot hbehind hroot hitem
  · exact absurd hi List.not_mem_nil
  · rw [List.mem_singleton] at hi
    omega
  · exact absurd hi List.not_mem_nil
  · obtain ⟨hindex, hrem⟩ := hdoubly (not_lt.mp hsingly)
    rw [List.mem_pair] at hi
    rcases hi with rfl | rfl
    · exact hindex
    · exact hrem
  · rw [List.mem_singleton] at hi
    exact hi ▸ (hdoubly (not_lt.mp hsingly)).1
  · exact absurd hi List.not_mem_nil
  · exact absurd hi List.not_mem_nil

/-- A descriptor that has read no indirect block yet. -/
def noLookup : Ext2LookupControl := ⟨fun _ => 0, 0, fun _ => 0, 0⟩

theorem fresh_noLookup : e.Fresh noLookup := ⟨fun h => absurd rfl h, fun h => absurd rfl h⟩

/-- The range of the second level is taken for `blockSize` blocks of items. -/
theorem classifies_iff (e : Ext2) (curr : ℕ) : e.Classifies curr ↔
    curr < 12 + e.itemsPerBlock + e.itemsPerBlock ^ 2 ∨ 12 + e.itemsPerBlock + e.blockSize * e.itemsPerBlock ≤ curr := by
  have hsq := e.itemsPerBlock_sq_le
  constructor
  · intro h
    by_contra hbetween
    rw [not_or, not_lt, not_le] at hbetween
    have hhalt := h.behind hbetween.1 ⟨0, 0, 0, 0, fun _ => 0⟩ noLookup fresh_noLookup
    unfold ext2BlockFetch at hhalt
    dsimp only at hhalt
    rw [if_neg (by omega), if_neg (by omega), if_pos hbetween.2, if_neg (by omega)] at hhalt
    cases hhalt
  · rintro (hlow | hhigh)
    · refine ⟨fun _ ino control hfresh => ?_, fun hge => absurd hlow (not_lt.mpr hge),
        fun ino control _ => fetchPlaces_lt hlow⟩
      obtain ⟨control', -, hfetch⟩ := hfresh.fetch ino curr
      unfold fetched at hfetch
      dsimp only at hfetch
      rw [if_pos hlow] at hfetch
      exact ⟨control', hfetch⟩
    · refine ⟨fun hlow => absurd hlow (by omega), fun _ ino control hfresh => ?_, fun ino control _ i hi => ?_⟩
      · obtain ⟨control', -, hfetch⟩ := hfresh.fetch ino curr
        unfold fetched at hfetch
        dsimp only at hfetch
        rw [if_neg (by omega), if_neg (by omega)] at hfetch
        exact hfetch
      · unfold fetchPlaces at hi
        dsimp only at hi
        rw [if_neg (by omega), if_neg (by omega), if_neg (by omega)] at hi
        exact absurd hi List.not_mem_nil

/-- On blocks of 1024 bytes, the first place behind the doubly indirect range reads entry 256 of 256. -/
theorem behind_doubly_read : ¬∀ (e : Ext2) (curr : ℕ), e.Classifies curr := by
  intro hall
  have h := (hall (BlockUse.sampleImage 1024 1) 65804).inside ⟨0, 0, 0, 0, fun _ => 1⟩ noLookup fresh_noLookup 256
  exact absurd (h (by decide)) (by decide)

/-- The blocks of a row of places. -/
def fetchedAll (e : Ext2) (ino : FileInode) : (n curr : ℕ) → Exec (List ℕ)
  | 0, _ => .ok []
  | n + 1, curr => do
    let block ← e.fetched ino curr
    let blocks ← e.fetchedAll ino n (curr + 1)
    .ok (block :: blocks)

theorem Fresh.chain (h : e.Fresh control) (ino : FileInode) (n curr : ℕ) :
    ∃ control', e.Fresh control' ∧ e.ext2BlockChain ino n curr control = (·, control') <$> e.fetchedAll ino n curr := by
  induction n generalizing curr control with
  | zero => exact ⟨control, h, rfl⟩
  | succ n ih =>
    obtain ⟨control₁, hfresh₁, hfetch⟩ := h.fetch ino curr
    obtain ⟨control₂, hfresh₂, hchain⟩ := ih hfresh₁ (curr + 1)
    refine ⟨control₂, hfresh₂, ?_⟩
    rw [ext2BlockChain, fetchedAll, hfetch]
    cases e.fetched ino curr with
    | error stop => rfl
    | ok block =>
      rw [Except.map_ok, Exec.ok_bind, Exec.ok_bind]
      dsimp only
      rw [hchain]
      cases e.fetchedAll ino n (curr + 1) with
      | error stop => rfl
      | ok blocks => rfl

theorem fetchedAll_ok_iff {n : ℕ} {blocks : List ℕ} : e.fetchedAll ino n curr = .ok blocks ↔
    blocks.length = n ∧ ∀ i < n, ∃ b, e.fetched ino (curr + i) = .ok b ∧ blocks[i]? = some b := by
  induction n generalizing curr blocks with
  | zero =>
    rw [fetchedAll, Except.ok.injEq]
    constructor
    · rintro rfl
      exact ⟨rfl, fun i hi => absurd hi (Nat.not_lt_zero i)⟩
    · rintro ⟨hlength, -⟩
      exact (List.length_eq_zero_iff.mp hlength).symm
  | succ n ih =>
    rw [fetchedAll, Exec.bind_ok_iff]
    constructor
    · rintro ⟨b, hb, hrest⟩
      obtain ⟨l, hl, heq⟩ := Exec.bind_ok_iff.mp hrest
      cases heq
      obtain ⟨hlength, hall⟩ := ih.mp hl
      refine ⟨by rw [List.length_cons, hlength], fun i hi => ?_⟩
      cases i with
      | zero => exact ⟨b, hb, rfl⟩
      | succ i =>
        obtain ⟨b', hb', hget⟩ := hall i (by omega)
        refine ⟨b', ?_, hget⟩
        rw [← hb']
        congr 1
        omega
    · rintro ⟨hlength, hall⟩
      cases blocks with
      | nil => cases hlength
      | cons b l =>
        obtain ⟨b', hb', hget⟩ := hall 0 (Nat.succ_pos n)
        cases hget
        refine ⟨b, hb', ?_⟩
        have hl : e.fetchedAll ino n (curr + 1) = .ok l := by
          refine ih.mpr ⟨Nat.succ.inj hlength, fun i hi => ?_⟩
          obtain ⟨b', hb', hget⟩ := hall (i + 1) (by omega)
          refine ⟨b', ?_, hget⟩
          rw [← hb']
          congr 1
          omega
        rw [hl, Exec.ok_bind]

theorem exists_fetchedAll {n : ℕ} (h : ∀ i < n, ∃ b, e.fetched ino (curr + i) = .ok b) :
    ∃ blocks, e.fetchedAll ino n curr = .ok blocks := by
  induction n generalizing curr with
  | zero => exact ⟨[], rfl⟩
  | succ n ih =>
    obtain ⟨b, hb⟩ := h 0 (Nat.succ_pos n)
    obtain ⟨blocks, hblocks⟩ := ih fun i hi => by
      obtain ⟨b', hb'⟩ := h (i + 1) (by omega)
      exact ⟨b', by rw [← hb', Nat.add_right_comm, Nat.add_assoc]⟩
    rw [Nat.add_zero] at hb
    rw [fetchedAll, hb, Exec.ok_bind, hblocks, Exec.ok_bind]
    exact ⟨_, rfl⟩

end Fetch

end Ext2

end DualFuse.Filesystems
