import DualFuse.Filesystems.Ext2.FileBlocks
import DualFuse.Library.Clusters

/-! Reading a file of ext2 without its cache (`ext2ReadInner` of
`filesystems/ext2/ext2_controller.c`). The blocks of the range and one more are looked up;
blocks that follow each other on disk are read together. The look ahead knows the last block
of the range but not the one behind it, so it leaves the array there; and the loop ends at
the first block that is not allocated. What is put into the cache is left out. -/

namespace DualFuse.Filesystems

open Library Utility

/-- An open file: the file system, the block group of the inode and the inode on disk, the
descriptor's copy of it, the indirect blocks that were read last, and the position. -/
structure Ext2File where
  ext2 : Ext2
  group : ℕ
  stored : FileInode
  inode : FileInode
  lookup : Ext2LookupControl
  ptr : ℕ

/-- Memory, from the start of a buffer on. -/
abbrev Buffer := ℕ → BitVec 8

namespace Ext2

/-- A block is read to a place of a buffer of blocks. -/
def getBlock (e : Ext2) (done block : ℕ) (tmp : Buffer) : Buffer := fun k =>
  if k / e.blockSize = done then e.disk block (k % e.blockSize) else tmp k

/-- `get_disk_bytes` of blocks that follow each other, into a buffer of `size` bytes. -/
def getBlocks (e : Ext2) (size done first needed : ℕ) (tmp : Buffer) : Exec Buffer :=
  if (done + needed) * e.blockSize ≤ size then
    .ok fun k =>
      if done ≤ k / e.blockSize ∧ k / e.blockSize < done + needed
      then e.disk (first + (k / e.blockSize - done)) (k % e.blockSize) else tmp k
  else .error .fault

/-- The block after another one, as a 32-bit number. -/
def nextBlock (block : ℕ) : ℕ := (block + 1) % 2 ^ 32

end Ext2

namespace Ext2File

def filesize (f : Ext2File) : ℕ := f.inode.sizeHigh * 2 ^ 32 + f.inode.size

def blocksRequired (f : Ext2File) (limit : ℕ) : ℕ := ceilingDivision limit f.ext2.blockSize

/-- `virtual_allocate` gives whole pages, with what was in them before. -/
def tmpSize (f : Ext2File) (limit : ℕ) : ℕ :=
  ceilingDivision ((f.blocksRequired limit + 1) * f.ext2.blockSize) 4096 * 4096

def ext2ReadInner (f : Ext2File) (tmp : Buffer) (limit : ℕ) : Exec (List (BitVec 8) × Ext2File) := do
  let required := f.blocksRequired limit
  let (blocks, lookup) ← f.ext2.ext2BlockChain f.inode (required + 1) (f.ptr / f.ext2.blockSize) f.lookup
  let tmp ← Clusters.loop Ext2.nextBlock blocks required .ok (f.ext2.getBlocks (f.tmpSize limit))
    (required + 1) 0 none 0 tmp
  let offsetStarting := f.ptr % f.ext2.blockSize
  let headtoCopy := min (f.ext2.blockSize - offsetStarting) limit
  let rest := if headtoCopy < limit then Bytes.read tmp f.ext2.blockSize (limit - headtoCopy) else []
  .ok (Bytes.read tmp offsetStarting headtoCopy ++ rest, { f with lookup := lookup, ptr := wrap (f.ptr + limit) })

/-- The bytes of the file. -/
def bytes (f : Ext2File) (start n : ℕ) : List (BitVec 8) := Bytes.read (f.ext2.fileByte f.inode) start n

/-- A file on a mounted file system: its size is one that the block map can reach, and its blocks
are numbers of blocks. -/
structure WellFormed (f : Ext2File) : Prop where
  pos : 0 < f.ext2.blockSize
  bounded : f.ext2.blockSize ≤ 2 ^ 16
  sized : f.filesize ≤ f.ext2.blockSize *
    (12 + f.ext2.itemsPerBlock + f.ext2.itemsPerBlock ^ 2 + f.ext2.itemsPerBlock ^ 3)
  numbered : ∀ curr, f.ext2.fileBlock f.inode curr + 1 < 2 ^ 32
  fresh : f.ext2.Fresh f.lookup

/-- Whatever the buffer held before, the bytes of the range are read and the position moves on. -/
def ReadsInner (f : Ext2File) (limit : ℕ) : Prop :=
  ∀ tmp, ∃ f', f.ext2ReadInner tmp limit = .ok (f.bytes f.ptr limit, f') ∧ f'.ptr = f.ptr + limit

/-- The blocks of the range are there and the one behind them is not, and the range does not
begin so late in its first block that it needs that one. -/
def EndsWithFile (f : Ext2File) (limit : ℕ) : Prop :=
  (∀ i < f.blocksRequired limit,
      ∃ b, f.ext2.fetched f.inode (f.ptr / f.ext2.blockSize + i) = .ok b ∧ b ≠ 0) ∧
    f.ext2.fetched f.inode (f.ptr / f.ext2.blockSize + f.blocksRequired limit) = .ok 0 ∧
    (limit = 0 ∨ f.ptr % f.ext2.blockSize + limit ≤ f.blocksRequired limit * f.ext2.blockSize)

/-! ### The buffer of blocks -/

section Buffers
variable {e : Ext2} {size : ℕ} {tmp : Buffer} {row : List ℕ}

theorem getBlocks_eq {done first needed : ℕ} (h : (done + needed) * e.blockSize ≤ size) :
    e.getBlocks size done first needed tmp = .ok (Clusters.moveRow e.getBlock needed done first tmp) := by
  rw [Ext2.getBlocks, if_pos h, Except.ok.injEq]
  clear h
  induction needed generalizing done first tmp with
  | zero =>
    funext k
    exact if_neg (by omega)
  | succ needed ih =>
    rw [Clusters.moveRow, ← ih]
    funext k
    unfold Ext2.getBlock
    rcases Nat.lt_trichotomy (k / e.blockSize) done with hlt | heq | hgt
    · rw [if_neg (by omega), if_neg (by omega), if_neg (by omega)]
    · rw [if_pos (by omega), if_neg (by omega), if_pos heq, heq, Nat.sub_self, Nat.add_zero]
    · by_cases hin : k / e.blockSize < done + (needed + 1)
      · rw [if_pos (by omega), if_pos (by omega), show first + 1 + (k / e.blockSize - (done + 1)) =
          first + (k / e.blockSize - done) by omega]
      · rw [if_neg (by omega), if_neg (by omega), if_neg (by omega)]

/-- The first `n` blocks of a row are in the buffer. -/
def filled (e : Ext2) (row : List ℕ) (n : ℕ) (tmp : Buffer) : Buffer := fun k =>
  if k / e.blockSize < n then e.disk (row.getD (k / e.blockSize) 0) (k % e.blockSize) else tmp k

theorem moveEach_getBlock (n : ℕ) : Clusters.moveEach e.getBlock row n 0 tmp = filled e row n tmp := by
  induction n with
  | zero =>
    funext k
    exact (if_neg (Nat.not_lt_zero _)).symm
  | succ n ih =>
    rw [Clusters.moveEach_add n 1, ih, Nat.zero_add, Clusters.moveEach, Clusters.moveEach]
    funext k
    unfold Ext2.getBlock filled
    rcases Nat.lt_trichotomy (k / e.blockSize) n with hlt | heq | hgt
    · rw [if_neg (by omega), if_pos hlt, if_pos (by omega)]
    · rw [if_pos heq, if_pos (by omega), heq]
    · rw [if_neg (by omega), if_neg (by omega), if_neg (by omega)]

end Buffers

/-! ### What is read -/

section Read
variable {f : Ext2File} {limit z : ℕ} {row : List ℕ}

theorem WellFormed.filesize_lt (h : f.WellFormed) : f.filesize < 2 ^ 60 := by
  have hitems : f.ext2.itemsPerBlock ≤ 2 ^ 14 := by
    have := h.bounded
    unfold Ext2.itemsPerBlock
    omega
  have hsq : f.ext2.itemsPerBlock ^ 2 ≤ (2 ^ 14) ^ 2 := Nat.pow_le_pow_left hitems 2
  have hcube : f.ext2.itemsPerBlock ^ 3 ≤ (2 ^ 14) ^ 3 := Nat.pow_le_pow_left hitems 3
  calc f.filesize
      ≤ f.ext2.blockSize * (12 + f.ext2.itemsPerBlock + f.ext2.itemsPerBlock ^ 2 + f.ext2.itemsPerBlock ^ 3) := h.sized
    _ ≤ 2 ^ 16 * (12 + 2 ^ 14 + (2 ^ 14) ^ 2 + (2 ^ 14) ^ 3) := Nat.mul_le_mul h.bounded (by omega)
    _ < 2 ^ 60 := by norm_num

/-- The blocks required are those that `limit` bytes fill. -/
theorem WellFormed.blocksRequired_eq (h : f.WellFormed) (hlimit : limit ≤ f.filesize) :
    f.blocksRequired limit = (limit + f.ext2.blockSize - 1) / f.ext2.blockSize := by
  have := h.filesize_lt
  have := h.bounded
  exact ceilingDivision_eq h.pos (by omega)

theorem WellFormed.required_le_tmpSize (h : f.WellFormed) (hlimit : limit ≤ f.filesize) :
    f.blocksRequired limit * f.ext2.blockSize ≤ f.tmpSize limit := by
  have hsize := h.filesize_lt
  have hbounded := h.bounded
  have hpart : f.blocksRequired limit * f.ext2.blockSize ≤ limit + f.ext2.blockSize - 1 := by
    rw [h.blocksRequired_eq hlimit]
    exact Nat.div_mul_le_self _ _
  unfold tmpSize
  rw [Nat.add_one_mul, ceilingDivision_eq (by norm_num) (by omega)]
  omega

/-- The row of blocks that a read looks up. -/
structure Row (f : Ext2File) (required : ℕ) (row : List ℕ) : Prop where
  length : row.length = required + 1
  held : ∀ i ≤ required, ∃ b, f.ext2.fetched f.inode (f.ptr / f.ext2.blockSize + i) = .ok b ∧ row[i]? = some b

theorem Row.reaches (hrow : f.Row (f.blocksRequired limit) row) (h : f.WellFormed) (hz : z ≤ f.blocksRequired limit)
    (hheld : ∀ i < z, row[i]? ≠ some 0) (hstops : z = f.blocksRequired limit ∨ row[z]? = some 0) :
    Clusters.Reaches Ext2.nextBlock row (f.blocksRequired limit) z := by
  refine ⟨hz, fun i hi => ?_, hstops⟩
  obtain ⟨b, hfetched, hb⟩ := hrow.held i (by omega)
  have hne : b ≠ 0 := fun heq => hheld i hi (heq ▸ hb)
  have hlt := h.numbered (f.ptr / f.ext2.blockSize + i)
  rw [Ext2.fetched_eq_fileBlock hfetched hne] at hlt
  exact ⟨b, hb, hne, Nat.mod_eq_of_lt hlt⟩

/-- The loop of a read up to the place where it ends. -/
theorem Row.loop (hrow : f.Row (f.blocksRequired limit) row) (h : f.WellFormed) (hlimit : limit ≤ f.filesize)
    (hz : z ≤ f.blocksRequired limit) (hheld : ∀ i < z, row[i]? ≠ some 0)
    (hstops : z = f.blocksRequired limit ∨ row[z]? = some 0) (tmp : Buffer) :
    Clusters.loop Ext2.nextBlock row (f.blocksRequired limit) .ok (f.ext2.getBlocks (f.tmpSize limit))
        (f.blocksRequired limit + 1) 0 none 0 tmp =
      Clusters.loop Ext2.nextBlock row (f.blocksRequired limit) .ok (f.ext2.getBlocks (f.tmpSize limit))
        (f.blocksRequired limit - z + 1) z none z (filled f.ext2 row z tmp) := by
  have htransfer : ∀ done first needed s, done + needed ≤ z →
      f.ext2.getBlocks (f.tmpSize limit) done first needed s =
        .ok (Clusters.moveRow f.ext2.getBlock needed done first s) := fun done first needed s hle =>
    getBlocks_eq (le_trans (Nat.mul_le_mul_right _ (hle.trans hz)) (h.required_le_tmpSize hlimit))
  rw [← moveEach_getBlock, ← (hrow.reaches h hz hheld hstops).loop htransfer]
  congr 1
  omega

theorem Row.loop_at_zero (hrow : f.Row (f.blocksRequired limit) row) (h : f.WellFormed) (hlimit : limit ≤ f.filesize)
    (hz : z ≤ f.blocksRequired limit) (hheld : ∀ i < z, row[i]? ≠ some 0) (hzero : row[z]? = some 0) (tmp : Buffer) :
    Clusters.loop Ext2.nextBlock row (f.blocksRequired limit) .ok (f.ext2.getBlocks (f.tmpSize limit))
      (f.blocksRequired limit + 1) 0 none 0 tmp = .ok (filled f.ext2 row z tmp) := by
  rw [hrow.loop h hlimit hz hheld (.inr hzero), Clusters.loop, Clusters.entry_of_getElem? hzero, Exec.ok_bind,
    if_pos rfl]

/-- Behind the last block the look ahead leaves the row. -/
theorem Row.loop_without_zero (hrow : f.Row (f.blocksRequired limit) row) (h : f.WellFormed)
    (hlimit : limit ≤ f.filesize) (hheld : ∀ i ≤ f.blocksRequired limit, row[i]? ≠ some 0) (tmp : Buffer) :
    Clusters.loop Ext2.nextBlock row (f.blocksRequired limit) .ok (f.ext2.getBlocks (f.tmpSize limit))
      (f.blocksRequired limit + 1) 0 none 0 tmp = .error .fault := by
  obtain ⟨b, -, hb⟩ := hrow.held (f.blocksRequired limit) le_rfl
  have hne : b ≠ 0 := fun heq => hheld _ le_rfl (heq ▸ hb)
  have hbehind : Clusters.entry row (f.blocksRequired limit + 1) = .error .fault := by
    rw [Clusters.entry, List.getElem?_eq_none (by rw [hrow.length])]
  rw [hrow.loop h hlimit le_rfl (fun i hi => hheld i hi.le) (.inl rfl), Clusters.loop, Clusters.entry_of_getElem? hb,
    Exec.ok_bind, if_neg hne, Clusters.goesOn, if_neg (Nat.succ_ne_self _), hbehind]
  rfl

/-- The head and the rest of a range are one piece of the buffer. -/
theorem head_append_rest (tmp : Buffer) {start size limit : ℕ} (h : start < size) :
    Bytes.read tmp start (min (size - start) limit) ++
        (if min (size - start) limit < limit then Bytes.read tmp size (limit - min (size - start) limit) else []) =
      Bytes.read tmp start limit := by
  rcases Nat.lt_or_ge (size - start) limit with hlt | hge
  · rw [min_eq_left hlt.le, if_pos hlt]
    conv_lhs => rw [show size = start + (size - start) by omega]
    rw [Nat.add_sub_cancel_left, Bytes.read_append, Nat.add_sub_cancel' hlt.le]
  · rw [min_eq_right hge, if_neg (lt_irrefl _), List.append_nil]

theorem ext2ReadInner_of_fetchedAll (h : f.WellFormed)
    (hall : f.ext2.fetchedAll f.inode (f.blocksRequired limit + 1) (f.ptr / f.ext2.blockSize) = .ok row) :
    ∃ control, ∀ tmp, f.ext2ReadInner tmp limit =
      (Clusters.loop Ext2.nextBlock row (f.blocksRequired limit) .ok (f.ext2.getBlocks (f.tmpSize limit))
        (f.blocksRequired limit + 1) 0 none 0 tmp >>= fun tmp =>
      .ok (Bytes.read tmp (f.ptr % f.ext2.blockSize) limit,
        { f with lookup := control, ptr := wrap (f.ptr + limit) })) := by
  obtain ⟨control, -, hchain⟩ := h.fresh.chain f.inode (f.blocksRequired limit + 1) (f.ptr / f.ext2.blockSize)
  refine ⟨control, fun tmp => ?_⟩
  unfold ext2ReadInner
  dsimp only
  rw [hchain, hall, Except.map_ok, Exec.ok_bind]
  dsimp only
  congr 1
  funext tmp
  rw [head_append_rest tmp (Nat.mod_lt _ h.pos)]

theorem Row.of_fetchedAll
    (hall : f.ext2.fetchedAll f.inode (f.blocksRequired limit + 1) (f.ptr / f.ext2.blockSize) = .ok row) :
    f.Row (f.blocksRequired limit) row := by
  obtain ⟨hlength, hheld⟩ := Ext2.fetchedAll_ok_iff.mp hall
  exact ⟨hlength, fun i hi => hheld i (Nat.lt_succ_of_le hi)⟩

/-- A read that answers has met a block that is not there, and took the blocks before it. -/
theorem ext2ReadInner_ok (h : f.WellFormed) (hlimit : limit ≤ f.filesize) {tmp : Buffer}
    {answer : List (BitVec 8) × Ext2File} (hok : f.ext2ReadInner tmp limit = .ok answer) :
    ∃ row z, f.Row (f.blocksRequired limit) row ∧ z ≤ f.blocksRequired limit ∧ row[z]? = some 0 ∧
      (∀ i < z, row[i]? ≠ some 0) ∧ ∃ control, ∀ tmp, f.ext2ReadInner tmp limit =
        .ok (Bytes.read (filled f.ext2 row z tmp) (f.ptr % f.ext2.blockSize) limit,
          { f with lookup := control, ptr := wrap (f.ptr + limit) }) := by
  have hall : ∃ row, f.ext2.fetchedAll f.inode (f.blocksRequired limit + 1) (f.ptr / f.ext2.blockSize) = .ok row := by
    obtain ⟨control, -, hchain⟩ := h.fresh.chain f.inode (f.blocksRequired limit + 1) (f.ptr / f.ext2.blockSize)
    unfold ext2ReadInner at hok
    dsimp only at hok
    rw [hchain] at hok
    cases hall : f.ext2.fetchedAll f.inode (f.blocksRequired limit + 1) (f.ptr / f.ext2.blockSize) with
    | ok row => exact ⟨row, rfl⟩
    | error stop =>
      rw [hall] at hok
      cases hok
  obtain ⟨row, hall⟩ := hall
  have hrow := Row.of_fetchedAll hall
  obtain ⟨control, hread⟩ := ext2ReadInner_of_fetchedAll h hall
  by_cases hexists : ∃ z, z ≤ f.blocksRequired limit ∧ row[z]? = some 0
  · classical
    refine ⟨row, Nat.find hexists, hrow, (Nat.find_spec hexists).1, (Nat.find_spec hexists).2, fun i hi hzero => ?_,
      control, fun tmp => ?_⟩
    · exact Nat.find_min hexists hi ⟨hi.le.trans (Nat.find_spec hexists).1, hzero⟩
    · rw [hread, hrow.loop_at_zero h hlimit (Nat.find_spec hexists).1
        (fun i hi hzero => Nat.find_min hexists hi ⟨hi.le.trans (Nat.find_spec hexists).1, hzero⟩)
        (Nat.find_spec hexists).2, Exec.ok_bind]
  · rw [hread, hrow.loop_without_zero h hlimit fun i hi hzero => hexists ⟨i, hi, hzero⟩] at hok
    cases hok

/-- A place of the range lies as far from the start of its block in the buffer as in the file. -/
theorem place_div (f : Ext2File) (i : ℕ) : (f.ptr + i) / f.ext2.blockSize =
    f.ptr / f.ext2.blockSize + (f.ptr % f.ext2.blockSize + i) / f.ext2.blockSize := by
  conv_lhs => rw [← Nat.div_add_mod f.ptr f.ext2.blockSize, Nat.add_assoc]
  rcases Nat.eq_zero_or_pos f.ext2.blockSize with hzero | hpos
  · rw [hzero, Nat.div_zero, Nat.div_zero, Nat.div_zero]
  · rw [Nat.mul_add_div hpos]

theorem place_mod (f : Ext2File) (i : ℕ) :
    (f.ptr + i) % f.ext2.blockSize = (f.ptr % f.ext2.blockSize + i) % f.ext2.blockSize :=
  (Nat.mod_add_mod f.ptr f.ext2.blockSize i).symm

/-- A byte of a block that was taken is the file's. -/
theorem Row.filled_eq_fileByte (hrow : f.Row (f.blocksRequired limit) row) (hz : z ≤ f.blocksRequired limit)
    (hheld : ∀ i < z, row[i]? ≠ some 0) (tmp : Buffer) {i : ℕ}
    (hi : (f.ptr % f.ext2.blockSize + i) / f.ext2.blockSize < z) :
    filled f.ext2 row z tmp (f.ptr % f.ext2.blockSize + i) = f.ext2.fileByte f.inode (f.ptr + i) := by
  obtain ⟨b, hfetched, hb⟩ := hrow.held _ (hi.le.trans hz)
  have hne : b ≠ 0 := fun heq => hheld _ hi (heq ▸ hb)
  unfold filled Ext2.fileByte
  rw [if_pos hi, Clusters.getD_of_getElem? hb, place_div, place_mod, Ext2.fetched_eq_fileBlock hfetched hne, if_neg hne]

/-- Of a range that is read in full whatever the buffer held, the last byte is in a block that was taken. -/
theorem last_taken (hpos : 0 < limit)
    (hread : ∀ tmp, Bytes.read (filled f.ext2 row z tmp) (f.ptr % f.ext2.blockSize) limit = f.bytes f.ptr limit) :
    (f.ptr % f.ext2.blockSize + (limit - 1)) / f.ext2.blockSize < z := by
  by_contra hnot
  have hlast := Bytes.read_eq_read_iff.mp (hread fun _ => ~~~ f.ext2.fileByte f.inode (f.ptr + (limit - 1)))
    (limit - 1) (by omega)
  rw [filled, if_neg hnot] at hlast
  have hnot_eq : ∀ x : BitVec 8, ~~~x ≠ x := by decide
  exact hnot_eq _ hlast

theorem div_lt_iff_required {size start required : ℕ} (hsize : 0 < size) (hpos : 0 < limit)
    (hrequired : required = (limit + size - 1) / size) (hz : z ≤ required) :
    (start + (limit - 1)) / size < z ↔ z = required ∧ start + limit ≤ required * size := by
  have hceil : required = (limit - 1) / size + 1 := by
    rw [hrequired, show limit + size - 1 = limit - 1 + size by omega, Nat.add_div_right _ hsize]
  have hmono : (limit - 1) / size ≤ (start + (limit - 1)) / size := Nat.div_le_div_right (Nat.le_add_left _ _)
  constructor
  · intro hlt
    obtain rfl : z = required := by omega
    have := (Nat.div_lt_iff_lt_mul hsize).mp hlt
    exact ⟨rfl, by omega⟩
  · rintro ⟨rfl, hle⟩
    exact (Nat.div_lt_iff_lt_mul hsize).mpr (by omega)

theorem EndsWithFile.of_readsInner (h : f.WellFormed) (hlimit : limit ≤ f.filesize) (hreads : f.ReadsInner limit) :
    f.EndsWithFile limit := by
  obtain ⟨f', hfirst, -⟩ := hreads fun _ => 0
  obtain ⟨row, z, hrow, hz, hzero, hheld, control, hanswer⟩ := ext2ReadInner_ok h hlimit hfirst
  have hread : ∀ tmp, Bytes.read (filled f.ext2 row z tmp) (f.ptr % f.ext2.blockSize) limit = f.bytes f.ptr limit := by
    intro tmp
    obtain ⟨g, hg, -⟩ := hreads tmp
    rw [hanswer tmp] at hg
    exact congrArg Prod.fst (Except.ok.inj hg)
  have hrequired := h.blocksRequired_eq hlimit
  have hend : z = f.blocksRequired limit ∧
      (limit = 0 ∨ f.ptr % f.ext2.blockSize + limit ≤ f.blocksRequired limit * f.ext2.blockSize) := by
    rcases Nat.eq_zero_or_pos limit with rfl | hpos
    · have hnone : f.blocksRequired 0 = 0 := by
        have := h.pos
        rw [hrequired]
        exact Nat.div_eq_of_lt (by omega)
      exact ⟨by omega, .inl rfl⟩
    · have hlast := (div_lt_iff_required h.pos hpos hrequired hz).mp (last_taken hpos hread)
      exact ⟨hlast.1, .inr hlast.2⟩
  obtain ⟨rfl, hfits⟩ := hend
  refine ⟨fun i hi => ?_, ?_, hfits⟩
  · obtain ⟨b, hfetched, hb⟩ := hrow.held i hi.le
    exact ⟨b, hfetched, fun heq => hheld i hi (heq ▸ hb)⟩
  · obtain ⟨b, hfetched, hb⟩ := hrow.held _ le_rfl
    cases hb.symm.trans hzero
    exact hfetched

theorem EndsWithFile.readsInner (hends : f.EndsWithFile limit) (h : f.WellFormed)
    (hlimit : f.ptr + limit ≤ f.filesize) : f.ReadsInner limit := by
  obtain ⟨hthere, hbehind, hfits⟩ := hends
  have hle : limit ≤ f.filesize := le_of_add_le_right hlimit
  obtain ⟨row, hall⟩ : ∃ row, f.ext2.fetchedAll f.inode (f.blocksRequired limit + 1) (f.ptr / f.ext2.blockSize) =
      .ok row := by
    refine Ext2.exists_fetchedAll fun i hi => ?_
    rcases Nat.lt_succ_iff_lt_or_eq.mp hi with hlt | rfl
    · exact (hthere i hlt).imp fun b hb => hb.1
    · exact ⟨0, hbehind⟩
  have hrow := Row.of_fetchedAll hall
  have hheld : ∀ i < f.blocksRequired limit, row[i]? ≠ some 0 := by
    intro i hi hzero
    obtain ⟨b, hfetched, hb⟩ := hrow.held i hi.le
    obtain ⟨b', hfetched', hne⟩ := hthere i hi
    cases hfetched.symm.trans hfetched'
    cases hb.symm.trans hzero
    exact hne rfl
  have hzero : row[f.blocksRequired limit]? = some 0 := by
    obtain ⟨b, hfetched, hb⟩ := hrow.held _ le_rfl
    cases hfetched.symm.trans hbehind
    exact hb
  obtain ⟨control, hread⟩ := ext2ReadInner_of_fetchedAll h hall
  intro tmp
  refine ⟨{ f with lookup := control, ptr := wrap (f.ptr + limit) }, ?_, ?_⟩
  · rw [hread, hrow.loop_at_zero h hle le_rfl hheld hzero, Exec.ok_bind, Except.ok.injEq, Prod.mk.injEq]
    refine ⟨Bytes.read_eq_read_iff.mpr fun i hi => hrow.filled_eq_fileByte le_rfl hheld tmp ?_, rfl⟩
    have hfits := hfits.resolve_left (by omega)
    exact (Nat.div_lt_iff_lt_mul h.pos).mpr (by omega)
  · have := h.filesize_lt
    exact wrap_of_lt (by omega)

end Read

/-- A file whose first blocks are 5, 6 and so on; each is full of its own number. -/
def rowOfBlocks (n size : ℕ) : Ext2File where
  ext2 :=
    { blockSize := 1024, blockGroups := 1, superblock := ⟨64, 0, 1, 64⟩, bgdts := fun _ => ⟨3, 0⟩
      disk := fun block _ => BitVec.ofNat 8 block }
  group := 0
  stored := ⟨0x81A4, size, 0, 2 * n, fun i => if i < n then 5 + i else 0⟩
  inode := ⟨0x81A4, size, 0, 2 * n, fun i => if i < n then 5 + i else 0⟩
  lookup := ⟨fun _ => 0, 0, fun _ => 0, 0⟩
  ptr := 0

theorem rowOfBlocks_wellFormed {n size : ℕ} (hn : n ≤ 12) (hsize : size ≤ 12288) :
    (rowOfBlocks n size).WellFormed where
  pos := Nat.succ_pos 1023
  bounded := by
    change 1024 ≤ 2 ^ 16
    norm_num
  sized := by
    have hfile : (rowOfBlocks n size).filesize = size := by rw [filesize, rowOfBlocks, Nat.zero_mul, Nat.zero_add]
    have hitems : (rowOfBlocks n size).ext2.itemsPerBlock = 256 := by norm_num [Ext2.itemsPerBlock, rowOfBlocks]
    rw [hfile, hitems, show (rowOfBlocks n size).ext2.blockSize = 1024 from rfl]
    omega
  numbered := fun curr => by
    have hnone : ∀ i, 12 ≤ i → (rowOfBlocks n size).inode.blocks i = 0 := fun i hi => if_neg (by omega)
    unfold Ext2.fileBlock
    dsimp only
    rw [hnone 12 le_rfl, hnone 13 (by omega), hnone 14 (by omega), Ext2.pointed_zero, Ext2.pointed_zero, Ext2.pointed_zero]
    have hblock : (rowOfBlocks n size).inode.blocks curr ≤ 5 + n := by
      change (if curr < n then 5 + curr else 0) ≤ 5 + n
      split_ifs <;> omega
    split_ifs <;> omega
  fresh := ⟨fun h => absurd rfl h, fun h => absurd rfl h⟩

end Ext2File

end DualFuse.Filesystems
