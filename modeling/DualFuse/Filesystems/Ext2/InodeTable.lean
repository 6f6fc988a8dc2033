import DualFuse.Library.Bytes
import DualFuse.Library.Execution
import DualFuse.Utility.Words

/-! The table of inodes on disk (`ext2InodeFetch` and `ext2InodeModifyM` of
`filesystems/ext2/ext2_inode.c`). An inode is found in a window of whole sectors, which is
read, and written back when the inode changes. The disk is a row of bytes; the driver takes
the number of a sector as 32 bits. Locks are left out. -/

namespace DualFuse.Filesystems

open Library Utility

/-- What the places of inodes depend on: the start of the partition in sectors, the sizes, and
the first block of the table of each group. -/
structure InodeTable where
  offsetBase : ℕ
  blockSize : ℕ
  inodesPerGroup : ℕ
  totalInodes : ℕ
  inodeSize : ℕ
  tables : ℕ → ℕ

namespace InodeTable

/-- `sizeof(Ext2Inode)`. -/
def inodeBytes : ℕ := 128

def sectorBytes : ℕ := 512

def group (t : InodeTable) (inode : ℕ) : ℕ := (inode - 1) / t.inodesPerGroup

def index (t : InodeTable) (inode : ℕ) : ℕ := (inode - 1) % t.inodesPerGroup

def leftovers (t : InodeTable) (inode : ℕ) : ℕ := t.index inode * t.inodeSize

def leftoversRem (t : InodeTable) (inode : ℕ) : ℕ := t.leftovers inode % sectorBytes

/-- `BLOCK_TO_LBA(ext2, 0, block)`. -/
def blockToLba (t : InodeTable) (block : ℕ) : ℕ := t.offsetBase + block * t.blockSize / sectorBytes

def lba (t : InodeTable) (inode : ℕ) : ℕ :=
  t.blockToLba (t.tables (t.group inode)) + t.leftovers inode / sectorBytes

/-- The bytes of the window. -/
def len (t : InodeTable) : ℕ := ceilingDivision (t.inodeSize * 4) sectorBytes * sectorBytes

/-- Where the driver finds the window. -/
def window (t : InodeTable) (inode : ℕ) : ℕ := t.lba inode % 2 ^ 32 * sectorBytes

def ext2InodeFetch (t : InodeTable) (disk : ℕ → BitVec 8) (inode : ℕ) : Exec (List (BitVec 8)) :=
  let buf := Bytes.read disk (t.window inode) t.len
  if t.leftoversRem inode + t.inodeSize ≤ t.len then .ok ((buf.drop (t.leftoversRem inode)).take t.inodeSize)
  else .error .fault

def ext2InodeModifyM (t : InodeTable) (disk : ℕ → BitVec 8) (inode : ℕ) (target : List (BitVec 8)) :
    Exec (ℕ → BitVec 8) :=
  let buf := Bytes.read disk (t.window inode) t.len
  let rem := t.leftoversRem inode
  if rem + inodeBytes ≤ t.len then
    .ok (Bytes.write disk (t.window inode) (buf.take rem ++ target ++ buf.drop (rem + inodeBytes)))
  else .error .fault

/-! ### The places of inodes -/

/-- Where an inode is on disk. -/
def place (t : InodeTable) (inode : ℕ) : ℕ :=
  t.blockToLba (t.tables (t.group inode)) * sectorBytes + t.leftovers inode

def Valid (t : InodeTable) (inode : ℕ) : Prop := 1 ≤ inode ∧ inode ≤ t.totalInodes

/-- An image that is mounted: the size of inodes is a 16-bit field that is not checked, and no two
inodes have places in common. -/
structure Mounted (t : InodeTable) : Prop where
  field : t.inodeSize < 2 ^ 16
  nonempty : 1 ≤ t.totalInodes
  apart : ∀ n m, t.Valid n → t.Valid m → n ≠ m →
    t.place n + t.inodeSize ≤ t.place m ∨ t.place m + t.inodeSize ≤ t.place n

/-- An inode that was modified is fetched again, all others are fetched as before, and no byte of
the disk changes outside of the inode. -/
def Accessed (t : InodeTable) (disk : ℕ → BitVec 8) (inode : ℕ) (target : List (BitVec 8)) : Prop :=
  ∃ disk', t.ext2InodeModifyM disk inode target = .ok disk' ∧
    (∃ found, t.ext2InodeFetch disk' inode = .ok found ∧ found.take inodeBytes = target) ∧
    (∀ other, t.Valid other → other ≠ inode →
      ∃ found, t.ext2InodeFetch disk other = .ok found ∧ t.ext2InodeFetch disk' other = .ok found) ∧
    ∀ i, i < t.place inode ∨ t.place inode + inodeBytes ≤ i → disk' i = disk i

def Accesses (t : InodeTable) : Prop :=
  ∀ disk inode target, t.Valid inode → target.length = inodeBytes → t.Accessed disk inode target

section Places
variable {t : InodeTable} {disk : ℕ → BitVec 8} {inode : ℕ} {target : List (BitVec 8)}

theorem place_eq (t : InodeTable) (inode : ℕ) : t.place inode = t.lba inode * sectorBytes + t.leftoversRem inode := by
  unfold place lba leftoversRem
  rw [Nat.add_mul, Nat.add_assoc, Nat.div_add_mod']

/-- The window holds the inode it is read for, whatever its place in the first sector. -/
theorem rem_add_le_len (hsize : inodeBytes ≤ t.inodeSize) (hfield : t.inodeSize < 2 ^ 16) :
    t.leftoversRem inode + t.inodeSize ≤ t.len := by
  unfold len
  rw [ceilingDivision_eq (by decide) (by unfold sectorBytes; omega)]
  unfold leftoversRem leftovers inodeBytes sectorBytes at *
  rcases hsize.eq_or_lt with heq | hlt
  · rw [← heq]
    omega
  · have := Nat.mod_lt (t.index inode * t.inodeSize) (show 512 > 0 by decide)
    omega

theorem ext2InodeFetch_eq (hsize : inodeBytes ≤ t.inodeSize) (hfield : t.inodeSize < 2 ^ 16)
    (hlba : t.lba inode < 2 ^ 32) : t.ext2InodeFetch disk inode = .ok (Bytes.read disk (t.place inode) t.inodeSize) := by
  have hle : t.leftoversRem inode + t.inodeSize ≤ t.len := rem_add_le_len hsize hfield
  unfold ext2InodeFetch
  dsimp only
  rw [if_pos hle, Bytes.take_drop_read hle, place_eq, window, Nat.mod_eq_of_lt hlba]

theorem ext2InodeModifyM_eq (hsize : inodeBytes ≤ t.inodeSize) (hfield : t.inodeSize < 2 ^ 16)
    (hlba : t.lba inode < 2 ^ 32) (htarget : target.length = inodeBytes) :
    t.ext2InodeModifyM disk inode target = .ok (Bytes.write disk (t.place inode) target) := by
  have hle : t.leftoversRem inode + t.inodeSize ≤ t.len := rem_add_le_len hsize hfield
  have hfits : t.leftoversRem inode + target.length ≤ t.len := by omega
  unfold ext2InodeModifyM
  dsimp only
  rw [if_pos (by omega), ← htarget, Bytes.write_patched hfits, place_eq, window, Nat.mod_eq_of_lt hlba]

/-- The size of an inode and the sectors of the windows are ones that the code can handle. -/
structure Handled (t : InodeTable) : Prop where
  size : inodeBytes ≤ t.inodeSize
  sectors : ∀ inode, t.Valid inode → t.lba inode < 2 ^ 32

theorem Handled.accesses (h : t.Handled) (hmounted : t.Mounted) : t.Accesses := by
  intro disk inode target hvalid htarget
  have hlba := h.sectors inode hvalid
  have hsize := h.size
  refine ⟨_, ext2InodeModifyM_eq h.size hmounted.field hlba htarget, ?_, fun other hother hne => ?_, fun i hi => ?_⟩
  · refine ⟨_, ext2InodeFetch_eq h.size hmounted.field hlba, ?_⟩
    have htake := Bytes.take_drop_read (b := Bytes.write disk (t.place inode) target) (o := t.place inode)
      (show 0 + inodeBytes ≤ t.inodeSize by omega)
    rw [List.drop_zero, Nat.add_zero, ← htarget, Bytes.read_write] at htake
    rw [← htarget]
    exact htake
  · have hlba' := h.sectors other hother
    refine ⟨_, ext2InodeFetch_eq h.size hmounted.field hlba', ?_⟩
    rw [ext2InodeFetch_eq h.size hmounted.field hlba', Bytes.read_write_of_disjoint]
    have hapart := hmounted.apart other inode hother hvalid hne
    omega
  · rcases hi with hlt | hge
    · exact Bytes.write_of_lt hlt
    · exact Bytes.write_of_ge (by omega)

/-- The inode that is written lies where the window was read. -/
theorem modified_window {disk' : ℕ → BitVec 8} (hok : t.ext2InodeModifyM disk inode target = .ok disk')
    (htarget : target.length = inodeBytes) :
    disk' = Bytes.write disk (t.window inode + t.leftoversRem inode) target := by
  unfold ext2InodeModifyM at hok
  dsimp only at hok
  split_ifs at hok with hle
  rw [← htarget] at hle hok
  rw [Bytes.write_patched hle] at hok
  exact (Except.ok.inj hok).symm

theorem Handled.of_accesses (hmounted : t.Mounted) (h : t.Accesses) : t.Handled where
  size := by
    have hfirst : t.Valid 1 := ⟨le_rfl, hmounted.nonempty⟩
    obtain ⟨disk', -, ⟨found, hfound, htake⟩, -⟩ :=
      h (fun _ => 0) 1 (List.replicate inodeBytes 0) hfirst List.length_replicate
    unfold ext2InodeFetch at hfound
    dsimp only at hfound
    split_ifs at hfound with hle
    have hlength := congrArg List.length htake
    rw [← Except.ok.inj hfound, List.length_take, List.length_take, List.length_replicate] at hlength
    omega
  sectors := by
    intro inode hvalid
    by_contra hge
    -- the window is not where the inode is, and a byte there changes
    obtain ⟨disk', hmodify, -, -, hframe⟩ :=
      h (fun _ => 0) inode (List.replicate inodeBytes 1) hvalid List.length_replicate
    have hbefore : t.window inode + t.leftoversRem inode < t.place inode := by
      rw [place_eq, window]
      exact Nat.add_lt_add_right (Nat.mul_lt_mul_of_pos_right (by omega) (by decide)) _
    have hbyte := hframe _ (.inl hbefore)
    rw [modified_window hmodify List.length_replicate] at hbyte
    have hwritten := Bytes.write_inside (b := fun _ => 0) (o := t.window inode + t.leftoversRem inode)
      (l := List.replicate inodeBytes (1 : BitVec 8)) (i := 0) (by rw [List.length_replicate]; decide)
    rw [Nat.add_zero, hbyte, List.getElem_replicate] at hwritten
    exact (show (0 : BitVec 8) ≠ 1 by decide) hwritten

/-- Inodes are accessed one by one exactly if they have room for all fields and no sector number
overflows. -/
theorem accesses_iff_handled (h : t.Mounted) : t.Accesses ↔ t.Handled :=
  ⟨Handled.of_accesses h, fun hhandled => hhandled.accesses h⟩

end Places

/-- Two groups of 16 inodes, the second with its table in some block. -/
def twoGroups (inodeSize second : ℕ) : InodeTable :=
  ⟨0, 4096, 16, 32, inodeSize, fun group => if group = 0 then 4 else second⟩

theorem place_twoGroups (inodeSize second n : ℕ) : (twoGroups inodeSize second).place n =
    (if (n - 1) / 16 = 0 then 4 else second) * 4096 + (n - 1) % 16 * inodeSize := by
  change (0 + (if (n - 1) / 16 = 0 then 4 else second) * 4096 / 512) * 512 + (n - 1) % 16 * inodeSize = _
  omega

theorem twoGroups_mounted {inodeSize second : ℕ} (hsize : inodeSize ≤ 256) (hsecond : 5 ≤ second) :
    (twoGroups inodeSize second).Mounted where
  field := by
    change inodeSize < 2 ^ 16
    omega
  nonempty := show 1 ≤ 32 by decide
  apart := by
    intro n m hn hm hne
    have hin : ∀ k, (k - 1) % 16 * inodeSize + inodeSize ≤ 4096 := fun k => by
      calc (k - 1) % 16 * inodeSize + inodeSize = ((k - 1) % 16 + 1) * inodeSize := (Nat.succ_mul _ _).symm
        _ ≤ 16 * 256 := Nat.mul_le_mul (by omega) hsize
    have hnext : ∀ k l, (k - 1) % 16 < (l - 1) % 16 →
        (k - 1) % 16 * inodeSize + inodeSize ≤ (l - 1) % 16 * inodeSize := fun k l hlt => by
      rw [← Nat.succ_mul]
      exact Nat.mul_le_mul_right _ hlt
    have hn' : 1 ≤ n ∧ n ≤ 32 := hn
    have hm' : 1 ≤ m ∧ m ≤ 32 := hm
    have hinn := hin n
    have hinm := hin m
    rw [place_twoGroups, place_twoGroups]
    change _ + inodeSize ≤ _ ∨ _ + inodeSize ≤ _
    rcases Nat.lt_trichotomy ((n - 1) % 16) ((m - 1) % 16) with hlt | heq | hgt
    · have := hnext n m hlt
      split_ifs <;> omega
    · split_ifs <;> omega
    · have := hnext m n hgt
      split_ifs <;> omega

theorem accesses_sample : (twoGroups 128 5).Accesses := by
  refine (accesses_iff_handled (twoGroups_mounted (by decide) le_rfl)).mpr ⟨le_rfl, fun inode _ => ?_⟩
  change 0 + (if (inode - 1) / 16 = 0 then 4 else 5) * 4096 / 512 + (inode - 1) % 16 * 128 / 512 < 2 ^ 32
  split_ifs <;> omega

/-- The table of the second group begins 2 TiB behind the start of the disk, where the number of
the sector has 33 bits. -/
theorem far_table_not_accessed : ¬∀ t : InodeTable, t.Mounted → t.Accesses := by
  intro hall
  have hmounted : (twoGroups 128 (2 ^ 29)).Mounted := twoGroups_mounted (by decide) (by norm_num)
  have hsectors := (Handled.of_accesses hmounted (hall _ hmounted)).sectors 17 ⟨by decide, by decide⟩
  exact absurd hsectors (by decide)

end InodeTable

end DualFuse.Filesystems
