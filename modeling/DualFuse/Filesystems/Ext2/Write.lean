import DualFuse.Filesystems.Ext2.ReadInner
import DualFuse.Filesystems.Vfs

/-! Writing to a file of ext2 (`ext2Write` of `filesystems/ext2/ext2_controller.c`, with
`ext2BlockAssign` and `ext2BlockSizeCalculate` of `ext2_util.c`). The part of a write that
begins inside a block is put into that block; the blocks of the rest are looked up, and from
the first that is missing on all of them are allocated anew. The inode on disk is kept apart
from the blocks; locks and the cache are left out. -/

namespace DualFuse.Filesystems

open Library Utility

/-- What a call on a file returns: a number, or an error by its number. -/
inductive FileAnswer where
  | value (n : ℕ)
  | error (errno : ℕ)
  deriving DecidableEq, Repr

/-- The answer as a `size_t`. -/
def FileAnswer.toSize : FileAnswer → ℕ
  | value n => n
  | error errno => 2 ^ 64 - errno

def oWronly : ℕ := 1

def oAppend : ℕ := 0x400

/-- `S_IFDIR`. -/
def sIfdir : ℕ := 0x4000

namespace Ext2

def setItem (b : Block) (i v : ℕ) : Block := Bytes.writeNat b (4 * i) 4 v

def setBlock (e : Ext2) (block : ℕ) (b : Block) : Ext2 := { e with disk := Function.update e.disk block b }

/-- A block is written from a place of a buffer of blocks. -/
def putBlock (e : Ext2) (tmp : Buffer) (done block : ℕ) (disk : ℕ → Block) : ℕ → Block :=
  Function.update disk block fun k => if k < e.blockSize then tmp (done * e.blockSize + k) else disk block k

/-- `set_disk_bytes` of blocks that follow each other, from a buffer of `size` bytes. -/
def putBlocks (e : Ext2) (size : ℕ) (tmp : Buffer) (done first needed : ℕ) (disk : ℕ → Block) : Exec (ℕ → Block) :=
  if (done + needed) * e.blockSize ≤ size then
    .ok fun block =>
      if first ≤ block ∧ block < first + needed then
        fun k => if k < e.blockSize then tmp ((done + (block - first)) * e.blockSize + k) else disk block k
      else disk block
  else .error .fault

/-- The bytes of a file of this size with its indirect blocks; of the third level there are none. -/
def ext2BlockSizeCalculate (e : Ext2) (raw : ℕ) : Exec ℕ :=
  let blocks := ceilingDivision raw e.blockSize % 2 ^ 32
  let perSpecial := e.blockSize / 4
  let singlyBase := 12 + perSpecial
  let doublyBase := singlyBase + perSpecial * perSpecial
  if blocks < 12 then .ok (wrap (blocks * e.blockSize))
  else if blocks < singlyBase then .ok (wrap ((blocks + 1) * e.blockSize))
  else if blocks < doublyBase then
    .ok (wrap ((blocks + 2 + ceilingDivision (blocks - singlyBase) perSpecial) * e.blockSize))
  else .error .halt

end Ext2

namespace Ext2File

/-- `ext2InodeModifyM` of the descriptor's inode. -/
def modifyInode (f : Ext2File) (inode : FileInode) : Ext2File := { f with inode := inode, stored := inode }

def setPointer (f : Ext2File) (i block : ℕ) : Ext2File :=
  f.modifyInode { f.inode with blocks := Function.update f.inode.blocks i block }

/-- The indirect block of the first level is allocated where there is none. -/
def singlyIndirect (f : Ext2File) : Exec (Ext2File × Bool) :=
  if f.inode.blocks 12 = 0 then do
    let (e, block) ← f.ext2.ext2BlockFind f.group 1
    .ok ({ f with ext2 := e }.setPointer 12 block, true)
  else .ok (f, false)

/-- An entry of the indirect block of the first level is stored, after all others were cleared in
a new one. -/
def assignItem (f : Ext2File) (noninit : Bool) (place val : ℕ) : Ext2File :=
  let control := f.ext2.loadTmp1 f.lookup (f.inode.blocks 12)
  let tmp1 := Ext2.setItem (if noninit then fun _ => 0 else control.tmp1) place val
  { f with lookup := { control with tmp1 := tmp1 }, ext2 := f.ext2.setBlock (f.inode.blocks 12) tmp1 }

def ext2BlockAssign (f : Ext2File) (curr val : ℕ) : Exec Ext2File :=
  if curr < 12 then .ok (f.setPointer curr val)
  else if curr < 12 + f.ext2.itemsPerBlock then do
    let (f, noninit) ← f.singlyIndirect
    .ok (f.assignItem noninit (curr - 12) val)
  else .error .halt

/-- Blocks that follow each other are assigned to places that do. -/
def assignRun : (n curr val : ℕ) → Ext2File → Exec Ext2File
  | 0, _, _, f => .ok f
  | n + 1, curr, val, f => do
    let f ← f.ext2BlockAssign curr val
    assignRun n (curr + 1) (Ext2.nextBlock val) f

/-- Blocks from `val` on, as 32-bit numbers. -/
def runFrom : (n val : ℕ) → List ℕ
  | 0, _ => []
  | n + 1, val => val :: runFrom n (Ext2.nextBlock val)

/-- From the first place without a block on, all places get new ones. -/
def allocateBlocks (f : Ext2File) (first : ℕ) (blocks : List ℕ) : Exec (List ℕ × Ext2File) :=
  match blocks.findIdx? (· == 0) with
  | none => .ok (blocks, f)
  | some startsAt => do
    let needed := blocks.length - startsAt
    let (e, freeBlocks) ← f.ext2.ext2BlockFind f.group needed
    let f ← assignRun needed (first + startsAt) freeBlocks { f with ext2 := e }
    .ok (blocks.take startsAt ++ runFrom needed freeBlocks, f)

/-- The part of a write that begins inside a block. Where the file has no block there, this is
block zero. -/
def writeHead (f : Ext2File) (place : ℕ) (data : List (BitVec 8)) : Exec Ext2File := do
  let (block, lookup) ← f.ext2.ext2BlockFetch f.inode f.lookup place
  let tmp := Bytes.write (f.ext2.disk block) (f.ptr % f.ext2.blockSize) data
  .ok { f with ext2 := f.ext2.setBlock block tmp, lookup := lookup, ptr := wrap (f.ptr + data.length) }

/-- What is written to `required` blocks: of the last one, the end is what it held. -/
def fillBlocks (e : Ext2) (tmp : Buffer) (blocks : List ℕ) (required : ℕ) (data : List (BitVec 8)) : Buffer :=
  let tmp := e.getBlock 0 (blocks.getD 0 0) tmp
  let target := required - 1
  let tmp := if 0 < target then e.getBlock target (blocks.getD target 0) tmp else tmp
  Bytes.write tmp 0 data

/-- The part of a write from the start of a block on. More blocks than an `int` counts do not fit
into the buffer. -/
def writeBlocks (f : Ext2File) (tmp : Buffer) (first : ℕ) (data : List (BitVec 8)) : Exec Ext2File :=
  let required := ceilingDivision data.length f.ext2.blockSize
  if 2 ^ 31 ≤ required then .error .fault
  else do
    let (blocks, lookup) ← f.ext2.ext2BlockChain f.inode required first f.lookup
    let (blocks, f) ← { f with lookup := lookup }.allocateBlocks first blocks
    let tmpSize := ceilingDivision ((required + 1) * f.ext2.blockSize) 4096 * 4096
    let disk ← Clusters.loop Ext2.nextBlock blocks required (fun _ => .error .halt)
      (f.ext2.putBlocks tmpSize (fillBlocks f.ext2 tmp blocks required data)) required 0 none 0 f.ext2.disk
    .ok { f with ext2 := { f.ext2 with disk := disk }, ptr := wrap (f.ptr + data.length) }

/-- The position is behind the end in the low word of the size. -/
def updateSize (f : Ext2File) : Exec Ext2File :=
  if f.inode.size < f.ptr then do
    let bytes ← f.ext2.ext2BlockSizeCalculate (f.ptr % 2 ^ 32)
    .ok (f.modifyInode { f.inode with size := f.ptr % 2 ^ 32, numSectors := bytes / 512 % 2 ^ 32 })
  else .ok f

/-- How many bytes lie in a block that begins before them. -/
def headLength (f : Ext2File) (limit : ℕ) : ℕ :=
  if 0 < f.ptr % f.ext2.blockSize then min (f.ext2.blockSize - f.ptr % f.ext2.blockSize) limit else 0

/-- The number of a block, as the `int` that counts blocks before the position. -/
def asPlace (block : ℕ) : ℕ := intToSize (wrapInt block)

def headStep (f : Ext2File) (buff : List (BitVec 8)) : Exec Ext2File :=
  if 0 < f.ptr % f.ext2.blockSize then
    f.writeHead (asPlace (f.ptr / f.ext2.blockSize)) (buff.take (f.headLength buff.length))
  else .ok f

/-- The first block of the rest of a write. -/
def restPlace (f : Ext2File) : ℕ :=
  if 0 < f.ptr % f.ext2.blockSize then f.ptr / f.ext2.blockSize + 1 else f.ptr / f.ext2.blockSize

def restStep (f : Ext2File) (tmp : Buffer) (first : ℕ) (data : List (BitVec 8)) : Exec Ext2File :=
  if data = [] then .ok f else f.writeBlocks tmp (asPlace first) data

/-- The write at the position. -/
def writeAt (f : Ext2File) (tmp : Buffer) (buff : List (BitVec 8)) : Exec Ext2File := do
  let f' ← f.headStep buff
  let f' ← f'.restStep tmp f.restPlace (buff.drop (f.headLength buff.length))
  f'.updateSize

/-- With `O_APPEND` the write is at the end, and the position stays. -/
def ext2Write (f : Ext2File) (flags : ℕ) (tmp : Buffer) (buff : List (BitVec 8)) : Exec (FileAnswer × Ext2File) :=
  if f.inode.permission &&& sIfdir ≠ 0 then .ok (.error 21, f)
  else if flags &&& oAppend ≠ 0 then do
    let f' ← { f with ptr := f.filesize }.writeAt tmp buff
    .ok (.value buff.length, { f' with ptr := f.ptr })
  else do
    let f' ← f.writeAt tmp buff
    .ok (.value buff.length, f')

end Ext2File

end DualFuse.Filesystems
