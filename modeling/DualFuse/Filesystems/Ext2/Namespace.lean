import DualFuse.Filesystems.Ext2.DirectoryRuns
import DualFuse.Library.NameTree

/-! The namespace of ext2: inodes and their bitmap (`ext2_inode.c`), paths
(`ext2TraversePath`), and the calls that create, link and delete names (`ext2_create.c`,
`ext2Link` and `ext2Delete` of `ext2_controller.c`). A directory is the list of its blocks;
what its size says about their number is left out, and so are the times and owners of an
inode, the data blocks of files and the locks. -/

namespace DualFuse.Filesystems

open Library

/-- `Ext2Inode`; the permission and the number of links have 16 bits. -/
structure Ext2Inode where
  permission : ℕ
  hardLinks : ℕ
  size : ℕ
  deriving DecidableEq, Repr

namespace Ext2Inode

def isDirectory (i : Ext2Inode) : Bool := i.permission &&& 0x4000 != 0

def isRegular (i : Ext2Inode) : Bool := i.permission &&& 0x8000 != 0

def isSymlink (i : Ext2Inode) : Bool := i.permission &&& 0xF000 == 0xA000

end Ext2Inode

/-- The inodes and the directories of a mounted file system. Each group has a bitmap of its
inodes. -/
structure Ext2Names where
  blockSize : ℕ
  inodesPerGroup : ℕ
  blockGroups : ℕ
  firstInode : ℕ
  freeInodes : ℕ
  groupFreeInodes : ℕ → ℕ
  inodeBitmap : ℕ → Block
  inodes : ℕ → Ext2Inode
  directory : ℕ → List Block

/-- What a call returns. -/
inductive Ext2Result where
  | success | enoent | eexist | eisdir | enotdir | enotempty | eperm | failed
  deriving DecidableEq, Repr

/-- The bytes of a path. -/
abbrev Path := List (BitVec 8)

def slash : BitVec 8 := 47

def dot : Filename := [46]

def dotdot : Filename := [46, 46]

def rootInode : ℕ := 2

/-- The place of the last slash. -/
def lastSlash : Path → Option ℕ
  | [] => none
  | c :: path =>
    match lastSlash path with
    | some i => some (i + 1)
    | none => if c = slash then some 0 else none

/-- The length of a name is passed on in a byte. -/
def passed (name : Filename) : Filename := name.take (name.length % 256)

namespace Ext2Names

/-! ### Inodes -/

/-- `INODE_TO_BLOCK_GROUP`. -/
def inodeGroup (v : Ext2Names) (inode : ℕ) : ℕ := (inode - 1) / v.inodesPerGroup

/-- `INODE_TO_INDEX`. -/
def inodeIndex (v : Ext2Names) (inode : ℕ) : ℕ := (inode - 1) % v.inodesPerGroup

def ext2InodeModifyM (v : Ext2Names) (inode : ℕ) (target : Ext2Inode) : Ext2Names :=
  { v with inodes := Function.update v.inodes inode target }

def setInodeBit (v : Ext2Names) (group index : ℕ) (bit : Bool) : Ext2Names :=
  { v with inodeBitmap := Function.update v.inodeBitmap group (BitArray.set (v.inodeBitmap group) index bit) }

def setFreeInodes (v : Ext2Names) (group groupFree free : ℕ) : Ext2Names :=
  { v with groupFreeInodes := Function.update v.groupFreeInodes group groupFree, freeInodes := free }

/-- Where the search for a free inode begins. -/
def firstIndex (v : Ext2Names) (group : ℕ) : ℕ := if group = 0 then v.firstInode else 0

/-- The first inode of the bitmap that is free, behind the reserved ones of the first group;
index zero means that there is none. -/
def ext2InodeFindL (v : Ext2Names) (group : ℕ) : Ext2Names × ℕ :=
  if v.groupFreeInodes group < 1 then (v, 0)
  else
    match FirstRun.scan (fun i => !BitArray.get (v.inodeBitmap group) i) 1 (8 * v.blockSize - v.firstIndex group)
      (v.firstIndex group) (v.firstIndex group) 0 with
    | none | some 0 => (v, 0)
    | some (ret + 1) =>
      ((v.setInodeBit group (ret + 1) true).setFreeInodes group ((v.groupFreeInodes group + 2 ^ 16 - 1) % 2 ^ 16)
        ((v.freeInodes + 2 ^ 32 - 1) % 2 ^ 32),
        (group * v.inodesPerGroup + (ret + 1) + 1) % 2 ^ 32)

/-- The loop over the groups from `i`, `n` of them to go. -/
def findInodeInOthers (v : Ext2Names) (groupSuggestion : ℕ) : (n i : ℕ) → Exec (Ext2Names × ℕ)
  | 0, _ => .error .halt
  | n + 1, i =>
    if i = groupSuggestion then v.findInodeInOthers groupSuggestion n (i + 1)
    else if (v.ext2InodeFindL i).2 ≠ 0 then .ok (v.ext2InodeFindL i)
    else v.findInodeInOthers groupSuggestion n (i + 1)

def ext2InodeFind (v : Ext2Names) (groupSuggestion : ℕ) : Exec (Ext2Names × ℕ) :=
  if v.freeInodes < 1 then .error .halt
  else if v.blockGroups ≤ groupSuggestion then .error .fault
  else if (v.ext2InodeFindL groupSuggestion).2 ≠ 0 then .ok (v.ext2InodeFindL groupSuggestion)
  else v.findInodeInOthers groupSuggestion v.blockGroups 0

def ext2InodeDelete (v : Ext2Names) (inode : ℕ) : Exec Ext2Names :=
  let group := v.inodeGroup inode
  if BitArray.get (v.inodeBitmap group) (v.inodeIndex inode) then
    .ok ((v.setInodeBit group (v.inodeIndex inode) false).setFreeInodes group
      ((v.groupFreeInodes group + 1) % 2 ^ 16) ((v.freeInodes + 1) % 2 ^ 32))
  else .error .assertion

/-! ### Directories and paths -/

def ext2Traverse (v : Ext2Names) (initInode : ℕ) (search : Filename) : Exec ℕ :=
  Ext2Directory.ext2Traverse v.blockSize search (v.directory initInode)

/-- `ext2DirAllocate` on the copy `ino` of inode `inodeNum`, which a new block is added to
and which is written back with it. -/
def ext2DirAllocate (v : Ext2Names) (inodeNum : ℕ) (ino : Ext2Inode) (filename : Filename) (type inode : ℕ)
    (newBlock : Option Block) : Exec (Ext2Names × Ext2Inode) := do
  let (blocks, _) ← Ext2Directory.ext2DirAllocate v.blockSize (v.directory inodeNum) (passed filename) type inode newBlock
  let w := { v with directory := Function.update v.directory inodeNum blocks }
  if (v.directory inodeNum).length < blocks.length then
    let ino := { ino with size := ino.size + v.blockSize }
    .ok (w.ext2InodeModifyM inodeNum ino, ino)
  else .ok (w, ino)

def ext2DirRemove (v : Ext2Names) (inodeNum : ℕ) (filename : Filename) : Exec (Ext2Names × Bool) := do
  let (blocks, ret) ← Ext2Directory.ext2DirRemove v.blockSize (passed filename) (v.directory inodeNum)
  .ok ({ v with directory := Function.update v.directory inodeNum blocks }, ret)

/-- What a walk does with the inode that it found for a part of the path: it returns, with
zero where there is none, where it is no directory and where a symbolic link has to be
followed first, or it goes on. -/
def arrive (v : Ext2Names) (follow last : Bool) (curr : ℕ) : Exec (Option ℕ) :=
  if curr = 0 then .ok (some 0)
  else if (v.inodes curr).isSymlink ∧ (!last ∨ follow) then
    if 60 < (v.inodes curr).size ∧ v.blockSize ≤ (v.inodes curr).size then .error .assertion else .ok (some 0)
  else if last then .ok (some curr)
  else if !(v.inodes curr).isDirectory then .ok (some 0)
  else .ok none

/-- The walk along a path: `component` is what stands since the last slash. -/
def traverseFrom (v : Ext2Names) (follow : Bool) (curr : ℕ) (component : Filename) : Path → Exec ℕ
  | [] => .ok 0
  | c :: path =>
    if c = slash ∨ path = [] then do
      let curr ← v.ext2Traverse curr (if path = [] then component ++ [c] else component)
      match ← v.arrive follow path.isEmpty curr with
      | some ret => .ok ret
      | none => v.traverseFrom follow curr [] path
    else v.traverseFrom follow curr (component ++ [c]) path

/-- The first byte of a path is skipped; a path of one byte is the root. -/
def ext2TraversePath (v : Ext2Names) (path : Path) (follow : Bool) : Exec ℕ :=
  if path.length = 1 then .ok rootInode else v.traverseFrom follow rootInode [] path.tail

/-! ### The calls -/

/-- A new inode without blocks. -/
def newInode (v : Ext2Names) (inode permission hardLinks : ℕ) : Ext2Names :=
  { v.ext2InodeModifyM inode ⟨permission % 2 ^ 16, hardLinks, 0⟩ with directory := Function.update v.directory inode [] }

/-- The checks on the inode of the parent and on the name; `noName` is the error for the
root. -/
def checkParent (v : Ext2Names) (inode : ℕ) (name : Filename) (noName : Ext2Result) :
    Exec (Except Ext2Result (ℕ × Filename)) :=
  if inode = 0 then .ok (.error .enoent)
  else if name.length = 0 then .ok (.error noName)
  else if !(v.inodes inode).isDirectory then .ok (.error .enotdir)
  else do
    let found ← v.ext2Traverse inode name
    if found ≠ 0 then .ok (.error .eexist) else .ok (.ok (inode, name))

/-- How `ext2Touch` and `ext2Mkdir` begin: the inode of the parent and the name, or the
error. -/
def parentFor (v : Ext2Names) (filename : Path) (noName : Ext2Result) : Exec (Except Ext2Result (ℕ × Filename)) := do
  let last := (lastSlash filename).getD 0
  let inode ← if 0 < last then v.ext2TraversePath (filename.take last) true else .ok rootInode
  v.checkParent inode (filename.drop (last + 1)) noName

def ext2Touch (v : Ext2Names) (filename : Path) (mode : ℕ) (newBlock : Option Block) :
    Exec (Ext2Names × Ext2Result) := do
  match ← v.parentFor filename .eisdir with
  | .error e => .ok (v, e)
  | .ok (inode, name) =>
    let inodeContents := v.inodes inode
    let (v, newInodeNum) ← v.ext2InodeFind (v.inodeGroup inode)
    let v := v.newInode newInodeNum (0x8000 ||| mode) 1
    let (v, _) ← v.ext2DirAllocate inode inodeContents name 1 newInodeNum newBlock
    .ok (v, .success)

/-- The new blocks are for the entries of the new directory and for its name. -/
def ext2Mkdir (v : Ext2Names) (dirname : Path) (mode : ℕ) (dotBlock dotdotBlock nameBlock : Option Block) :
    Exec (Ext2Names × Ext2Result) := do
  match ← v.parentFor dirname .eexist with
  | .error e => .ok (v, e)
  | .ok (inode, name) =>
    let inodeContents := v.inodes inode
    let (v, newInodeNum) ← v.ext2InodeFind (v.inodeGroup inode)
    let v := v.newInode newInodeNum (0x4000 ||| mode) 2
    let (v, ino) ← v.ext2DirAllocate newInodeNum (v.inodes newInodeNum) dot 2 newInodeNum dotBlock
    let (v, _) ← v.ext2DirAllocate newInodeNum ino dotdot 2 inode dotdotBlock
    let (v, inodeContents) ← v.ext2DirAllocate inode inodeContents name 2 newInodeNum nameBlock
    .ok (v.ext2InodeModifyM inode { inodeContents with hardLinks := (inodeContents.hardLinks + 1) % 2 ^ 16 }, .success)

/-- The result of `ext2DirAllocate` is not looked at. -/
def ext2Link (v : Ext2Names) (filename target : Path) (newBlock : Option Block) : Exec (Ext2Names × Ext2Result) := do
  let inodeNum ← v.ext2TraversePath filename false
  if inodeNum = 0 then .ok (v, .enoent)
  else
    let inode := v.inodes inodeNum
    if !inode.isRegular && !inode.isDirectory then .ok (v, .eperm)
    else
      match lastSlash target with
      | none => .ok (v, .enoent)
      | some last =>
        let targetDirInodeNum ← v.ext2TraversePath (target.take last) false
        if targetDirInodeNum = 0 then .ok (v, .enoent)
        else if !(v.inodes targetDirInodeNum).isDirectory then .error .assertion
        else
          let targetDirInode := v.inodes targetDirInodeNum
          let v := v.ext2InodeModifyM inodeNum { inode with hardLinks := (inode.hardLinks + 1) % 2 ^ 16 }
          let (v, _) ← v.ext2DirAllocate targetDirInodeNum targetDirInode (target.drop (last + 1))
            (if inode.isRegular then 1 else 2) inodeNum newBlock
          .ok (v, .success)

/-- The look at the first block of a directory that is to be deleted: no record has a name
longer than two bytes, and before none there are two live ones. -/
def emptyWalk (blockSize : ℕ) (b : Block) : ℕ → ℕ → ℕ → Exec Bool
  | 0, _, _ => .error .fault
  | fuel + 1, o, i =>
    if blockSize ≤ o then .ok true
    else if 2 < Ext2Directory.filenameLengthAt b o ∨ 1 < i then .ok false
    else emptyWalk blockSize b fuel (o + Ext2Directory.sizeAt b o) (if Ext2Directory.inodeAt b o ≠ 0 then i + 1 else i)

def isEmpty (v : Ext2Names) (inode : ℕ) : Exec Bool :=
  match v.directory inode with
  | [] => .error .fault
  | b :: _ => emptyWalk v.blockSize b (v.blockSize + 1) 0 0

/-- Only directories are looked into. -/
def mayGo (v : Ext2Names) (inode : ℕ) (directory : Bool) : Exec Bool :=
  if directory then v.isEmpty inode else .ok true

/-- The path of the parent: up to the last slash, which stays if it is the first byte. -/
def parentPath (filename : Path) : Path :=
  match lastSlash filename with
  | none => []
  | some 0 => [slash]
  | some (i + 1) => filename.take (i + 1)

/-- An inode without links, size and blocks. -/
def emptied (v : Ext2Names) (inode : ℕ) : Ext2Names :=
  { v.ext2InodeModifyM inode { v.inodes inode with hardLinks := 0, size := 0 } with
    directory := Function.update v.directory inode [] }

/-- The links of an inode are counted down, and it is freed with its last one; its parent
loses the link of a directory. -/
def countDown (v : Ext2Names) (inodeNum parentInodeNum : ℕ) : Exec Ext2Names :=
  let inode := v.inodes inodeNum
  let parentInode := v.inodes parentInodeNum
  let down := (inode.hardLinks + 2 ^ 16 - 1) % 2 ^ 16
  let hardLinks := if inode.isDirectory ∧ down = 1 then 0 else down
  if hardLinks = 0 then do
    let v ← (v.emptied inodeNum).ext2InodeDelete inodeNum
    if inode.isDirectory then
      .ok (v.ext2InodeModifyM parentInodeNum
        { parentInode with hardLinks := (parentInode.hardLinks + 2 ^ 16 - 1) % 2 ^ 16 })
    else .ok v
  else .ok (v.ext2InodeModifyM inodeNum { inode with hardLinks := hardLinks })

/-- The end of `ext2Delete`. -/
def removeName (v : Ext2Names) (inodeNum parentInodeNum : ℕ) (name : Filename) : Exec (Ext2Names × Ext2Result) := do
  let v ← v.countDown inodeNum parentInodeNum
  let (v, ret) ← v.ext2DirRemove parentInodeNum name
  .ok (v, if ret then .success else .failed)

/-- The removal of an inode that may go, from the directory that the path names. -/
def deleteFrom (v : Ext2Names) (filename : Path) (inodeNum : ℕ) : Exec (Ext2Names × Ext2Result) := do
  let parentInodeNum ← v.ext2TraversePath (parentPath filename) false
  if parentInodeNum = 0 then .error .assertion
  else if !(v.inodes parentInodeNum).isDirectory then .error .assertion
  else v.removeName inodeNum parentInodeNum (filename.drop ((lastSlash filename).getD 0 + 1))

/-- `openFds`: a descriptor is open on the inode. -/
def ext2Delete (v : Ext2Names) (filename : Path) (directory openFds : Bool) : Exec (Ext2Names × Ext2Result) := do
  let inodeNum ← v.ext2TraversePath filename false
  if inodeNum = 0 then .ok (v, .enoent)
  else if openFds then .error .assertion
  else if directory && !(v.inodes inodeNum).isDirectory then .ok (v, .enotdir)
  else if !directory && (v.inodes inodeNum).isDirectory then .ok (v, .eisdir)
  else if filename.length = 1 then .ok (v, if directory then .enotempty else .eisdir)
  else do
    let empty ← v.mayGo inodeNum directory
    if !empty then .ok (v, .enotempty) else v.deleteFrom filename inodeNum

end Ext2Names

end DualFuse.Filesystems
