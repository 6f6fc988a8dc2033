import DualFuse.Filesystems.Ext2.Blocks
import DualFuse.Library.Bytes

/-! Directories of ext2 (`ext2_dirs.c`, `ext2Traverse` of `ext2_traverse.c`). A directory
is seen as the list of its blocks in the order of `ext2BlockFetch`; each block is a row
of records, each with an inode, its own size, the length of a name, a type and the
name. A walk over a block that does not end is a fault here. -/

namespace DualFuse.Filesystems

open Library

/-- A name of a directory entry. -/
abbrev Filename := List (BitVec 8)

namespace Ext2Directory

/-! ### The fields of the record at a place -/

def inodeAt (b : Block) (o : ℕ) : ℕ := Bytes.readNat b o 4

def sizeAt (b : Block) (o : ℕ) : ℕ := Bytes.readNat b (o + 4) 2

def filenameLengthAt (b : Block) (o : ℕ) : ℕ := Bytes.readNat b (o + 6) 1

def typeAt (b : Block) (o : ℕ) : ℕ := Bytes.readNat b (o + 7) 1

def filenameAt (b : Block) (o n : ℕ) : Filename := Bytes.read b (o + 8) n

/-- The record is live and has this name. -/
def namedAt (b : Block) (o : ℕ) (filename : Filename) : Bool :=
  inodeAt b o != 0 && filename.length == filenameLengthAt b o && filenameAt b o filename.length == filename

/-- `(n + 3) & ~3`. -/
def align4 (n : ℕ) : ℕ := (n + 3) / 4 * 4

/-- The fields of a new record, in the order in which they are stored. -/
def storeRecord (b : Block) (o size type : ℕ) (filename : Filename) (inode : ℕ) : Block :=
  let b := Bytes.writeNat b (o + 4) 2 size
  let b := Bytes.writeNat b (o + 7) 1 type
  let b := Bytes.write b (o + 8) filename
  let b := Bytes.writeNat b (o + 6) 1 filename.length
  Bytes.writeNat b o 4 inode

/-- What the walk of `ext2DirAllocate` over one block comes to. -/
inductive AllocateWalk where
  | present
  | placed (b : Block)
  | full

/-- The walk from place `o`. -/
def allocateWalk (blockSize : ℕ) (filename : Filename) (type inode : ℕ) (b : Block) : ℕ → ℕ → Exec AllocateWalk
  | 0, _ => .error .fault
  | fuel + 1, o =>
    if blockSize ≤ o then .ok .full
    else if namedAt b o filename then .ok .present
    else
      let minForOld := align4 (8 + filenameLengthAt b o)
      let minForNew := align4 (8 + filename.length)
      if minForOld + minForNew ≤ sizeAt b o then
        let remainderForNew := sizeAt b o - minForOld
        .ok (.placed (storeRecord (Bytes.writeNat b (o + 4) 2 minForOld) (o + minForOld) remainderForNew type filename
          inode))
      else allocateWalk blockSize filename type inode b fuel (o + sizeAt b o)

/-- The loop over the blocks: nothing if the name is in none and none has room. -/
def allocateBlocks (blockSize : ℕ) (filename : Filename) (type inode : ℕ) :
    List Block → Exec (Option (List Block × Bool))
  | [] => .ok none
  | b :: blocks => do
    match ← allocateWalk blockSize filename type inode b (blockSize + 1) 0 with
    | .present => .ok (some (b :: blocks, false))
    | .placed b' => .ok (some (b' :: blocks, true))
    | .full =>
      match ← allocateBlocks blockSize filename type inode blocks with
      | none => .ok none
      | some (blocks, ret) => .ok (some (b :: blocks, ret))

/-- `ext2DirAllocate`, where `ext2BlockFind` returns a block with this content, or halts;
`ext2BlockAssign` halts behind the singly indirect blocks. -/
def ext2DirAllocate (blockSize : ℕ) (blocks : List Block) (filename : Filename) (type inode : ℕ)
    (newBlock : Option Block) : Exec (List Block × Bool) := do
  match ← allocateBlocks blockSize filename type inode blocks with
  | some result => .ok result
  | none =>
    match newBlock with
    | none => .error .halt
    | some b =>
      if 12 + blockSize / 4 ≤ blocks.length then .error .halt
      else .ok (blocks ++ [storeRecord b 0 blockSize type filename inode], true)

/-- The walk of `ext2DirRemove` over one block from place `o`, the record before it at
`before`. It goes on by the size that the record has after the removal. -/
def removeWalk (blockSize : ℕ) (filename : Filename) : ℕ → Block → ℕ → ℕ → Bool → Exec (Block × Bool)
  | 0, _, _, _, _ => .error .fault
  | fuel + 1, b, o, before, ret =>
    if blockSize ≤ o then .ok (b, ret)
    else if namedAt b o filename then
      let b :=
        if o = 0 then Bytes.writeNat (Bytes.writeNat b o 4 0) (o + 6) 1 0
        else Bytes.writeNat b (before + 4) 2 (sizeAt b before + sizeAt b o)
      removeWalk blockSize filename fuel b (o + sizeAt b o) o true
    else removeWalk blockSize filename fuel b (o + sizeAt b o) o ret

def ext2DirRemove (blockSize : ℕ) (filename : Filename) : List Block → Exec (List Block × Bool)
  | [] => .ok ([], false)
  | b :: blocks => do
    let (b, ret) ← removeWalk blockSize filename (blockSize + 1) b 0 0 false
    let (blocks, ret') ← ext2DirRemove blockSize filename blocks
    .ok (b :: blocks, ret || ret')

/-- The walk of `ext2Traverse` over one block: the inode of the name, or zero. -/
def traverseWalk (blockSize : ℕ) (search : Filename) (b : Block) : ℕ → ℕ → Exec ℕ
  | 0, _ => .error .fault
  | fuel + 1, o =>
    if blockSize ≤ o then .ok 0
    else if namedAt b o search then .ok (inodeAt b o)
    else traverseWalk blockSize search b fuel (o + sizeAt b o)

def ext2Traverse (blockSize : ℕ) (search : Filename) : List Block → Exec ℕ
  | [] => .ok 0
  | b :: blocks => do
    let ret ← traverseWalk blockSize search b (blockSize + 1) 0
    if ret ≠ 0 then .ok ret else ext2Traverse blockSize search blocks

end Ext2Directory

/-! ### Blocks as rows of records -/

/-- A record. -/
structure DirEntry where
  inode : ℕ
  size : ℕ
  type : ℕ
  filename : Filename
  deriving DecidableEq, Repr

namespace DirEntry

open Ext2Directory

/-- The size is a multiple of four and holds the fields and the name. -/
def WellFormed (e : DirEntry) : Prop := e.size % 4 = 0 ∧ 8 + e.filename.length ≤ e.size

def Named (e : DirEntry) (filename : Filename) : Prop := e.inode ≠ 0 ∧ e.filename = filename

instance (e : DirEntry) (filename : Filename) : Decidable (e.Named filename) :=
  inferInstanceAs (Decidable (_ ∧ _))

/-- A record with this name fits behind this one. -/
def Room (e : DirEntry) (filename : Filename) : Prop :=
  align4 (8 + e.filename.length) + align4 (8 + filename.length) ≤ e.size

instance (e : DirEntry) (filename : Filename) : Decidable (e.Room filename) := inferInstanceAs (Decidable (_ ≤ _))

/-- The record at place `o` of a block. -/
structure IsAt (e : DirEntry) (b : Block) (o : ℕ) : Prop where
  inode : inodeAt b o = e.inode
  size : sizeAt b o = e.size
  length : filenameLengthAt b o = e.filename.length
  type : typeAt b o = e.type
  filename : filenameAt b o e.filename.length = e.filename

instance (e : DirEntry) : Decidable e.WellFormed := inferInstanceAs (Decidable (_ ∧ _))

instance (e : DirEntry) (b : Block) (o : ℕ) : Decidable (e.IsAt b o) :=
  decidable_of_iff (inodeAt b o = e.inode ∧ sizeAt b o = e.size ∧ filenameLengthAt b o = e.filename.length ∧
      typeAt b o = e.type ∧ filenameAt b o e.filename.length = e.filename)
    ⟨fun ⟨h₁, h₂, h₃, h₄, h₅⟩ => ⟨h₁, h₂, h₃, h₄, h₅⟩, fun h => ⟨h.1, h.2, h.3, h.4, h.5⟩⟩

end DirEntry

/-- The bytes from place `o` to `q` are the records of `l`. -/
def Tiles (b : Block) : ℕ → List DirEntry → ℕ → Prop
  | o, [], q => o = q
  | o, e :: l, q => e.IsAt b o ∧ e.WellFormed ∧ Tiles b (o + e.size) l q

instance Tiles.decidable (b : Block) : (o : ℕ) → (l : List DirEntry) → (q : ℕ) → Decidable (Tiles b o l q)
  | o, [], q => inferInstanceAs (Decidable (o = q))
  | o, e :: l, q =>
    have := Tiles.decidable b (o + e.size) l q
    inferInstanceAs (Decidable (e.IsAt b o ∧ e.WellFormed ∧ Tiles b (o + e.size) l q))

end DualFuse.Filesystems
