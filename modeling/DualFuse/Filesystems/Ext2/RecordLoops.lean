import DualFuse.Filesystems.Ext2.Directory
import DualFuse.Library.Loop
import DualFuse.Utility.Words

/-! The loops over the records of one directory block, for any bytes of the block: those of
`ext2Traverse`, `ext2DirAllocate`, `ext2DirRemove` and `ext2Getdents64` and the emptiness
check of `ext2Delete`. Here every access to the buffer is checked, and a loop need not
end. What the code does without a check is the plan of its loop; the loop ends without
leaving the buffer exactly where its plan can be kept. -/

namespace DualFuse.Filesystems

open Library Loop Ext2Directory Utility

namespace RecordLoop

/-! ### Accesses to the buffer -/

section Buffer
variable (blockSize : ℕ) (b : Block)

/-- A field of `n` bytes is read. -/
def load (o n : ℕ) : Exec ℕ := if o + n ≤ blockSize then .ok (Bytes.readNat b o n) else .error .fault

/-- A field of `n` bytes is written. -/
def store (o n v : ℕ) : Exec Block := if o + n ≤ blockSize then .ok (Bytes.writeNat b o n v) else .error .fault

/-- `memcpy` out of the buffer. -/
def copyOut (o n : ℕ) : Exec Filename := if o + n ≤ blockSize then .ok (Bytes.read b o n) else .error .fault

/-- `memcpy` to the buffer. -/
def copyIn (o : ℕ) (l : Filename) : Exec Block :=
  if o + l.length ≤ blockSize then .ok (Bytes.write b o l) else .error .fault

/-- `memcmp`, which returns at the first difference. -/
def memcmp : ℕ → Filename → Exec Bool
  | _, [] => .ok true
  | o, c :: l => if blockSize ≤ o then .error .fault else if b o = c then memcmp (o + 1) l else .ok false

/-- The comparison stays in the buffer. -/
def Compared : ℕ → Filename → Prop
  | _, [] => True
  | o, c :: l => o < blockSize ∧ (b o = c → Compared (o + 1) l)

/-- `dir->inode && filenameLen == dir->filenameLength && memcmp(..) == 0`. -/
def isNamed (o : ℕ) (filename : Filename) : Exec Bool := do
  let inode ← load blockSize b o 4
  if inode = 0 then .ok false
  else do
    let filenameLength ← load blockSize b (o + 6) 1
    if filename.length = filenameLength then memcmp blockSize b (o + 8) filename else .ok false

/-- The name of a live record is read inside the buffer. -/
def NameRead (filename : Filename) (o : ℕ) : Prop :=
  inodeAt b o ≠ 0 →
    o + 7 ≤ blockSize ∧ (filename.length = filenameLengthAt b o → Compared blockSize b (o + 8) filename)

/-- The inode, the size and the name are read inside the buffer. -/
def Searched (filename : Filename) (o : ℕ) : Prop := o + 6 ≤ blockSize ∧ NameRead blockSize b filename o

end Buffer

section BufferFacts
variable {blockSize : ℕ} {b : Block} {o n v : ℕ} {filename : Filename}

theorem load_inode (h : o + 4 ≤ blockSize) : load blockSize b o 4 = .ok (inodeAt b o) := if_pos h

theorem load_size (h : o + 6 ≤ blockSize) : load blockSize b (o + 4) 2 = .ok (sizeAt b o) := if_pos h

theorem load_length (h : o + 7 ≤ blockSize) : load blockSize b (o + 6) 1 = .ok (filenameLengthAt b o) := if_pos h

theorem load_type (h : o + 8 ≤ blockSize) : load blockSize b (o + 7) 1 = .ok (typeAt b o) := if_pos h

theorem load_error (h : blockSize < o + n) : load blockSize b o n = .error .fault := if_neg h.not_ge

theorem store_ok (h : o + n ≤ blockSize) : store blockSize b o n v = .ok (Bytes.writeNat b o n v) := if_pos h

theorem store_size (h : o + 6 ≤ blockSize) :
    store blockSize b (o + 4) 2 v = .ok (Bytes.writeNat b (o + 4) 2 v) := if_pos h

theorem store_error (h : blockSize < o + n) : store blockSize b o n v = .error .fault := if_neg h.not_ge

theorem copyOut_ok (h : o + 8 + n ≤ blockSize) : copyOut blockSize b (o + 8) n = .ok (filenameAt b o n) := if_pos h

theorem copyOut_error (h : blockSize < o + n) : copyOut blockSize b o n = .error .fault := if_neg h.not_ge

theorem copyIn_ok (h : o + filename.length ≤ blockSize) :
    copyIn blockSize b o filename = .ok (Bytes.write b o filename) := if_pos h

theorem copyIn_error (h : blockSize < o + filename.length) : copyIn blockSize b o filename = .error .fault :=
  if_neg h.not_ge

theorem memcmp_ok (h : Compared blockSize b o filename) :
    memcmp blockSize b o filename = .ok (Bytes.read b o filename.length == filename) := by
  induction filename generalizing o with
  | nil => rfl
  | cons c l ih =>
    obtain ⟨hlt, hrest⟩ := h
    have hread : Bytes.read b o (l.length + 1) = b o :: Bytes.read b (o + 1) l.length := by
      rw [Nat.add_comm, ← Bytes.read_append]
      rfl
    rw [memcmp, if_neg hlt.not_ge, List.length_cons, hread]
    by_cases hc : b o = c
    · simp [hc, ih (hrest hc)]
    · simp [hc]

theorem memcmp_error (h : ¬Compared blockSize b o filename) : memcmp blockSize b o filename = .error .fault := by
  induction filename generalizing o with
  | nil => exact absurd trivial h
  | cons c l ih =>
    rw [memcmp]
    by_cases hlt : o < blockSize
    · by_cases hc : b o = c
      · rw [if_neg hlt.not_ge, if_pos hc]
        apply ih
        intro hrest
        exact h ⟨hlt, fun _ => hrest⟩
      · exact absurd ⟨hlt, fun heq => absurd heq hc⟩ h
    · rw [if_pos (not_lt.mp hlt)]

theorem isNamed_ok (ho : o + 4 ≤ blockSize) (h : NameRead blockSize b filename o) :
    isNamed blockSize b o filename = .ok (namedAt b o filename) := by
  unfold isNamed namedAt
  rw [load_inode ho, Exec.ok_bind]
  by_cases hinode : inodeAt b o = 0
  · simp [hinode]
  obtain ⟨hlength, hname⟩ := h hinode
  rw [if_neg hinode, load_length hlength, Exec.ok_bind]
  by_cases heq : filename.length = filenameLengthAt b o
  · rw [if_pos heq, memcmp_ok (hname heq)]
    simp [hinode, heq, filenameAt]
  · simp [heq]

theorem isNamed_error (h : ¬(o + 4 ≤ blockSize ∧ NameRead blockSize b filename o)) :
    isNamed blockSize b o filename = .error .fault := by
  unfold isNamed
  by_cases ho : o + 4 ≤ blockSize
  · have hread : ¬NameRead blockSize b filename o := fun hread => h ⟨ho, hread⟩
    unfold NameRead at hread
    push Not at hread
    obtain ⟨hinode, hname⟩ := hread
    rw [load_inode ho, Exec.ok_bind, if_neg hinode]
    by_cases hlength : o + 7 ≤ blockSize
    · obtain ⟨heq, hcompared⟩ := hname hlength
      rw [load_length hlength, Exec.ok_bind, if_pos heq, memcmp_error hcompared]
    · rw [load_error (by omega), Exec.error_bind]
  · rw [load_error (by omega), Exec.error_bind]

theorem NameRead.of_named (h : NameRead blockSize b filename o) (hnamed : namedAt b o filename = true) :
    o + 7 ≤ blockSize := by
  apply (h _).1
  intro hinode
  simp [namedAt, hinode] at hnamed

end BufferFacts

/-! ### The loops -/

section Loops
variable (blockSize : ℕ)

/-- A round of `ext2Traverse` at place `o`; the result is an inode, or zero. -/
def traverseRound (b : Block) (search : Filename) (o : ℕ) : Exec (Round ℕ ℕ) :=
  if blockSize ≤ o then .ok (.done 0)
  else do
    let named ← isNamed blockSize b o search
    if named then .ok (.done (inodeAt b o))
    else do
      let size ← load blockSize b (o + 4) 2
      .ok (.next (o + size))

/-- The fields of a new record, in the order in which they are stored. -/
def storeRecord (b : Block) (o size type : ℕ) (filename : Filename) (inode : ℕ) : Exec Block := do
  let b ← store blockSize b (o + 4) 2 size
  let b ← store blockSize b (o + 7) 1 type
  let b ← copyIn blockSize b (o + 8) filename
  let b ← store blockSize b (o + 6) 1 filename.length
  store blockSize b o 4 inode

/-- A round of `ext2DirAllocate`. -/
def allocateRound (b : Block) (filename : Filename) (type inode o : ℕ) : Exec (Round ℕ AllocateWalk) :=
  if blockSize ≤ o then .ok (.done .full)
  else do
    let named ← isNamed blockSize b o filename
    if named then .ok (.done .present)
    else do
      let filenameLength ← load blockSize b (o + 6) 1
      let size ← load blockSize b (o + 4) 2
      let minForOld := align4 (8 + filenameLength)
      let minForNew := align4 (8 + filename.length)
      if minForOld + minForNew ≤ size then do
        let b ← store blockSize b (o + 4) 2 minForOld
        let b ← storeRecord blockSize b (o + minForOld) (size - minForOld) type filename inode
        .ok (.done (.placed b))
      else .ok (.next (o + size))

/-- The buffer, the places of the record and of the one before it, and the result so far of
`ext2DirRemove`. -/
structure RemoveState where
  b : Block
  o : ℕ
  before : Option ℕ
  ret : Bool

/-- The record that has the name is taken out. -/
def removeRecord (s : RemoveState) : Exec Block :=
  if s.o = 0 then
    match s.before with
    | some _ => .error .assertion
    | none => do
      let b ← store blockSize s.b s.o 4 0
      store blockSize b (s.o + 6) 1 0
  else
    match s.before with
    | none => .error .fault
    | some before => do
      let sizeBefore ← load blockSize s.b (before + 4) 2
      let size ← load blockSize s.b (s.o + 4) 2
      store blockSize s.b (before + 4) 2 (sizeBefore + size)

/-- The block behind the test of the name. -/
def takeOut (s : RemoveState) (named : Bool) : Exec Block := if named then removeRecord blockSize s else .ok s.b

/-- A round of `ext2DirRemove`; it goes on behind a record that it took out. -/
def removeRound (filename : Filename) (s : RemoveState) : Exec (Round RemoveState (Block × Bool)) :=
  if blockSize ≤ s.o then .ok (.done (s.b, s.ret))
  else do
    let named ← isNamed blockSize s.b s.o filename
    let b ← takeOut blockSize s named
    let size ← load blockSize b (s.o + 4) 2
    .ok (.next ⟨b, s.o + size, some s.o, s.ret || named⟩)

/-- An entry of a listing: the inode, the type and the name. -/
structure Dirent where
  inode : ℕ
  type : ℕ
  filename : Filename
  deriving DecidableEq, Repr

/-- `d_reclen`. -/
def Dirent.reclen (e : Dirent) : ℕ := 23 + e.filename.length + 1

/-- What a call of `ext2Getdents64` has done so far: the place in the directory, the bytes
of the buffer that are taken and the entries in them. -/
structure Dents where
  ptr : ℕ
  allocatedlimit : ℕ
  entries : List Dirent

/-- `dents_add` has no space. The bytes taken are an `int`, and from `2 ^ 31` on a negative
one, which as a `size_t` exceeds each limit. -/
def NoSpace (hardlimit allocatedlimit reclen : ℕ) : Prop :=
  2 ^ 31 ≤ allocatedlimit ∨ hardlimit < allocatedlimit + reclen + 2

instance (hardlimit allocatedlimit reclen : ℕ) : Decidable (NoSpace hardlimit allocatedlimit reclen) :=
  inferInstanceAs (Decidable (_ ∨ _))

/-- The comparison of the code, on its words. -/
theorem noSpace_iff {hardlimit allocatedlimit reclen : ℕ} (hlimit : hardlimit < 2 ^ 32)
    (hsum : allocatedlimit + reclen + 2 < 2 ^ 32) :
    NoSpace hardlimit allocatedlimit reclen ↔
      hardlimit < wrap (intToSize (wrapInt allocatedlimit) + reclen + 2) := by
  unfold NoSpace
  by_cases hsmall : allocatedlimit < 2 ^ 31
  · rw [wrapInt_natCast hsmall, intToSize_of_nonneg (by omega), wrap_of_lt (by omega)]
    omega
  · have hint : wrapInt (allocatedlimit : ℤ) = allocatedlimit - 2 ^ 32 := by
      unfold wrapInt
      rw [Int.bmod_def]
      omega
    have hsize : intToSize (wrapInt allocatedlimit) = 2 ^ 64 - 2 ^ 32 + allocatedlimit := by
      rw [hint, intToSize]
      omega
    rw [hsize, wrap_of_lt (by omega)]
    omega

/-- The type of an entry: a directory, a symbolic link or a file. -/
def direntType (type : ℕ) : ℕ := if type = 2 then 4 else if type = 7 then 10 else 8

/-- An entry is added, and the place in the directory moves on. -/
def Dents.add (d : Dents) (e : Dirent) (size : ℕ) : Dents :=
  ⟨wrap (d.ptr + size), d.allocatedlimit + e.reclen, d.entries ++ [e]⟩

/-- A round of `ext2Getdents64`. The result says if the loop stopped for lack of space. -/
def getdentsRound (hardlimit : ℕ) (b : Block) (s : ℕ × Dents) : Exec (Round (ℕ × Dents) (Dents × Bool)) :=
  if blockSize ≤ s.1 then .ok (.done (s.2, false))
  else do
    let inode ← load blockSize b s.1 4
    if inode ≠ 0 then do
      let type ← load blockSize b (s.1 + 7) 1
      let filenameLength ← load blockSize b (s.1 + 6) 1
      if NoSpace hardlimit s.2.allocatedlimit (23 + filenameLength + 1) then .ok (.done (s.2, true))
      else do
        let filename ← copyOut blockSize b (s.1 + 8) filenameLength
        let size ← load blockSize b (s.1 + 4) 2
        .ok (.next (s.1 + size, s.2.add ⟨inode, direntType type, filename⟩ size))
    else do
      let size ← load blockSize b (s.1 + 4) 2
      .ok (.next (s.1 + size, s.2))

/-- A round of the check in `ext2Delete`: the place and the number of live records. -/
def emptyRound (b : Block) (s : ℕ × ℕ) : Exec (Round (ℕ × ℕ) Bool) :=
  if blockSize ≤ s.1 then .ok (.done true)
  else do
    let filenameLength ← load blockSize b (s.1 + 6) 1
    if 2 < filenameLength ∨ 1 < s.2 then .ok (.done false)
    else do
      let inode ← load blockSize b s.1 4
      let size ← load blockSize b (s.1 + 4) 2
      .ok (.next (s.1 + size, if inode ≠ 0 then s.2 + 1 else s.2))

/-! ### Their plans -/

/-- The search stops at the name, and needs records that are not empty. -/
def traversePlan (b : Block) (search : Filename) : Plan ℕ ℕ where
  stop o := blockSize ≤ o ∨ namedAt b o search = true
  result o := if blockSize ≤ o then 0 else inodeAt b o
  next o := o + sizeAt b o
  safe o := o < blockSize → Searched blockSize b search o
  advances o := sizeAt b o ≠ 0

/-- The slack of the record takes a new one with this name. -/
def RoomAt (b : Block) (filename : Filename) (o : ℕ) : Prop :=
  align4 (8 + filenameLengthAt b o) + align4 (8 + filename.length) ≤ sizeAt b o

/-- The block with the new record in the slack of the one at the place. -/
def placedAt (b : Block) (filename : Filename) (type inode o : ℕ) : Block :=
  Ext2Directory.storeRecord (Bytes.writeNat b (o + 4) 2 (align4 (8 + filenameLengthAt b o)))
    (o + align4 (8 + filenameLengthAt b o)) (sizeAt b o - align4 (8 + filenameLengthAt b o)) type filename inode

/-- Insertion stops at the name or at the first room, where the new record has to lie in
the buffer. -/
def allocatePlan (b : Block) (filename : Filename) (type inode : ℕ) : Plan ℕ AllocateWalk where
  stop o := blockSize ≤ o ∨ namedAt b o filename = true ∨ RoomAt b filename o
  result o :=
    if blockSize ≤ o then .full
    else if namedAt b o filename then .present
    else .placed (placedAt b filename type inode o)
  next o := o + sizeAt b o
  safe o := o < blockSize → Searched blockSize b filename o ∧ o + 7 ≤ blockSize ∧
    (namedAt b o filename = false → RoomAt b filename o →
      o + align4 (8 + filenameLengthAt b o) + 8 + filename.length ≤ blockSize)
  advances o := sizeAt b o ≠ 0

/-- The block without the record at the place. -/
def RemoveState.removed (filename : Filename) (s : RemoveState) : Block :=
  if namedAt s.b s.o filename then
    if s.o = 0 then Bytes.writeNat (Bytes.writeNat s.b s.o 4 0) (s.o + 6) 1 0
    else Bytes.writeNat s.b (s.before.getD 0 + 4) 2 (sizeAt s.b (s.before.getD 0) + sizeAt s.b s.o)
  else s.b

/-- Removal goes through the whole block, which it changes on its way. -/
def removePlan (filename : Filename) : Plan RemoveState (Block × Bool) where
  stop s := blockSize ≤ s.o
  result s := (s.b, s.ret)
  next s := ⟨s.removed filename, s.o + sizeAt (s.removed filename) s.o, some s.o, s.ret || namedAt s.b s.o filename⟩
  safe s := s.o < blockSize → Searched blockSize s.b filename s.o
  advances s := sizeAt (s.removed filename) s.o ≠ 0

/-- The entry at a place. -/
def direntAt (b : Block) (o : ℕ) : Dirent :=
  ⟨inodeAt b o, direntType (typeAt b o), filenameAt b o (filenameLengthAt b o)⟩

/-- A listing stops at a live record without space; as long as there is space a live record
of size zero is listed again, and the space gets less. -/
def getdentsPlan (hardlimit : ℕ) (b : Block) : Plan (ℕ × Dents) (Dents × Bool) where
  stop s := blockSize ≤ s.1 ∨
    inodeAt b s.1 ≠ 0 ∧ NoSpace hardlimit s.2.allocatedlimit (23 + filenameLengthAt b s.1 + 1)
  result s := (s.2, decide (s.1 < blockSize))
  next s := (s.1 + sizeAt b s.1, if inodeAt b s.1 ≠ 0 then s.2.add (direntAt b s.1) (sizeAt b s.1) else s.2)
  safe s := s.1 < blockSize → s.1 + 6 ≤ blockSize ∧
    (inodeAt b s.1 ≠ 0 → s.1 + 8 ≤ blockSize ∧
      (¬NoSpace hardlimit s.2.allocatedlimit (23 + filenameLengthAt b s.1 + 1) →
        s.1 + 8 + filenameLengthAt b s.1 ≤ blockSize))
  advances s := sizeAt b s.1 ≠ 0 ∨ inodeAt b s.1 ≠ 0

/-- The check stops at a long name and behind two live records. -/
def emptyPlan (b : Block) : Plan (ℕ × ℕ) Bool where
  stop s := blockSize ≤ s.1 ∨ 2 < filenameLengthAt b s.1 ∨ 1 < s.2
  result s := decide (blockSize ≤ s.1)
  next s := (s.1 + sizeAt b s.1, if inodeAt b s.1 ≠ 0 then s.2 + 1 else s.2)
  safe s := s.1 < blockSize → s.1 + 7 ≤ blockSize
  advances s := sizeAt b s.1 ≠ 0 ∨ inodeAt b s.1 ≠ 0

end Loops

/-! ### Each loop keeps to its plan -/

section Keeping
variable {blockSize hardlimit type inode o : ℕ} {b : Block} {search filename : Filename}

theorem not_searched (hread : NameRead blockSize b filename o) (h : ¬Searched blockSize b filename o) :
    blockSize < o + 4 + 2 ∧ namedAt b o filename = false := by
  have hsize : blockSize < o + 4 + 2 := not_le.mp fun hsize => h ⟨hsize, hread⟩
  refine ⟨hsize, ?_⟩
  by_contra hnamed
  have := hread.of_named (by simpa using hnamed)
  omega

theorem Searched.isNamed (h : Searched blockSize b filename o) :
    isNamed blockSize b o filename = .ok (namedAt b o filename) := isNamed_ok (by have := h.1; omega) h.2

theorem traverse_kept :
    (traversePlan blockSize b search).Kept (fun _ => True) (traverseRound blockSize b search) where
  faults o _ hsafe := by
    obtain ⟨hlt, hsearched⟩ := Classical.not_imp.mp hsafe
    refine ⟨.fault, ?_⟩
    rw [traverseRound, if_neg hlt.not_ge]
    by_cases hread : o + 4 ≤ blockSize ∧ NameRead blockSize b search o
    · obtain ⟨hsize, hnamed⟩ := not_searched hread.2 hsearched
      simp [isNamed_ok hread.1 hread.2, hnamed, load_error hsize]
    · simp [isNamed_error hread]
  stops o _ hsafe hstop := by
    rcases Nat.lt_or_ge o blockSize with hlt | hge
    · have hnamed : namedAt b o search = true := hstop.resolve_left hlt.not_ge
      rw [traverseRound, if_neg hlt.not_ge, (hsafe hlt).isNamed, Exec.ok_bind, if_pos hnamed]
      simp [traversePlan, hlt.not_ge]
    · simp [traverseRound, traversePlan, hge]
  leads o _ hsafe hstop := by
    obtain ⟨hlt, hnamed⟩ := not_or.mp hstop
    have hsearched := hsafe (not_le.mp hlt)
    rw [traverseRound, if_neg hlt, hsearched.isNamed, Exec.ok_bind, if_neg hnamed, load_size hsearched.1, Exec.ok_bind]
    rfl
  keeps _ _ _ _ := trivial

theorem storeRecord_ok {size : ℕ} (h : o + 8 + filename.length ≤ blockSize) :
    storeRecord blockSize b o size type filename inode =
      .ok (Ext2Directory.storeRecord b o size type filename inode) := by
  unfold storeRecord
  rw [store_ok (by omega), Exec.ok_bind, store_ok (by omega), Exec.ok_bind, copyIn_ok h, Exec.ok_bind,
    store_ok (by omega), Exec.ok_bind, store_ok (by omega)]
  rfl

theorem storeRecord_error {size : ℕ} (h : blockSize < o + 8 + filename.length) :
    storeRecord blockSize b o size type filename inode = .error .fault := by
  unfold storeRecord
  by_cases hsize : o + 4 + 2 ≤ blockSize
  · rw [store_ok hsize, Exec.ok_bind]
    by_cases htype : o + 7 + 1 ≤ blockSize
    · rw [store_ok htype, Exec.ok_bind, copyIn_error h, Exec.error_bind]
    · rw [store_error (by omega), Exec.error_bind]
  · rw [store_error (by omega), Exec.error_bind]

theorem allocate_kept :
    (allocatePlan blockSize b filename type inode).Kept (fun _ => True) (allocateRound blockSize b filename type inode) where
  faults o _ hsafe := by
    obtain ⟨hlt, hsafe⟩ := Classical.not_imp.mp hsafe
    refine ⟨.fault, ?_⟩
    rw [allocateRound, if_neg hlt.not_ge]
    by_cases hread : o + 4 ≤ blockSize ∧ NameRead blockSize b filename o
    · rw [isNamed_ok hread.1 hread.2, Exec.ok_bind]
      by_cases hlength : o + 7 ≤ blockSize
      · have hsearched : Searched blockSize b filename o := ⟨by omega, hread.2⟩
        obtain ⟨hnamed, hrest⟩ := Classical.not_imp.mp fun h => hsafe ⟨hsearched, hlength, h⟩
        obtain ⟨hroom, hout⟩ := Classical.not_imp.mp hrest
        unfold RoomAt at hroom
        rw [if_neg (by simp [hnamed]), load_length hlength, Exec.ok_bind, load_size hsearched.1, Exec.ok_bind]
        dsimp only
        rw [if_pos hroom, store_size hsearched.1, Exec.ok_bind, storeRecord_error (not_le.mp hout), Exec.error_bind]
      · have hnamed : namedAt b o filename = false := by
          by_contra hnamed
          exact hlength (hread.2.of_named (by simpa using hnamed))
        rw [if_neg (by simp [hnamed]), load_error (by omega), Exec.error_bind]
    · rw [isNamed_error hread, Exec.error_bind]
  stops o _ hsafe hstop := by
    rcases Nat.lt_or_ge o blockSize with hlt | hge
    · obtain ⟨hsearched, hlength, hinside⟩ := hsafe hlt
      rw [allocateRound, if_neg hlt.not_ge, hsearched.isNamed, Exec.ok_bind]
      by_cases hnamed : namedAt b o filename = true
      · simp [allocatePlan, hlt.not_ge, hnamed]
      · have hroom : RoomAt b filename o := (hstop.resolve_left hlt.not_ge).resolve_left hnamed
        rw [if_neg hnamed, load_length hlength, Exec.ok_bind, load_size hsearched.1, Exec.ok_bind]
        have hstore := hinside (by simpa using hnamed) hroom
        unfold RoomAt at hroom
        dsimp only
        rw [if_pos hroom, store_size hsearched.1, Exec.ok_bind, storeRecord_ok hstore]
        simp [allocatePlan, placedAt, hlt.not_ge, hnamed]
    · simp [allocateRound, allocatePlan, hge]
  leads o _ hsafe hstop := by
    obtain ⟨hlt, hstop⟩ := not_or.mp hstop
    obtain ⟨hnamed, hroom⟩ := not_or.mp hstop
    obtain ⟨hsearched, hlength, -⟩ := hsafe (not_le.mp hlt)
    rw [allocateRound, if_neg hlt, hsearched.isNamed, Exec.ok_bind, if_neg hnamed, load_length hlength, Exec.ok_bind,
      load_size hsearched.1, Exec.ok_bind]
    exact if_neg hroom
  keeps _ _ _ _ := trivial

/-- The loop of `ext2DirRemove` has a record before each but the first, and does not find the
first one again. -/
def RemoveInv (blockSize : ℕ) (filename : Filename) (s : RemoveState) : Prop :=
  s.o = 0 ∧ s.before = none ∨
    ∃ before, s.before = some before ∧ before + 6 ≤ blockSize ∧ (s.o = 0 → namedAt s.b 0 filename = false)

theorem removeRecord_ok {s : RemoveState} (hinv : RemoveInv blockSize filename s)
    (hsearched : Searched blockSize s.b filename s.o) (hnamed : namedAt s.b s.o filename = true) :
    removeRecord blockSize s = .ok (s.removed filename) := by
  have hlength := hsearched.2.of_named hnamed
  unfold removeRecord RemoveState.removed
  rw [if_pos hnamed]
  rcases hinv with ⟨ho, hbefore⟩ | ⟨before, hbefore, hinside, hfirst⟩
  · rw [if_pos ho, if_pos ho, hbefore]
    dsimp only
    rw [store_ok (by omega), Exec.ok_bind, store_ok (by omega)]
  · have ho : s.o ≠ 0 := by
      intro ho
      rw [ho, hfirst ho] at hnamed
      cases hnamed
    rw [if_neg ho, if_neg ho, hbefore]
    dsimp only
    rw [load_size hinside, Exec.ok_bind, load_size hsearched.1, Exec.ok_bind, store_size hinside]
    rfl

theorem takeOut_ok {s : RemoveState} (hinv : RemoveInv blockSize filename s)
    (hsearched : Searched blockSize s.b filename s.o) :
    takeOut blockSize s (namedAt s.b s.o filename) = .ok (s.removed filename) := by
  unfold takeOut
  by_cases hnamed : namedAt s.b s.o filename = true
  · rw [if_pos hnamed, removeRecord_ok hinv hsearched hnamed]
  · rw [if_neg hnamed, RemoveState.removed, if_neg hnamed]

/-- The first record does not have the name any more. -/
theorem not_named_removed {s : RemoveState} (ho : s.o = 0) : namedAt (s.removed filename) 0 filename = false := by
  unfold RemoveState.removed
  by_cases hnamed : namedAt s.b s.o filename = true
  · rw [if_pos hnamed, if_pos ho, ho]
    have hinode : inodeAt (Bytes.writeNat (Bytes.writeNat s.b 0 4 0) (0 + 6) 1 0) 0 = 0 := by
      unfold inodeAt
      rw [Bytes.readNat_congr fun i hlo hhi => Bytes.writeNat_of_outside (by omega), Bytes.readNat_writeNat]
      rfl
    simp [namedAt, hinode]
  · rw [if_neg hnamed, ← ho]
    simpa using hnamed

theorem remove_kept :
    (removePlan blockSize filename).Kept (RemoveInv blockSize filename) (removeRound blockSize filename) where
  faults s hinv hsafe := by
    obtain ⟨hlt, hsearched⟩ := Classical.not_imp.mp hsafe
    refine ⟨.fault, ?_⟩
    rw [removeRound, if_neg hlt.not_ge]
    by_cases hread : s.o + 4 ≤ blockSize ∧ NameRead blockSize s.b filename s.o
    · obtain ⟨hsize, hnamed⟩ := not_searched hread.2 hsearched
      simp [isNamed_ok hread.1 hread.2, hnamed, takeOut, load_error hsize]
    · simp [isNamed_error hread]
  stops s _ _ hstop := if_pos hstop
  leads s hinv hsafe hstop := by
    have hlt : ¬blockSize ≤ s.o := hstop
    have hsearched := hsafe (not_le.mp hlt)
    rw [removeRound, if_neg hlt, hsearched.isNamed, Exec.ok_bind, takeOut_ok hinv hsearched, Exec.ok_bind,
      load_size hsearched.1]
    rfl
  keeps s _ hsafe hstop := by
    refine Or.inr ⟨s.o, rfl, (hsafe (not_le.mp hstop)).1, ?_⟩
    intro hzero
    exact not_named_removed (Nat.eq_zero_of_add_eq_zero_right hzero)

theorem getdents_kept :
    (getdentsPlan blockSize hardlimit b).Kept (fun _ => True) (getdentsRound blockSize hardlimit b) where
  faults s _ hsafe := by
    obtain ⟨hlt, hsafe⟩ := Classical.not_imp.mp hsafe
    refine ⟨.fault, ?_⟩
    rw [getdentsRound, if_neg hlt.not_ge]
    by_cases hinode : s.1 + 4 ≤ blockSize
    · rw [load_inode hinode, Exec.ok_bind]
      by_cases hlive : inodeAt b s.1 ≠ 0
      · rw [if_pos hlive]
        by_cases hheader : s.1 + 8 ≤ blockSize
        · obtain ⟨-, hrest⟩ := Classical.not_imp.mp fun h => hsafe ⟨by omega, h⟩
          obtain ⟨hspace, hname⟩ := Classical.not_imp.mp fun h => hrest ⟨hheader, h⟩
          rw [load_type hheader, Exec.ok_bind, load_length (by omega), Exec.ok_bind, if_neg hspace,
            copyOut_error (not_le.mp hname), Exec.error_bind]
        · rw [load_error (by omega), Exec.error_bind]
      · have hsize : blockSize < s.1 + 4 + 2 := not_le.mp fun hsize => hsafe ⟨hsize, fun h => absurd h hlive⟩
        rw [if_neg hlive, load_error hsize, Exec.error_bind]
    · rw [load_error (not_le.mp hinode), Exec.error_bind]
  stops s _ hsafe hstop := by
    rcases Nat.lt_or_ge s.1 blockSize with hlt | hge
    · obtain ⟨hlive, hspace⟩ := hstop.resolve_left hlt.not_ge
      obtain ⟨-, hrest⟩ := hsafe hlt
      obtain ⟨hheader, -⟩ := hrest hlive
      rw [getdentsRound, if_neg hlt.not_ge, load_inode (by omega), Exec.ok_bind, if_pos hlive, load_type hheader,
        Exec.ok_bind, load_length (by omega), Exec.ok_bind, if_pos hspace]
      simp [getdentsPlan, hlt]
    · simp [getdentsRound, getdentsPlan, hge]
  leads s _ hsafe hstop := by
    obtain ⟨hlt, hspace⟩ := not_or.mp hstop
    obtain ⟨hsize, hrest⟩ := hsafe (not_le.mp hlt)
    rw [getdentsRound, if_neg hlt, load_inode (by omega), Exec.ok_bind]
    by_cases hlive : inodeAt b s.1 ≠ 0
    · obtain ⟨hheader, hname⟩ := hrest hlive
      have hspace : ¬NoSpace hardlimit s.2.allocatedlimit (23 + filenameLengthAt b s.1 + 1) := fun h => hspace ⟨hlive, h⟩
      rw [if_pos hlive, load_type hheader, Exec.ok_bind, load_length (by omega), Exec.ok_bind, if_neg hspace,
        copyOut_ok (hname hspace), Exec.ok_bind, load_size hsize, Exec.ok_bind]
      simp only [getdentsPlan, if_pos hlive]
      rfl
    · rw [if_neg hlive, load_size hsize, Exec.ok_bind]
      simp only [getdentsPlan, if_neg hlive]
  keeps _ _ _ _ := trivial

theorem empty_kept : (emptyPlan blockSize b).Kept (fun _ => True) (emptyRound blockSize b) where
  faults s _ hsafe := by
    obtain ⟨hlt, hlength⟩ := Classical.not_imp.mp hsafe
    refine ⟨.fault, ?_⟩
    rw [emptyRound, if_neg hlt.not_ge, load_error (by omega), Exec.error_bind]
  stops s _ hsafe hstop := by
    rcases Nat.lt_or_ge s.1 blockSize with hlt | hge
    · rw [emptyRound, if_neg hlt.not_ge, load_length (hsafe hlt), Exec.ok_bind, if_pos (hstop.resolve_left hlt.not_ge)]
      simp [emptyPlan, hlt.not_ge]
    · simp [emptyRound, emptyPlan, hge]
  leads s _ hsafe hstop := by
    obtain ⟨hlt, hgoes⟩ := not_or.mp hstop
    have hlength : s.1 + 7 ≤ blockSize := hsafe (not_le.mp hlt)
    rw [emptyRound, if_neg hlt, load_length hlength, Exec.ok_bind, if_neg hgoes, load_inode (by omega), Exec.ok_bind,
      load_size (by omega)]
    rfl
  keeps _ _ _ _ := trivial

end Keeping

/-! ### Where the loops end -/

section Ending
variable {blockSize hardlimit type inode : ℕ} {b : Block} {search filename : Filename}

theorem traverse_sticks : (traversePlan blockSize b search).Sticks fun _ => True :=
  Plan.sticks_of_next_eq fun o h => by simp [traversePlan, not_not.mp h]

theorem allocate_sticks : (allocatePlan blockSize b filename type inode).Sticks fun _ => True :=
  Plan.sticks_of_next_eq fun o h => by simp [allocatePlan, not_not.mp h]

theorem getdents_sticks : (getdentsPlan blockSize hardlimit b).Sticks fun _ => True := by
  apply Plan.sticks_of_next_eq
  intro s h
  obtain ⟨hsize, hlive⟩ := not_or.mp h
  simp [getdentsPlan, not_not.mp hsize, not_not.mp hlive]

theorem empty_sticks : (emptyPlan blockSize b).Sticks fun _ => True := by
  apply Plan.sticks_of_next_eq
  intro s h
  obtain ⟨hsize, hlive⟩ := not_or.mp h
  simp [emptyPlan, not_not.mp hsize, not_not.mp hlive]

/-- A removal at a record of size zero that is its own predecessor leaves the size. -/
theorem sizeAt_removed {o : ℕ} {ret : Bool} (hsize : sizeAt b o = 0) :
    sizeAt (RemoveState.removed filename ⟨b, o, some o, ret⟩) o = 0 := by
  unfold RemoveState.removed
  dsimp only
  split_ifs with hnamed ho
  · rw [← hsize, ho]
    exact Bytes.readNat_congr fun i hlo hhi => by
      rw [Bytes.writeNat_of_outside (by omega), Bytes.writeNat_of_outside (by omega)]
  · rw [Option.getD_some, hsize, sizeAt, Bytes.readNat_writeNat]
    rfl
  · exact hsize

theorem remove_sticks : (removePlan blockSize filename).Sticks (RemoveInv blockSize filename) := by
  intro s _ _ hstop hstuck
  have hsize : sizeAt (s.removed filename) s.o = 0 := not_not.mp hstuck
  simp only [removePlan, hsize, Nat.add_zero]
  exact ⟨hstop, not_not.mpr (sizeAt_removed hsize)⟩

theorem traverse_measured : (traversePlan blockSize b search).Measured (blockSize - ·) := by
  intro o _ hstop hadvances
  simp only [traversePlan, not_or] at *
  omega

theorem allocate_measured : (allocatePlan blockSize b filename type inode).Measured (blockSize - ·) := by
  intro o _ hstop hadvances
  simp only [allocatePlan, not_or] at *
  omega

theorem remove_measured : (removePlan blockSize filename).Measured fun s => blockSize - s.o := by
  intro s _ hstop hadvances
  simp only [removePlan] at *
  omega

theorem getdents_measured :
    (getdentsPlan blockSize hardlimit b).Measured fun s => blockSize - s.1 + (2 ^ 31 - s.2.allocatedlimit) := by
  intro s _ hstop hadvances
  obtain ⟨hlt, hspace⟩ := not_or.mp hstop
  simp only [getdentsPlan, NoSpace, not_and, not_or] at *
  by_cases hlive : inodeAt b s.1 ≠ 0
  · have := hspace hlive
    rw [if_pos hlive, Dents.add, Dirent.reclen]
    dsimp only
    omega
  · rw [if_neg hlive]
    omega

theorem empty_measured : (emptyPlan blockSize b).Measured fun s => blockSize - s.1 + (2 - s.2) := by
  intro s _ hstop hadvances
  simp only [emptyPlan, not_or] at *
  split_ifs <;> omega

/-- A record loop over a block with what it begins with. A listing begins where the place in
the directory says, with what the blocks before have given it. -/
inductive Scan where
  | traverse (search : Filename)
  | allocate (filename : Filename) (type inode : ℕ)
  | remove (filename : Filename)
  | getdents (d : Dents) (hardlimit : ℕ)
  | empty

/-- The loop ends, and all its accesses are inside the buffer. -/
def Scan.Ends (blockSize : ℕ) (b : Block) : Scan → Prop
  | traverse search => Loop.Ends (traverseRound blockSize b search) 0
  | allocate filename type inode => Loop.Ends (allocateRound blockSize b filename type inode) 0
  | remove filename => Loop.Ends (removeRound blockSize filename) ⟨b, 0, none, false⟩
  | getdents d hardlimit => Loop.Ends (getdentsRound blockSize hardlimit b) (d.ptr % blockSize, d)
  | empty => Loop.Ends (emptyRound blockSize b) (0, 0)

/-- Every record that the loop comes to before it stops lies in the buffer as far as it is
read or written, and has a size unless the loop stops at it. -/
def Scan.Handled (blockSize : ℕ) (b : Block) : Scan → Prop
  | traverse search => (traversePlan blockSize b search).Handled 0
  | allocate filename type inode => (allocatePlan blockSize b filename type inode).Handled 0
  | remove filename => (removePlan blockSize filename).Handled ⟨b, 0, none, false⟩
  | getdents d hardlimit => (getdentsPlan blockSize hardlimit b).Handled (d.ptr % blockSize, d)
  | empty => (emptyPlan blockSize b).Handled (0, 0)

theorem traverse_ends_iff :
    Loop.Ends (traverseRound blockSize b search) 0 ↔ (traversePlan blockSize b search).Handled 0 :=
  traverse_kept.ends_iff traverse_sticks traverse_measured trivial

/-- No size is checked: the loops end for the blocks that their plans can be kept on, and
for no others. -/
theorem scan_ends_iff_handled (blockSize : ℕ) (b : Block) (scan : Scan) :
    scan.Ends blockSize b ↔ scan.Handled blockSize b := by
  cases scan with
  | traverse search => exact traverse_ends_iff
  | allocate filename type inode => exact allocate_kept.ends_iff allocate_sticks allocate_measured trivial
  | remove filename => exact remove_kept.ends_iff remove_sticks remove_measured (Or.inl ⟨rfl, rfl⟩)
  | getdents d hardlimit => exact getdents_kept.ends_iff getdents_sticks getdents_measured trivial
  | empty => exact empty_kept.ends_iff empty_sticks empty_measured trivial

/-- In a block of zeros the first record leads to itself. -/
theorem zeroed_block_traversed_forever : ¬∀ (b : Block) (scan : Scan), scan.Ends 1024 b := by
  intro h
  have hhandled := traverse_ends_iff.mp (h (fun _ => 0) (.traverse [97]))
  rcases (hhandled 0 (.refl 0)).2 with (hstop | hnamed) | hsize
  · exact absurd hstop (by decide)
  · exact absurd hnamed (by decide)
  · exact hsize rfl

end Ending

/-! ### The walks with a bound are these loops -/

section Walks
variable {blockSize type inode : ℕ} {b : Block} {search filename : Filename}

theorem traverseWalk_eq {ret : ℕ} (h : (traversePlan blockSize b search).Handled 0)
    (hends : EndsWith (traverseRound blockSize b search) 0 ret) :
    traverseWalk blockSize search b (blockSize + 1) 0 = .ok ret := by
  apply traverse_kept.walk_eq traverse_measured (traverseWalk blockSize search b) _ _ trivial h hends (by omega)
  · intro n o _ hstop
    rw [traverseWalk]
    by_cases hlt : blockSize ≤ o
    · simp [traversePlan, hlt]
    · simp [traversePlan, hlt, hstop.resolve_left hlt]
  · intro n o _ hstop
    obtain ⟨hlt, hnamed⟩ := not_or.mp hstop
    rw [traverseWalk, if_neg hlt, if_neg hnamed]
    rfl

theorem allocateWalk_eq {ret : AllocateWalk} (h : (allocatePlan blockSize b filename type inode).Handled 0)
    (hends : EndsWith (allocateRound blockSize b filename type inode) 0 ret) :
    allocateWalk blockSize filename type inode b (blockSize + 1) 0 = .ok ret := by
  apply allocate_kept.walk_eq allocate_measured (allocateWalk blockSize filename type inode b) _ _ trivial h hends
    (by omega)
  · intro n o _ hstop
    rw [allocateWalk]
    by_cases hlt : blockSize ≤ o
    · simp [allocatePlan, hlt]
    · by_cases hnamed : namedAt b o filename = true
      · simp [allocatePlan, hlt, hnamed]
      · have hroom : RoomAt b filename o := (hstop.resolve_left hlt).resolve_left hnamed
        unfold RoomAt at hroom
        simp [allocatePlan, placedAt, hlt, hnamed, hroom]
  · intro n o _ hstop
    obtain ⟨hlt, hstop⟩ := not_or.mp hstop
    obtain ⟨hnamed, hroom⟩ := not_or.mp hstop
    rw [allocateWalk, if_neg hlt, if_neg hnamed]
    exact if_neg hroom

theorem removeWalk_eq {ret : Block × Bool} (h : (removePlan blockSize filename).Handled ⟨b, 0, none, false⟩)
    (hends : EndsWith (removeRound blockSize filename) ⟨b, 0, none, false⟩ ret) :
    removeWalk blockSize filename (blockSize + 1) b 0 0 false = .ok ret := by
  apply remove_kept.walk_eq remove_measured
    (fun n s => removeWalk blockSize filename n s.b s.o (s.before.getD 0) s.ret) _ _ (Or.inl ⟨rfl, rfl⟩) h hends
    (Nat.lt_succ_self blockSize)
  · intro n s _ hstop
    rw [removeWalk]
    exact if_pos hstop
  · intro n s _ hstop
    have hlt : ¬blockSize ≤ s.o := hstop
    rw [removeWalk, if_neg hlt]
    by_cases hnamed : namedAt s.b s.o filename = true
    · simp [removePlan, RemoveState.removed, hnamed]
    · simp [removePlan, RemoveState.removed, hnamed]

end Walks

end RecordLoop

end DualFuse.Filesystems
