import DualFuse.Filesystems.LinkChains
import DualFuse.Library.CString

/-! The buffers of a symbolic link: `ext2TraversePath` of `ext2_traverse.c` puts the target in
the place of the link's name, by lengths and offsets that it computes by hand, and
`fsResolveSymlink` of `vfs_mnt.cpp` copies the result behind the prefix of the mount point.
Every access is checked against the allocation. No access is outside, whatever the path
and the link; but behind an absolute target the rest of the path is left out. -/

namespace DualFuse.Filesystems.VfsPath

open Library PathText

/-- An ext2 file system with what its links hold: the bytes of `inode->blocks`, and the content
of the block that the first of them is the number of. -/
structure LinkStore where
  names : Ext2Names
  inodeBlocks : ℕ → PathName
  firstBlock : ℕ → Block
  length_inodeBlocks : ∀ inode, (inodeBlocks inode).length = 60

namespace LinkStore

variable (v : LinkStore)

/-- The target in the place of the name, in a cleared buffer. -/
def expand (path : PathName) (lastslash length size : ℕ) (start symlinkTarget : PathName) : Exec PathName :=
  if start.head? ≠ some slash then do
    let symlinkTarget ← CString.memcpy symlinkTarget 0 (path ++ [0]) 0 (lastslash + 1)
    let symlinkTarget ← CString.memcpy symlinkTarget (lastslash + 1) start 0 size
    CString.memcpy symlinkTarget (lastslash + 1 + size) (path ++ [0]) (lastslash + 1 + length)
      (path.length - (lastslash + 1 + length))
  else do
    let symlinkTarget ← CString.setAt symlinkTarget 0 bang
    CString.memcpy symlinkTarget 1 start 0 size

/-- The link that a walk has met: its target is in the inode, or in a block if it is longer. -/
def symlinkTarget (path : PathName) (lastslash length inode : ℕ) : Exec PathName :=
  let size := (v.names.inodes inode).size
  if 60 < size then
    if size < v.names.blockSize then
      expand path lastslash length size (Bytes.read (v.firstBlock inode) 0 v.names.blockSize ++ [0])
        (List.replicate (path.length + size + 2) 0)
    else .error .assertion
  else expand path lastslash length size (v.inodeBlocks inode) (List.replicate (path.length + 60 + 2) 0)

/-- What a walk does with the inode that it found for a part of the path: it returns, or it
goes on. -/
def arrive (path : PathName) (follow last : Bool) (lastslash length curr : ℕ) :
    Exec (Option (ℕ × Option PathName)) :=
  if curr = 0 then .ok (some (0, none))
  else if (v.names.inodes curr).isSymlink ∧ (!last ∨ follow) then do
    let target ← v.symlinkTarget path lastslash length curr
    .ok (some (0, some target))
  else if last then .ok (some (curr, none))
  else if !(v.names.inodes curr).isDirectory then .ok (some (0, none))
  else .ok none

/-- The loop over the bytes of a path from place `i` on, `n` of them to go. -/
def traverseAt (path : PathName) (follow : Bool) : (n i curr lastslash : ℕ) → Exec (ℕ × Option PathName)
  | 0, _, _, _ => .ok (0, none)
  | n + 1, i, curr, lastslash =>
    let last := decide (i + 1 = path.length)
    if path[i]? = some slash ∨ last then do
      let length := i - lastslash - 1 + if last then 1 else 0
      let curr ← v.names.ext2Traverse curr ((path.drop (lastslash + 1)).take length)
      match ← v.arrive path follow last lastslash length curr with
      | some ret => .ok ret
      | none => traverseAt path follow n (i + 1) curr i
    else traverseAt path follow n (i + 1) curr lastslash

/-- The inode, and the buffer in `symlinkResolve`. -/
def ext2TraversePath (path : PathName) (follow : Bool) : Exec (ℕ × Option PathName) :=
  if path.length = 1 then .ok (rootInode, none) else v.traverseAt path follow (path.length - 1) 1 rootInode 0

/-- A link with a text, which is in the inode up to 60 bytes and in the block if it is longer. -/
structure Stores (inode : ℕ) (t : PathName) : Prop where
  isSymlink : (v.names.inodes inode).isSymlink
  size : (v.names.inodes inode).size = t.length
  text : 0 ∉ t
  place : if 60 < t.length then Bytes.read (v.firstBlock inode) 0 t.length = t
    else v.inodeBlocks inode = t ++ List.replicate (60 - t.length) 0

end LinkStore

/-- `fsResolveSymlink` on the buffer of a link; `fresh` is what new memory holds. -/
def resolveBuffer (mnt : MountPoint) (fresh : ℕ → PathName) (symlink : PathName) : Exec (Option PathName) := do
  let symlinkLength ← CString.strlen symlink
  let prefixLength := mnt.mountPrefix.length - 1
  if symlink.head? = some slash then do
    let ret ← CString.memcpy (fresh (prefixLength + symlinkLength + 1)) 0 (mnt.mountPrefix ++ [0]) 0 prefixLength
    let ret ← CString.memcpy ret prefixLength symlink 0 symlinkLength
    let ret ← CString.setAt ret (prefixLength + symlinkLength) 0
    .ok (some ret)
  else if symlink.head? = some bang then do
    let ret ← CString.memcpy (fresh (symlinkLength + 1)) 0 symlink 1 symlinkLength
    let ret ← CString.setAt ret symlinkLength 0
    .ok (some ret)
  else .ok none

/-! ### The buffer of a link -/

namespace LinkStore

section Buffer
variable {v : LinkStore} {done c rest start t : PathName} {n inode : ℕ}

theorem expand_relative (hdone : done ≠ []) (hstart : start.head? ≠ some slash) (ht : start.take t.length = t)
    (hlength : t.length ≤ start.length) (hfits : (done ++ c ++ rest).length + t.length < n) :
    ∃ m > 0, expand (done ++ c ++ rest) (done.length - 1) c.length t.length start (List.replicate n 0) =
      .ok (done ++ t ++ rest ++ List.replicate m 0) := by
  have hpos : 0 < done.length := List.length_pos_iff.mpr hdone
  have hplace : done.length - 1 + 1 = done.length := by omega
  simp only [List.length_append] at hfits
  have hrest : (done ++ c ++ rest).length - (done.length + c.length) = rest.length := by
    simp only [List.length_append]
    omega
  have hhead : CString.memcpy (List.replicate n 0) 0 (done ++ c ++ rest ++ [0]) 0 done.length =
      .ok (done ++ List.replicate (n - done.length) 0) := by
    have := CString.memcpy_append [] done (List.replicate n (0 : BitVec 8)) (done ++ c ++ rest ++ [0]) 0
      (by simp) (by simp) (by simp; omega)
    simpa using this
  have htarget := CString.memcpy_append done t (List.replicate (n - done.length) (0 : BitVec 8)) start 0
    (by simpa using ht) (by simpa using hlength) (by simp; omega)
  have hlast := CString.memcpy_append (done ++ t) rest (List.replicate (n - done.length - t.length) (0 : BitVec 8))
    (done ++ c ++ rest ++ [0]) (done.length + c.length) (by simp) (by simp; omega) (by simp; omega)
  rw [List.drop_replicate] at htarget hlast
  rw [List.length_append] at hlast
  refine ⟨n - done.length - t.length - rest.length, by omega, ?_⟩
  rw [expand, if_pos hstart, hplace, hhead, Exec.ok_bind, htarget, Exec.ok_bind, hrest, hlast]

theorem expand_absolute {path : PathName} {lastslash length : ℕ} (hstart : start.head? = some slash)
    (ht : start.take t.length = t) (hlength : t.length ≤ start.length) (hfits : t.length + 1 < n) :
    ∃ m > 0, expand path lastslash length t.length start (List.replicate n 0) =
      .ok (bang :: t ++ List.replicate m 0) := by
  have hset : CString.setAt (List.replicate n 0) 0 bang = .ok ([bang] ++ List.replicate (n - 1) 0) := by
    obtain ⟨k, rfl⟩ : ∃ k, n = k + 1 := ⟨n - 1, by omega⟩
    rw [CString.setAt, if_pos (by simp)]
    rfl
  have htarget := CString.memcpy_append [bang] t (List.replicate (n - 1) (0 : BitVec 8)) start 0
    (by simpa using ht) (by simpa using hlength) (by simp; omega)
  rw [List.drop_replicate] at htarget
  refine ⟨n - 1 - t.length, by omega, ?_⟩
  rw [expand, if_neg (not_not.mpr hstart), hset, Exec.ok_bind]
  exact htarget

/-- What the code copies begins with the text. -/
theorem Stores.start_eq (h : v.Stores inode t) (hsize : t.length < v.names.blockSize) (path : PathName)
    (lastslash length : ℕ) :
    ∃ tail size, t.length ≤ size ∧ (t = [] → tail.head? ≠ some slash) ∧
      v.symlinkTarget path lastslash length inode =
        expand path lastslash length t.length (t ++ tail) (List.replicate (path.length + size + 2) 0) := by
  have hplace := h.place
  unfold symlinkTarget
  rw [h.size]
  by_cases hlong : 60 < t.length
  · rw [if_pos hlong] at hplace
    have hread : Bytes.read (v.firstBlock inode) 0 v.names.blockSize =
        t ++ Bytes.read (v.firstBlock inode) t.length (v.names.blockSize - t.length) := by
      have hsplit := Bytes.read_append (v.firstBlock inode) 0 t.length (v.names.blockSize - t.length)
      rw [hplace, Nat.zero_add, Nat.add_sub_cancel' hsize.le] at hsplit
      exact hsplit.symm
    refine ⟨_, t.length, le_rfl, fun hnil => ?_, by rw [if_pos hlong, if_pos hsize, hread, List.append_assoc]⟩
    rw [hnil] at hlong
    exact absurd hlong (by decide)
  · rw [if_neg hlong] at hplace
    refine ⟨_, 60, by omega, fun hnil => ?_, by rw [if_neg hlong, hplace]⟩
    rw [hnil]
    decide

/-- The buffer of a link: the bytes of the target in the place of its name, or alone and
marked. It is long enough for them and a terminator. -/
theorem Stores.symlinkTarget_holds (h : v.Stores inode t) (hsize : t.length < v.names.blockSize) (hdone : done ≠ [])
    (hpath : 0 ∉ done ++ rest) :
    ∃ buf, v.symlinkTarget (done ++ c ++ rest) (done.length - 1) c.length inode = .ok buf ∧
      CString.Holds buf (if t.head? = some slash then bang :: t else done ++ t ++ rest) := by
  obtain ⟨tail, size, hle, htail, heq⟩ := h.start_eq hsize (done ++ c ++ rest) (done.length - 1) c.length
  have hhead : (t ++ tail).head? = some slash ↔ t.head? = some slash := by
    cases t with
    | nil => simpa using htail rfl
    | cons a t => rfl
  have htext := h.text
  rw [List.mem_append, not_or] at hpath
  rw [heq]
  by_cases habsolute : t.head? = some slash
  · rw [if_pos habsolute]
    have hzero : 0 ∉ bang :: t := by
      rw [List.mem_cons, not_or]
      exact ⟨by decide, htext⟩
    have hfits : t.length + 1 < (done ++ c ++ rest).length + size + 2 := by omega
    obtain ⟨m, hm, hbuf⟩ := expand_absolute (hhead.mpr habsolute) List.take_left (by simp) hfits
    exact ⟨_, hbuf, CString.holds_zeros hzero hm⟩
  · rw [if_neg habsolute]
    have hzero : 0 ∉ done ++ t ++ rest := by
      simp only [List.mem_append, not_or]
      exact ⟨⟨hpath.1, htext⟩, hpath.2⟩
    have hfits : (done ++ c ++ rest).length + t.length < (done ++ c ++ rest).length + size + 2 := by omega
    obtain ⟨m, hm, hbuf⟩ := expand_relative hdone (fun hslash => habsolute (hhead.mp hslash)) List.take_left (by simp)
      hfits
    exact ⟨_, hbuf, CString.holds_zeros hzero hm⟩

end Buffer

end LinkStore

/-! ### Resolving the buffer -/

section Resolve
variable {mnt : MountPoint} {fresh : ℕ → PathName} {symlink str rest resolved : PathName}

/-- A link that is absolute in its file system, behind the prefix of the mount point. -/
theorem resolveBuffer_slash (hfresh : ∀ n, (fresh n).length = n) (hmnt : 0 ∉ mnt.mountPrefix)
    (h : CString.Holds symlink (slash :: rest)) :
    ∃ ret, resolveBuffer mnt fresh symlink = .ok (some ret) ∧ CString.Holds ret (mnt.base ++ slash :: rest) := by
  obtain ⟨hzero, tail, rfl⟩ := id h
  have hbase : mnt.base.length = mnt.mountPrefix.length - 1 := List.length_dropLast
  have htake : ((mnt.mountPrefix ++ [0]).drop 0).take mnt.base.length = mnt.base := by
    rw [List.drop_zero, hbase, List.take_append_of_le_length (Nat.sub_le _ _), ← List.dropLast_eq_take]
    rfl
  have hlink : (((slash :: rest ++ 0 :: tail).drop 0).take (slash :: rest).length) = slash :: rest := List.take_left
  have hnozero : 0 ∉ mnt.base ++ slash :: rest := by
    rw [List.mem_append, not_or]
    exact ⟨fun hmem => hmnt (List.dropLast_subset _ hmem), hzero⟩
  have hmemory := hfresh (mnt.base.length + (slash :: rest).length + 1)
  unfold resolveBuffer
  rw [h.strlen_eq, Exec.ok_bind, ← hbase, List.cons_append, List.head?_cons]
  dsimp only
  rw [if_pos rfl, ← List.cons_append]
  generalize fresh (mnt.base.length + (slash :: rest).length + 1) = memory at hmemory ⊢
  have hcopy : CString.memcpy memory 0 (mnt.mountPrefix ++ [0]) 0 mnt.base.length =
      .ok (mnt.base ++ memory.drop mnt.base.length) :=
    CString.memcpy_append [] mnt.base memory (mnt.mountPrefix ++ [0]) 0 htake (by simp; omega) (by omega)
  have hbehind := CString.memcpy_append mnt.base (slash :: rest) (memory.drop mnt.base.length) _ 0 hlink (by simp)
    (by rw [List.length_drop]; omega)
  have hroom : 0 < ((memory.drop mnt.base.length).drop (slash :: rest).length).length := by
    rw [List.length_drop, List.length_drop]
    omega
  obtain ⟨ret, hret, hholds⟩ := CString.setAt_holds hnozero hroom
  rw [List.length_append] at hret
  rw [hcopy, Exec.ok_bind, hbehind, Exec.ok_bind, hret]
  exact ⟨ret, rfl, hholds⟩

/-- A marked link, without its mark. The copy takes the terminator of the buffer along. -/
theorem resolveBuffer_bang (hfresh : ∀ n, (fresh n).length = n) (h : CString.Holds symlink (bang :: rest)) :
    ∃ ret, resolveBuffer mnt fresh symlink = .ok (some ret) ∧ CString.Holds ret rest := by
  obtain ⟨hzero, tail, rfl⟩ := id h
  have hmemory := hfresh ((bang :: rest).length + 1)
  unfold resolveBuffer
  rw [h.strlen_eq, Exec.ok_bind, List.cons_append, List.head?_cons]
  dsimp only
  rw [if_neg (by simp [bang, slash]), if_pos rfl, ← List.cons_append]
  generalize fresh ((bang :: rest).length + 1) = memory at hmemory ⊢
  have hlength : (rest ++ [0]).length = (bang :: rest).length := by simp
  have hlink : (((bang :: rest ++ 0 :: tail).drop 1).take (rest ++ [0]).length) = rest ++ [0] := by
    have hsplit : (bang :: rest ++ 0 :: tail).drop 1 = rest ++ [0] ++ tail := by simp
    rw [hsplit, List.take_left]
  have hcopy : CString.memcpy memory 0 (bang :: rest ++ 0 :: tail) 1 (bang :: rest).length =
      .ok (rest ++ [0] ++ memory.drop (bang :: rest).length) :=
    hlength ▸ CString.memcpy_append [] (rest ++ [0]) memory _ 1 hlink (by simp; omega) (by omega)
  have hset : CString.setAt (rest ++ [0] ++ memory.drop (bang :: rest).length) (bang :: rest).length 0 =
      .ok (rest ++ 0 :: (memory.drop (bang :: rest).length).set 0 0) := by
    have hinside : (bang :: rest).length < (rest ++ [0] ++ memory.drop (bang :: rest).length).length := by
      rw [List.length_append, hlength, List.length_drop]
      omega
    rw [CString.setAt, if_pos hinside, List.set_append_right _ _ hlength.le, hlength, Nat.sub_self]
    simp
  rw [hcopy, Exec.ok_bind, hset]
  exact ⟨_, rfl, fun hmem => hzero (List.mem_cons_of_mem _ hmem), _, rfl⟩

/-- The copy of `fsResolveSymlink` holds what the link resolves to. -/
theorem resolveBuffer_holds (hfresh : ∀ n, (fresh n).length = n) (hmnt : 0 ∉ mnt.mountPrefix)
    (h : CString.Holds symlink str) (hresolved : fsResolveSymlink mnt str = some resolved) :
    ∃ ret, resolveBuffer mnt fresh symlink = .ok (some ret) ∧ CString.Holds ret resolved := by
  cases str with
  | nil => cases hresolved
  | cons c rest =>
    rw [fsResolveSymlink] at hresolved
    split_ifs at hresolved with hslash hbang
    · obtain rfl := hslash
      obtain rfl := Option.some.inj hresolved
      have := resolveBuffer_slash hfresh hmnt h
      rwa [MountPoint.base, List.dropLast_eq_take] at this
    · obtain rfl := hbang
      obtain rfl := Option.some.inj hresolved
      exact resolveBuffer_bang hfresh h

end Resolve

/-! ### The walk to the link -/

namespace LinkStore

section Walk
variable {v : LinkStore} {path done c rest : PathName} {follow : Bool} {n i curr d p lastslash : ℕ}

/-- Bytes inside a component are passed over. -/
theorem traverseAt_skip (k : ℕ) (hn : n + i = path.length) (hplain : ∀ j, i ≤ j → j < i + k → path[j]? ≠ some slash)
    (hk : i + k < path.length) :
    v.traverseAt path follow n i curr lastslash = v.traverseAt path follow (n - k) (i + k) curr lastslash := by
  induction k generalizing n i with
  | zero => rfl
  | succ k ih =>
    obtain ⟨m, rfl⟩ : ∃ m, n = m + 1 := ⟨n - 1, by omega⟩
    have hinside : ¬(path[i]? = some slash ∨ decide (i + 1 = path.length) = true) := by
      rw [decide_eq_true_eq, not_or]
      exact ⟨hplain i le_rfl (by omega), by omega⟩
    rw [traverseAt]
    dsimp only
    rw [if_neg hinside, ih (by omega) (fun j hj hlt => hplain j (by omega) (by omega)) (by omega),
      Nat.add_sub_add_right, Nat.add_right_comm, Nat.add_assoc]

/-- A component that another one follows. -/
theorem traverseAt_middle (hdone : done ≠ []) (hc : slash ∉ c) (hrest : rest ≠ [])
    (hpath : path = done ++ c ++ slash :: rest) :
    v.traverseAt path follow (path.length - done.length) done.length curr (done.length - 1) = (do
      let curr ← v.names.ext2Traverse curr c
      match ← v.arrive path follow false (done.length - 1) c.length curr with
      | some ret => .ok ret
      | none => v.traverseAt path follow rest.length (done.length + c.length + 1) curr (done.length + c.length)) := by
  have hpos : 0 < done.length := List.length_pos_iff.mpr hdone
  have hrestpos : 0 < rest.length := List.length_pos_iff.mpr hrest
  have hlength : path.length = done.length + c.length + 1 + rest.length := by
    rw [hpath]
    simp
    omega
  have hplain : ∀ j, done.length ≤ j → j < done.length + c.length → path[j]? ≠ some slash := by
    intro j hj hlt heq
    rw [hpath, List.append_assoc, List.getElem?_append_right hj, List.getElem?_append_left (by omega)] at heq
    exact hc (List.mem_of_getElem? heq)
  have hslash : path[done.length + c.length]? = some slash := by
    rw [hpath, ← List.length_append, List.getElem?_append_right le_rfl, Nat.sub_self]
    rfl
  have hcomponent : (path.drop (done.length - 1 + 1)).take c.length = c := by
    rw [Nat.sub_add_cancel hpos, hpath, List.append_assoc, List.drop_left, List.take_left]
  rw [traverseAt_skip c.length (by omega) hplain (by omega),
    show path.length - done.length - c.length = rest.length + 1 by omega, traverseAt]
  have hlast : decide (done.length + c.length + 1 = path.length) = false := decide_eq_false (by omega)
  dsimp only
  rw [hlast, if_pos (Or.inl hslash)]
  have hcount : done.length + c.length - (done.length - 1) - 1 = c.length := by omega
  simp only [Bool.false_eq_true, if_false, Nat.add_zero, hcount, hcomponent]

/-- The last component. -/
theorem traverseAt_last (hdone : done ≠ []) (hc : slash ∉ c) (hne : c ≠ []) (hpath : path = done ++ c) :
    v.traverseAt path follow (path.length - done.length) done.length curr (done.length - 1) = (do
      let curr ← v.names.ext2Traverse curr c
      match ← v.arrive path follow true (done.length - 1) c.length curr with
      | some ret => .ok ret
      | none => .ok (0, none)) := by
  have hpos : 0 < done.length := List.length_pos_iff.mpr hdone
  have hcpos : 0 < c.length := List.length_pos_iff.mpr hne
  have hlength : path.length = done.length + c.length := by rw [hpath, List.length_append]
  have hplain : ∀ j, done.length ≤ j → j < done.length + (c.length - 1) → path[j]? ≠ some slash := by
    intro j hj hlt heq
    rw [hpath, List.getElem?_append_right hj] at heq
    exact hc (List.mem_of_getElem? heq)
  have hcomponent : (path.drop (done.length - 1 + 1)).take c.length = c := by
    rw [Nat.sub_add_cancel hpos, hpath, List.drop_left, List.take_length]
  rw [traverseAt_skip (c.length - 1) (by omega) hplain (by omega),
    show path.length - done.length - (c.length - 1) = 0 + 1 by omega, traverseAt]
  have hlast : decide (done.length + (c.length - 1) + 1 = path.length) = true := decide_eq_true (by omega)
  dsimp only
  rw [hlast, if_pos (Or.inr rfl)]
  have hcount : done.length + (c.length - 1) - (done.length - 1) - 1 + 1 = c.length := by omega
  simp only [if_true, hcount, hcomponent, traverseAt]

/-- The components lead from one directory to another, by directories only. -/
def Through (v : LinkStore) : ℕ → List PathName → ℕ → Prop
  | d, [], p => d = p
  | d, c :: cs, p => ∃ d' ≠ 0, v.names.ext2Traverse d c = .ok d' ∧ (v.names.inodes d').isDirectory ∧ v.Through d' cs p

theorem not_isSymlink_of_isDirectory {i : Ext2Inode} (h : i.isDirectory) : ¬i.isSymlink := by
  unfold Ext2Inode.isDirectory at h
  unfold Ext2Inode.isSymlink
  rw [bne_iff_ne] at h
  rw [beq_iff_eq]
  intro hlink
  refine h ?_
  rw [show 0x4000 = 0xF000 &&& 0x4000 by decide, ← Nat.and_assoc, hlink]
  decide

theorem arrive_directory {length : ℕ} (hcurr : curr ≠ 0) (h : (v.names.inodes curr).isDirectory) :
    v.arrive path follow false lastslash length curr = .ok none := by
  rw [arrive, if_neg hcurr, if_neg (fun hlink => not_isSymlink_of_isDirectory h hlink.1)]
  simp [h]

/-- The walk over the directories before the link. -/
theorem traverseAt_through {cs : List PathName} (hthrough : v.Through d cs p) (hdone : done ≠ [])
    (hcs : ∀ c ∈ cs, slash ∉ c) (hrest : rest ≠ []) (hpath : path = done ++ cs.flatMap (· ++ [slash]) ++ rest)
    (follow : Bool) :
    v.traverseAt path follow (path.length - done.length) done.length d (done.length - 1) =
      v.traverseAt path follow rest.length (path.length - rest.length) p (path.length - rest.length - 1) := by
  induction cs generalizing d done with
  | nil =>
    obtain rfl : d = p := hthrough
    have hlength : path.length = done.length + rest.length := by
      rw [hpath]
      simp
    rw [hlength, Nat.add_sub_cancel, Nat.add_sub_cancel_left]
  | cons c cs ih =>
    obtain ⟨d', hd', htraverse, hdirectory, hthrough⟩ := hthrough
    have hbehind : cs.flatMap (· ++ [slash]) ++ rest ≠ [] := fun heq => hrest (List.append_eq_nil_iff.mp heq).2
    have hsplit : path = done ++ c ++ slash :: (cs.flatMap (· ++ [slash]) ++ rest) := hpath.trans (by simp)
    rw [traverseAt_middle hdone (hcs c List.mem_cons_self) hbehind hsplit, htraverse, Exec.ok_bind,
      arrive_directory hd' hdirectory, Exec.ok_bind]
    have hdone' : done ++ c ++ [slash] ≠ [] := by simp
    have hnext := ih hthrough hdone' (fun k hk => hcs k (List.mem_cons_of_mem _ hk)) (hpath.trans (by simp))
    have hlength : path.length = (done ++ c ++ [slash]).length + (cs.flatMap (· ++ [slash]) ++ rest).length := by
      rw [hpath]
      simp
      omega
    have hplace : (done ++ c ++ [slash]).length = done.length + c.length + 1 := by simp; omega
    rw [hlength, Nat.add_sub_cancel_left, ← hlength, hplace] at hnext
    exact hnext

end Walk

/-! ### The walk without its buffers -/

section Plain
variable {v : LinkStore} {follow : Bool} {lastslash length inode : ℕ}

/-- The copies are inside the buffer, whatever is copied. -/
theorem expand_ok {done c rest start : PathName} {size n : ℕ} (hdone : done ≠ []) (hsize : size ≤ start.length)
    (hn : (done ++ c ++ rest).length + size + 1 < n) :
    ∃ buf, expand (done ++ c ++ rest) (done.length - 1) c.length size start (List.replicate n 0) = .ok buf := by
  obtain ⟨t, ht, hle, rfl⟩ : ∃ t, start.take t.length = t ∧ t.length ≤ start.length ∧ t.length = size := by
    have hlength : (start.take size).length = size := List.length_take_of_le hsize
    exact ⟨start.take size, by rw [hlength], by rw [hlength]; exact hsize, hlength⟩
  by_cases hstart : start.head? = some slash
  · obtain ⟨m, -, hbuf⟩ : ∃ m > 0, expand (done ++ c ++ rest) (done.length - 1) c.length t.length start
        (List.replicate n 0) = .ok (bang :: t ++ List.replicate m 0) :=
      expand_absolute hstart ht hle (by omega)
    exact ⟨_, hbuf⟩
  · obtain ⟨m, -, hbuf⟩ : ∃ m > 0, expand (done ++ c ++ rest) (done.length - 1) c.length t.length start
        (List.replicate n 0) = .ok (done ++ t ++ rest ++ List.replicate m 0) :=
      expand_relative hdone hstart ht hle (by omega)
    exact ⟨_, hbuf⟩

/-- A link fails the assertion or has a buffer. -/
theorem symlinkTarget_ok (v : LinkStore) (inode : ℕ) {done : PathName} (c rest : PathName) (hdone : done ≠ []) :
    if 60 < (v.names.inodes inode).size ∧ v.names.blockSize ≤ (v.names.inodes inode).size
    then v.symlinkTarget (done ++ c ++ rest) (done.length - 1) c.length inode = .error .assertion
    else ∃ buf, v.symlinkTarget (done ++ c ++ rest) (done.length - 1) c.length inode = .ok buf := by
  unfold symlinkTarget
  dsimp only
  by_cases hlong : 60 < (v.names.inodes inode).size
  · by_cases hshort : (v.names.inodes inode).size < v.names.blockSize
    · rw [if_neg (by omega), if_pos hlong, if_pos hshort]
      exact expand_ok hdone (by rw [List.length_append, Bytes.length_read]; omega) (by omega)
    · rw [if_pos (by omega), if_pos hlong, if_neg hshort]
  · rw [if_neg (fun h => hlong h.1), if_neg hlong]
    exact expand_ok hdone (by rw [v.length_inodeBlocks]; omega) (by omega)

theorem arrive_fst (v : LinkStore) (follow : Bool) (inode : ℕ) {done : PathName} (c rest : PathName)
    (hdone : done ≠ []) (last : Bool) :
    Option.map Prod.fst <$> v.arrive (done ++ c ++ rest) follow last (done.length - 1) c.length inode =
      v.names.arrive follow last inode := by
  unfold arrive Ext2Names.arrive
  split_ifs with hzero hlink hlong
  · rfl
  · have htarget := v.symlinkTarget_ok inode c rest hdone
    rw [if_pos hlong] at htarget
    rw [htarget]
    rfl
  · have htarget := v.symlinkTarget_ok inode c rest hdone
    rw [if_neg hlong] at htarget
    obtain ⟨buf, hbuf⟩ := htarget
    rw [hbuf]
    rfl
  · rfl
  · rfl
  · rfl

/-- The walk over the bytes by their places is the walk along the list of them. -/
theorem traverseAt_fst {path rest : PathName} (done c : PathName) (curr : ℕ) (hdone : done ≠ [])
    (hpath : path = done ++ c ++ rest) :
    Prod.fst <$> v.traverseAt path follow rest.length (done.length + c.length) curr (done.length - 1) =
      v.names.traverseFrom follow curr c rest := by
  induction rest generalizing done c curr with
  | nil => rfl
  | cons a rest ih =>
    have hpos : 0 < done.length := List.length_pos_iff.mpr hdone
    have hlength : path.length = done.length + c.length + 1 + rest.length := by
      rw [hpath]
      simp
      omega
    have hbyte : path[done.length + c.length]? = some a := by
      rw [hpath, ← List.length_append, List.getElem?_append_right le_rfl, Nat.sub_self]
      rfl
    have hlast : decide (done.length + c.length + 1 = path.length) = rest.isEmpty := by
      rw [hlength]
      cases rest with
      | nil => simp
      | cons b rest => simp
    have hcount : done.length + c.length - (done.length - 1) - 1 = c.length := by omega
    have hslash : Filesystems.slash = slash := rfl
    rw [List.length_cons, traverseAt, Ext2Names.traverseFrom, hslash]
    dsimp only
    rw [hbyte, hlast, hcount]
    simp only [Option.some.injEq, List.isEmpty_iff]
    by_cases hstop : a = slash ∨ rest = []
    · rw [if_pos hstop, if_pos hstop]
      -- the component has the last byte of the path, which is no slash to leave out
      obtain ⟨name, tail, hname, hsplit, hcomponent⟩ : ∃ name tail, (if rest = [] then c ++ [a] else c) = name ∧
          path = done ++ name ++ tail ∧ (c.length + if rest = [] then 1 else 0) = name.length := by
        by_cases hrest : rest = []
        · exact ⟨c ++ [a], [], if_pos hrest, by rw [hpath, hrest]; simp, by rw [if_pos hrest]; simp⟩
        · exact ⟨c, a :: rest, if_neg hrest, hpath, by rw [if_neg hrest, Nat.add_zero]⟩
      have htake : (path.drop (done.length - 1 + 1)).take name.length = name := by
        rw [Nat.sub_add_cancel hpos, hsplit, List.append_assoc, List.drop_left, List.take_left]
      rw [hcomponent, hname, htake]
      cases v.names.ext2Traverse curr name with
      | error e => rfl
      | ok found =>
        have harrive := v.arrive_fst follow found name tail hdone rest.isEmpty
        rw [← hsplit] at harrive
        rw [Exec.ok_bind, Exec.ok_bind, ← harrive]
        cases v.arrive path follow rest.isEmpty (done.length - 1) name.length found with
        | error e => rfl
        | ok ret =>
          cases ret with
          | some ret => rfl
          | none =>
            have hnext := ih (done ++ c ++ [a]) [] found (by simp) (by rw [hpath]; simp)
            rw [List.length_append, List.length_append] at hnext
            exact hnext
    · rw [if_neg hstop, if_neg hstop]
      have hnext := ih done (c ++ [a]) curr hdone (by rw [hpath]; simp)
      rw [List.length_append] at hnext
      exact hnext

/-- The walk stops only where it would without its buffers: every copy is inside its memory. -/
theorem ext2TraversePath_fst (v : LinkStore) (path : PathName) (follow : Bool) :
    Prod.fst <$> v.ext2TraversePath path follow = v.names.ext2TraversePath path follow := by
  unfold ext2TraversePath Ext2Names.ext2TraversePath
  split_ifs with hone
  · rfl
  · cases path with
    | nil => rfl
    | cons a path => exact traverseAt_fst [a] [] rootInode (List.cons_ne_nil a []) rfl

end Plain

/-! ### The expansion -/

/-- A path whose first link is component `c`: directories lead to it, and it is followed. -/
structure Meets (v : LinkStore) (before : List PathName) (c : PathName) (after : List PathName) (follow : Bool)
    (inode : ℕ) (t : PathName) : Prop where
  clean : ∀ d ∈ before ++ c :: after, d ≠ [] ∧ slash ∉ d ∧ 0 ∉ d
  found : ∃ d, v.Through rootInode before d ∧ v.names.ext2Traverse d c = .ok inode
  exists_inode : inode ≠ 0
  stores : v.Stores inode t
  short : t.length < v.names.blockSize
  follows : after ≠ [] ∨ follow

/-- What the path stands for: the target and what is behind the link, after what is before it
if the target is relative. -/
def followed (mnt : MountPoint) (before after : List PathName) (t : PathName) : PathName :=
  if t.head? = some slash then t ++ spread slash after
  else mnt.base ++ (spread slash before ++ slash :: t ++ spread slash after)

/-- No inode is returned, and what the buffer of the link is resolved to is the path that the
given one stands for. -/
def Expands (v : LinkStore) (mnt : MountPoint) (fresh : ℕ → PathName) (path : PathName) (follow : Bool)
    (expected : PathName) : Prop :=
  ∃ buf ret, v.ext2TraversePath path follow = .ok (0, some buf) ∧
    resolveBuffer mnt fresh buf = .ok (some ret) ∧ CString.Holds ret expected

section Expansion
variable {v : LinkStore} {mnt : MountPoint} {fresh : ℕ → PathName} {before after : List PathName} {c t : PathName}
  {follow : Bool} {inode : ℕ}

/-- The walk goes to the link, with its name left. -/
theorem Meets.walk_to (h : v.Meets before c after follow inode t) {done path : PathName}
    (hdone : done = spread slash before ++ [slash]) (hpath : path = done ++ c ++ spread slash after) :
    ∃ d, v.names.ext2Traverse d c = .ok inode ∧ v.ext2TraversePath path follow =
      v.traverseAt path follow (path.length - done.length) done.length d (done.length - 1) := by
  obtain ⟨d, hthrough, htraverse⟩ := h.found
  have hc := h.clean c (by simp)
  have hrest : c ++ spread slash after ≠ [] := fun heq => hc.1 (List.append_eq_nil_iff.mp heq).1
  have hsplit : done = [slash] ++ before.flatMap (· ++ [slash]) := by
    rw [hdone]
    exact spread_append_singleton slash before
  have hlength : path.length = done.length + (c ++ spread slash after).length := by
    rw [hpath, List.append_assoc, List.length_append]
  have hcpos : 0 < c.length := List.length_pos_iff.mpr hc.1
  have hdonepos : 0 < done.length := by rw [hdone]; simp
  have hpath' : path = [slash] ++ before.flatMap (· ++ [slash]) ++ (c ++ spread slash after) := by
    rw [hpath, hsplit, List.append_assoc]
  have hwalk := traverseAt_through hthrough (List.cons_ne_nil slash [])
    (fun k hk => (h.clean k (List.mem_append_left _ hk)).2.1) hrest hpath' follow
  rw [hlength, Nat.add_sub_cancel] at hwalk
  refine ⟨d, htraverse, ?_⟩
  rw [LinkStore.ext2TraversePath, if_neg (by rw [hlength, List.length_append]; omega), hlength,
    Nat.add_sub_cancel_left]
  exact hwalk

theorem Meets.arrive_link (h : v.Meets before c after follow inode t) {done : PathName}
    (hdone : done = spread slash before ++ [slash]) (last : Bool) (hlast : last = true → follow = true) :
    ∃ buf, v.arrive (done ++ c ++ spread slash after) follow last (done.length - 1) c.length inode =
        .ok (some (0, some buf)) ∧
      CString.Holds buf (if t.head? = some slash then bang :: t else done ++ t ++ spread slash after) := by
  have hzero : ∀ cs, (∀ k ∈ cs, k ∈ before ++ c :: after) → 0 ∉ spread slash cs := by
    intro cs hcs hmem
    obtain ⟨k, hk, hmem⟩ := List.mem_flatMap.mp hmem
    exact (List.mem_cons.mp hmem).elim (by decide) (h.clean k (hcs k hk)).2.2
  have hpath : 0 ∉ done ++ spread slash after := by
    rw [hdone]
    simp only [List.mem_append, List.mem_singleton, not_or]
    exact ⟨⟨hzero before (by simp +contextual), by decide⟩, hzero after (by simp +contextual)⟩
  obtain ⟨buf, hbuf, hholds⟩ := h.stores.symlinkTarget_holds h.short (by rw [hdone]; simp) hpath
  refine ⟨buf, ?_, hholds⟩
  have hfollows : (!last : Bool) = true ∨ follow = true := by
    cases last with
    | false => exact Or.inl rfl
    | true => exact Or.inr (hlast rfl)
  rw [arrive, if_neg h.exists_inode, if_pos ⟨h.stores.isSymlink, hfollows⟩, hbuf]
  rfl

/-- The walk stops at the link, with the buffer that holds its text. -/
theorem Meets.walk (h : v.Meets before c after follow inode t) :
    ∃ buf, v.ext2TraversePath (spread slash (before ++ c :: after)) follow = .ok (0, some buf) ∧
      CString.Holds buf (if t.head? = some slash then bang :: t
        else spread slash before ++ slash :: t ++ spread slash after) := by
  have htext : spread slash before ++ slash :: t ++ spread slash after =
      spread slash before ++ [slash] ++ t ++ spread slash after := by simp
  have hpath : spread slash (before ++ c :: after) = spread slash before ++ [slash] ++ c ++ spread slash after := by
    simp
  have hc := h.clean c (by simp)
  obtain ⟨d, htraverse, hwalk⟩ := h.walk_to rfl hpath
  rw [hwalk, htext]
  cases after with
  | nil =>
    rw [traverseAt_last (by simp) hc.2.1 hc.1 (by rw [hpath]; simp), htraverse, Exec.ok_bind]
    obtain ⟨buf, hbuf, hholds⟩ := h.arrive_link rfl true fun _ => h.follows.resolve_left (fun hne => hne rfl)
    rw [hpath, hbuf]
    exact ⟨buf, rfl, hholds⟩
  | cons a after =>
    have ha := h.clean a (by simp)
    have hbehind : a ++ spread slash after ≠ [] := fun heq => ha.1 (List.append_eq_nil_iff.mp heq).1
    rw [traverseAt_middle (by simp) hc.2.1 hbehind (by rw [hpath]; simp), htraverse, Exec.ok_bind]
    obtain ⟨buf, hbuf, hholds⟩ := h.arrive_link rfl false fun heq => Bool.noConfusion heq
    rw [hpath, hbuf]
    exact ⟨buf, rfl, hholds⟩

/-- What the buffer of the link is resolved to. -/
theorem Meets.resolved (h : v.Meets before c after follow inode t) (hfresh : ∀ n, (fresh n).length = n)
    (hmnt : 0 ∉ mnt.mountPrefix) :
    ∃ buf text ret, v.ext2TraversePath (spread slash (before ++ c :: after)) follow = .ok (0, some buf) ∧
      CString.Holds buf text ∧ resolveBuffer mnt fresh buf = .ok (some ret) ∧ CString.Holds ret
        (if t.head? = some slash then t
          else mnt.base ++ (spread slash before ++ slash :: t ++ spread slash after)) := by
  obtain ⟨buf, hwalk, hbuf⟩ := h.walk
  by_cases habsolute : t.head? = some slash
  · rw [if_pos habsolute]
    rw [if_pos habsolute] at hbuf
    obtain ⟨ret, hret, hholds⟩ := resolveBuffer_bang hfresh hbuf
    exact ⟨buf, _, ret, hwalk, hbuf, hret, hholds⟩
  · rw [if_neg habsolute]
    rw [if_neg habsolute] at hbuf
    have hhead : (spread slash before ++ slash :: t ++ spread slash after).head? = some slash := by
      cases before with
      | nil => rfl
      | cons b before => rfl
    obtain ⟨rest, hrest⟩ := List.head?_eq_some_iff.mp hhead
    rw [hrest] at hbuf ⊢
    obtain ⟨ret, hret, hholds⟩ := resolveBuffer_slash hfresh hmnt hbuf
    exact ⟨buf, _, ret, hwalk, hbuf, hret, hholds⟩

/-- A path comes out at most once. -/
theorem Expands.unique {path expected expected' : PathName} (h : v.Expands mnt fresh path follow expected)
    (h' : v.Expands mnt fresh path follow expected') : expected = expected' := by
  obtain ⟨buf, ret, hwalk, hret, hholds⟩ := h
  obtain ⟨buf', ret', hwalk', hret', hholds'⟩ := h'
  rw [hwalk] at hwalk'
  cases hwalk'
  rw [hret] at hret'
  cases hret'
  exact hholds.unique hholds'

/-- The buffer of a link and what it is resolved to stay inside their memory and are terminated.
The path that comes out is the one that the given path stands for exactly where no part of the
path is behind an absolute target. -/
theorem expands_iff (h : v.Meets before c after follow inode t) (hfresh : ∀ n, (fresh n).length = n)
    (hmnt : 0 ∉ mnt.mountPrefix) :
    (∃ buf text ret resolved, v.ext2TraversePath (spread slash (before ++ c :: after)) follow = .ok (0, some buf) ∧
      CString.Holds buf text ∧ resolveBuffer mnt fresh buf = .ok (some ret) ∧ CString.Holds ret resolved) ∧
    (v.Expands mnt fresh (spread slash (before ++ c :: after)) follow (followed mnt before after t) ↔
      (t.head? = some slash → after = [])) := by
  obtain ⟨buf, text, ret, hwalk, hbuf, hret, hholds⟩ := h.resolved hfresh hmnt
  refine ⟨⟨buf, text, ret, _, hwalk, hbuf, hret, hholds⟩, ?_, ?_⟩
  · intro hexpands habsolute
    have heq := hexpands.unique ⟨buf, ret, hwalk, hret, hholds⟩
    rw [followed, if_pos habsolute, if_pos habsolute, List.append_right_eq_self] at heq
    exact spread_eq_nil_iff.mp heq
  · intro hbehind
    have heq : followed mnt before after t =
        if t.head? = some slash then t
          else mnt.base ++ (spread slash before ++ slash :: t ++ spread slash after) := by
      unfold followed
      split_ifs with habsolute
      · rw [hbehind habsolute, spread_nil, List.append_nil]
      · rfl
    rw [heq]
    exact ⟨buf, ret, hwalk, hret, hholds⟩

end Expansion

/-- A root directory with the links `s`, to `/a`, and `t`, to `b`. -/
def sample : LinkStore where
  names :=
    { LinkedVfs.loopLinks.names with
      inodes := fun i => if i = 12 then ⟨0xa1ff, 1, 2⟩ else if i = 13 then ⟨0xa1ff, 1, 1⟩ else ⟨0x41ed, 2, 1024⟩ }
  inodeBlocks i := if i = 12 then [47, 97] ++ List.replicate 58 0 else [98] ++ List.replicate 59 0
  firstBlock _ _ := 0
  length_inodeBlocks i := by
    split_ifs
    · rfl
    · rfl

theorem root_ends : root.getLast? = some slash := rfl

def rootMount : MountPoint := ⟨0, root, root_ends, true, true, true, true, true⟩

def zeroMemory (n : ℕ) : PathName := List.replicate n 0

theorem length_zeroMemory (n : ℕ) : (zeroMemory n).length = n := List.length_replicate

theorem sample_meets_relative : sample.Meets [] [116] [[120]] true 13 [98] where
  clean := by decide
  found := ⟨rootInode, rfl, rfl⟩
  exists_inode := by decide
  stores := ⟨rfl, rfl, by decide, rfl⟩
  short := by decide
  follows := Or.inr rfl

theorem sample_meets_absolute : sample.Meets [] [115] [[120]] true 12 [47, 97] where
  clean := by decide
  found := ⟨rootInode, rfl, rfl⟩
  exists_inode := by decide
  stores := ⟨rfl, rfl, by decide, rfl⟩
  short := by decide
  follows := Or.inr rfl

/-- `/t/x` becomes `/b/x`. -/
theorem expands_sample : sample.Expands rootMount zeroMemory [47, 116, 47, 120] true [47, 98, 47, 120] :=
  (expands_iff sample_meets_relative length_zeroMemory (show 0 ∉ rootMount.mountPrefix by decide)).2.mpr (by decide)

/-- `/s/x` becomes `/a`, without `x`. -/
theorem absolute_target_drops_rest : sample.Expands rootMount zeroMemory [47, 115, 47, 120] true [47, 97] ∧
    ¬sample.Expands rootMount zeroMemory [47, 115, 47, 120] true (followed rootMount [] [[120]] [47, 97]) := by
  obtain ⟨buf, text, ret, hwalk, -, hret, hholds⟩ :=
    sample_meets_absolute.resolved length_zeroMemory (show 0 ∉ rootMount.mountPrefix by decide)
  have hexpands : sample.Expands rootMount zeroMemory [47, 115, 47, 120] true [47, 97] :=
    ⟨buf, ret, hwalk, hret, hholds⟩
  exact ⟨hexpands, fun h => absurd (h.unique hexpands) (by decide)⟩

end LinkStore

end DualFuse.Filesystems.VfsPath
