import DualFuse.Filesystems.Ext2.Namespace
import DualFuse.Filesystems.Mounts
import DualFuse.Library.Follow

/-! Symbolic links (`ext2TraversePath` of `ext2_traverse.c`, the calls of `ext2_controller.c`
and `ext2_create.c` that hand a link back, and the entry points of `vfs_controller.cpp` and
`vfs_stat.cpp` that call themselves on the resolved path). Nothing counts the links that were
followed, so an entry point ends exactly where the links on the disk form no endless chain. -/

namespace DualFuse.Filesystems.VfsPath

open Library PathText Follow

/-- An ext2 file system with the bytes of its links. -/
structure Ext2Links where
  names : Ext2Names
  target : ℕ → PathName

namespace Ext2Links

/-- The path for a link: the target in the place of the link's name, or the target alone,
marked, where it is absolute. It ends at its first zero. -/
def linkPath (v : Ext2Links) (inode : ℕ) (done rest : PathName) : PathName :=
  (if (v.target inode).head? = some slash then bang :: v.target inode else done ++ v.target inode ++ rest).takeWhile
    (· ≠ 0)

/-- The walk of `ext2TraversePath`, with the link that it stops at. `done` is the path up to the
last slash, `component` what stands since. -/
def traverseFrom (v : Ext2Links) (follow : Bool) (done : PathName) (curr : ℕ) (component : PathName) :
    PathName → Exec (ℕ × Option PathName)
  | [] => .ok (0, none)
  | c :: path =>
    if c = slash ∨ path = [] then do
      let curr ← v.names.ext2Traverse curr (if path = [] then component ++ [c] else component)
      match ← v.names.arrive follow path.isEmpty curr with
      | some ret =>
        .ok (ret, if curr ≠ 0 ∧ (v.names.inodes curr).isSymlink ∧ (!path.isEmpty ∨ follow)
          then some (v.linkPath curr done (if path = [] then [] else c :: path)) else none)
      | none => v.traverseFrom follow (done ++ component ++ [c]) curr [] path
    else v.traverseFrom follow done curr (component ++ [c]) path

def ext2TraversePath (v : Ext2Links) (path : PathName) (follow : Bool) : Exec (ℕ × Option PathName) :=
  if path.length = 1 then .ok (rootInode, none) else v.traverseFrom follow (path.take 1) rootInode [] path.tail

/-- The link is something that the walk hands back beside the inode. -/
theorem traverseFrom_fst (v : Ext2Links) (follow : Bool) (done : PathName) (curr : ℕ) (component path : PathName) :
    Prod.fst <$> v.traverseFrom follow done curr component path = v.names.traverseFrom follow curr component path := by
  induction path generalizing done curr component with
  | nil => rfl
  | cons c path ih =>
    have hslash : Filesystems.slash = slash := rfl
    rw [traverseFrom, Ext2Names.traverseFrom, hslash]
    by_cases hc : c = slash ∨ path = []
    · rw [if_pos hc, if_pos hc]
      cases htraverse : v.names.ext2Traverse curr (if path = [] then component ++ [c] else component) with
      | error e => rfl
      | ok found =>
        rw [Exec.ok_bind, Exec.ok_bind]
        cases harrive : v.names.arrive follow path.isEmpty found with
        | error e => rfl
        | ok ret =>
          rw [Exec.ok_bind, Exec.ok_bind]
          cases ret with
          | none => exact ih _ _ _
          | some ret => rfl
    · rw [if_neg hc, if_neg hc]
      exact ih _ _ _

theorem ext2TraversePath_fst (v : Ext2Links) (path : PathName) (follow : Bool) :
    Prod.fst <$> v.ext2TraversePath path follow = v.names.ext2TraversePath path follow := by
  rw [ext2TraversePath, Ext2Names.ext2TraversePath]
  split_ifs
  · rfl
  · exact v.traverseFrom_fst follow _ _ _ _

end Ext2Links

/-- The entry points that follow links, with the arguments that decide whether they do. -/
inductive LinkCall where
  | openGeneric (flags : ℕ)
  | statByFilename
  | readlink (size : ℤ)
  | mkdir
  | unlink
  deriving DecidableEq

def oNofollow : ℕ := 0x20000

/-- The link that the handler of ext2 hands back to be followed. A link with `O_NOFOLLOW` is the
error that the caller does not follow; `mkdir` looks for the parent. -/
def Ext2Links.handler (v : Ext2Links) : LinkCall → PathName → Exec (Option PathName)
  | .openGeneric flags, path => do
    let (_, link) ← v.ext2TraversePath path true
    .ok (if flags &&& oNofollow ≠ 0 then none else link)
  | .statByFilename, path => do
    let (_, link) ← v.ext2TraversePath path true
    .ok link
  | .readlink size, path =>
    if size ≤ 0 then .ok none
    else do
      let (_, link) ← v.ext2TraversePath path false
      .ok link
  | .mkdir, path =>
    if 0 < (lastSlash path).getD 0 then do
      let (_, link) ← v.ext2TraversePath (path.take ((lastSlash path).getD 0)) true
      .ok link
    else .ok none
  | .unlink, path => do
    let (_, link) ← v.ext2TraversePath path false
    .ok link

/-- The mount points, those with an ext2 file system and its links, and what a call returns
that meets no link. Only ext2 hands links back. -/
structure LinkedVfs where
  vfs : Vfs
  ext2 : ℕ → Option Ext2Links
  succeeds : LinkCall → PathName → Bool

namespace LinkedVfs

/-- What the entry point hands on to the file system. -/
def handed (w : LinkedVfs) : LinkCall → PathName → Exec (Option Handed)
  | .openGeneric _, path => w.vfs.fsOpenGeneric path
  | .statByFilename, path => w.vfs.fsStatByFilename path
  | .readlink _, path => w.vfs.fsReadlink path
  | .mkdir, path => w.vfs.fsMkdir path
  | .unlink, path => w.vfs.fsUnlink path

/-- The path that the entry point calls itself on, if the file system hands back a link. A link
that is resolved to the null pointer is followed as one. -/
def next (w : LinkedVfs) (call : LinkCall) (path : PathName) : Exec (Option PathName) := do
  match ← w.handed call path with
  | none => .ok none
  | some h =>
    match w.ext2 h.mount with
    | none => .ok none
    | some v =>
      match ← v.handler call h.path with
      | none => .ok none
      | some link => do
        let mnt ← w.vfs.mount path
        match fsResolveSymlink mnt link with
        | none => .error .fault
        | some resolved => .ok (some resolved)

def step (w : LinkedVfs) (call : LinkCall) (path : PathName) : Exec Bool ⊕ PathName :=
  match w.next call path with
  | .error e => .inl (.error e)
  | .ok none => .inl (.ok (w.succeeds call path))
  | .ok (some resolved) => .inr resolved

/-- The entry point, on at most `n` paths. -/
def call (w : LinkedVfs) (c : LinkCall) (n : ℕ) (path : PathName) : Option (Exec Bool) := follow (w.step c) n path

/-- The links on the disk lead from a path to another one. -/
def Leads (w : LinkedVfs) (c : LinkCall) (path path' : PathName) : Prop := w.next c path = .ok (some path')

/-- The call ends, and with an error where its links form a cycle. -/
def Ends (w : LinkedVfs) (c : LinkCall) (path : PathName) : Prop :=
  (∃ n ret, w.call c n path = some ret) ∧ (Cyclic (w.Leads c) path → ∃ n, w.call c n path = some (.ok false))

theorem leads_iff (w : LinkedVfs) (c : LinkCall) (path path' : PathName) :
    w.Leads c path path' ↔ w.step c path = .inr path' := by
  unfold Leads step
  cases w.next c path with
  | error e => simp
  | ok next =>
    cases next with
    | none => simp
    | some resolved => simp

/-- A path that leads to itself is followed for ever. -/
theorem not_ends_of_self {w : LinkedVfs} {c : LinkCall} {path : PathName} (h : w.next c path = .ok (some path)) :
    ¬w.Ends c path := by
  rintro ⟨⟨n, ret, hcall⟩, -⟩
  have hstep : ∀ a a', w.Leads c a a' → w.step c a = .inr a' := fun a a' => (w.leads_iff c a a').mp
  exact not_endless_of_follow hstep hcall ⟨fun _ => path, rfl, fun _ => h⟩

/-- A root directory with the links `s`, to `s`, and `t`, to `t/a`. -/
def loopLinks : Ext2Links where
  names :=
    { blockSize := 1024, inodesPerGroup := 32, blockGroups := 1, firstInode := 11, freeInodes := 16
      groupFreeInodes := fun _ => 16
      inodeBitmap := fun _ _ => 0
      inodes := fun i => if i = 12 then ⟨0xa1ff, 1, 1⟩ else if i = 13 then ⟨0xa1ff, 1, 3⟩ else ⟨0x41ed, 2, 1024⟩
      directory := fun i => if i = rootInode then
        [Ext2Directory.storeRecord (Ext2Directory.storeRecord (fun _ => 0) 0 12 7 [115] 12) 12 1012 7 [116] 13] else [] }
  target i := if i = 12 then [115] else [116, 47, 97]

/-- The links on the only mount point. -/
def loopVfs : LinkedVfs where
  vfs :=
    { mounts := [⟨0, root, rfl, true, true, true, true, true⟩], cwd := root, socketBound := fun _ => false
      execname := false }
  ext2 _ := some loopLinks
  succeeds _ _ := false

end LinkedVfs

end DualFuse.Filesystems.VfsPath
