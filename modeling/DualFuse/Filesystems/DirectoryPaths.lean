import DualFuse.Filesystems.Mounts
import DualFuse.Library.Follow

/-! Paths relative to an open directory (`syscalls/linux/syscalls_fs.cpp` and `syscalls_env.cpp`,
`task_change_cwd` of `multitasking/task.cpp`, and the entry points of `vfs_controller.cpp` and
`vfs_stat.cpp` with their links). An open directory keeps the path that its file system was
handed, which is without the mount point's prefix. `openat` puts the prefix back; `fchdir` does
not, so it goes to another directory unless the prefix is the root. What a file system finds at
a path is a parameter; it does not change between the calls. -/

namespace DualFuse.Filesystems.VfsPath

open Library PathText Follow

/-- The mount point and the path on it that an entry point works with. -/
def Vfs.place (v : Vfs) (path : PathName) : Option (MountPoint × PathName) :=
  (v.mountOf path).map fun mnt => (mnt, fsStripMountpoint (v.safe path) mnt)

inductive Entry where
  | missing
  | file
  | directory
  deriving DecidableEq, Repr

/-- `dirname` is the null pointer for a file that is no directory. -/
structure OpenFile where
  mountPoint : MountPoint
  dirname : Option PathName
  deriving DecidableEq

inductive PathError where
  | enoent
  | ebadf
  | enotdir
  | erange
  deriving DecidableEq, Repr

/-- A task, and what the file system of a mount point finds at a path, or the link that it meets
on the way there. The descriptors are not negative. -/
structure PathTask where
  vfs : Vfs
  entry : MountPoint → PathName → Entry ⊕ PathName
  node : ℕ → Option OpenFile

namespace PathTask

def fsUserGetNode (t : PathTask) (fd : ℤ) : Option OpenFile := if 0 ≤ fd then t.node fd.toNat else none

def withCwd (t : PathTask) (cwd : PathName) : PathTask := { t with vfs := { t.vfs with cwd := cwd } }

/-- An entry point calls itself on the resolved link. The null pointer is followed as one. -/
def resolve {α : Type} (mnt : MountPoint) (symlink : PathName) : Exec α ⊕ PathName :=
  match fsResolveSymlink mnt symlink with
  | none => .inl (.error .fault)
  | some resolved => .inr resolved

/-- `fsOpenGeneric` up to the next link. -/
def openStep (t : PathTask) (path : PathName) : Exec (Option OpenFile) ⊕ PathName :=
  match t.vfs.place path with
  | none => .inl (.ok none)
  | some (mnt, stripped) =>
    if mnt.openHandler then
      match t.entry mnt stripped with
      | .inl .missing => .inl (.ok none)
      | .inl .file => .inl (.ok (some ⟨mnt, none⟩))
      | .inl .directory => .inl (.ok (some ⟨mnt, some stripped⟩))
      | .inr symlink => resolve mnt symlink
    else .inl (.ok (some ⟨mnt, none⟩))

/-- `fsStatByFilename` up to the next link. Without a mount point its prefix is read behind the
null pointer. -/
def statStep (t : PathTask) (path : PathName) : Exec Entry ⊕ PathName :=
  match t.vfs.place path with
  | none => .inl (.error .fault)
  | some (mnt, stripped) =>
    if mnt.stat then
      match t.entry mnt stripped with
      | .inl found => .inl (.ok found)
      | .inr symlink => resolve mnt symlink
    else .inl (.ok .missing)

/-- `AT_FDCWD`. -/
def atFdcwd : ℤ := -100

def atResolvePathname (t : PathTask) (dirfd : ℤ) (pathname : PathName) : Exec (PathError ⊕ PathName) :=
  if pathname = [] then .error .assertion
  else if pathname.head? = some slash then .ok (.inr pathname)
  else if dirfd = atFdcwd then .ok (.inr pathname)
  else
    match t.fsUserGetNode dirfd with
    | none => .ok (.inl .ebadf)
    | some fd =>
      match fd.dirname with
      | none => .ok (.inl .enotdir)
      | some dirname => .ok (.inr (fd.mountPoint.mountPrefix ++ dirname ++ slash :: pathname))

/-- The call on at most `n` paths. -/
def taskChangeCwd (t : PathTask) (n : ℕ) (newdir : PathName) : Option (Exec (Option PathError × PathTask)) :=
  (follow t.statStep n (t.vfs.safe newdir)).map fun found => do
    match ← found with
    | .missing => .ok (some .enoent, t)
    | .file => .ok (some .enotdir, t)
    | .directory => .ok (none, t.withCwd (t.vfs.safe newdir))

def syscallFchdir (t : PathTask) (n : ℕ) (fd : ℤ) : Option (Exec (Option PathError × PathTask)) :=
  match t.fsUserGetNode fd with
  | none => some (.ok (some .ebadf, t))
  | some file =>
    match file.dirname with
    | none => some (.ok (some .enotdir, t))
    | some dirname => t.taskChangeCwd n dirname

/-- `size` is that of the caller's buffer. -/
def syscallGetcwd (t : PathTask) (size : ℕ) : PathError ⊕ PathName :=
  if size < t.vfs.cwd.length + 1 then .inl .erange else .inr t.vfs.cwd

/-- The call on `asked` ends, behind the links on the way, with the directory at `path`. Where it
meets no link the two are one path. -/
def OpensDirectory (t : PathTask) (asked path : PathName) (file : OpenFile) : Prop :=
  Relation.ReflTransGen (fun a b => t.openStep a = .inr b) asked path ∧ t.openStep path = .inl (.ok (some file)) ∧
    file.dirname.isSome

/-- A name that is not empty and does not begin with a slash. -/
def Relative (name : PathName) : Prop := name ≠ [] ∧ name.head? ≠ some slash

/-- Whatever the working directory is, the path that `openat` opens for a name is sanitised to the
place of the name behind the directory's path. -/
def OpenatRight (t : PathTask) (path : PathName) (fd : ℤ) : Prop :=
  ∀ cwd name, Relative name → ∃ resolved, (t.withCwd cwd).atResolvePathname fd name = .ok (.inr resolved) ∧
    (t.withCwd cwd).vfs.place resolved = (t.withCwd cwd).vfs.place (path ++ slash :: name)

/-- Whatever the working directory was, `fchdir` succeeds, `getcwd` then gives `shown`, and a name
is opened at the place that it has behind the directory's path. -/
def FchdirRight (t : PathTask) (path : PathName) (fd : ℤ) (shown : PathName) : Prop :=
  ∀ cwd, ∃ n t', (t.withCwd cwd).syscallFchdir n fd = some (.ok (none, t')) ∧
    (∀ size, shown.length < size → t'.syscallGetcwd size = .inr shown) ∧
    ∀ name, Relative name → t'.vfs.place name = t'.vfs.place (path ++ slash :: name)

/-- What both owe to the directory at `path` that is open as `fd`. -/
def DirectoryRelative (t : PathTask) (path : PathName) (fd : ℤ) (shown : PathName) : Prop :=
  t.OpenatRight path fd ∧ t.FchdirRight path fd shown

end PathTask

/-! ### Slashes in a path -/

/-- What stands behind a slash is added to what stands before it. -/
theorem lexical_append_slash (x y : PathName) : lexical (x ++ slash :: y) =
    render ((y.splitOn slash).foldl (push dropped dotdot) (normal dropped dotdot (x.splitOn slash))) := by
  rw [lexical, List.splitOn_append_cons_self, normal, List.foldl_append]
  rfl

/-- A second slash changes nothing. -/
theorem lexical_slash_slash (x y : PathName) : lexical (x ++ slash :: slash :: y) = lexical (x ++ slash :: y) := by
  have hempty : (slash :: y).splitOn slash = [] :: y.splitOn slash := List.splitOn_append_cons_self [] y
  rw [lexical_append_slash, lexical_append_slash, hempty]
  rfl

/-- A normalised path is normalised to the same components. -/
theorem normal_splitOn_lexical (path : PathName) :
    normal dropped dotdot ((lexical path).splitOn slash) = normal dropped dotdot (path.splitOn slash) := by
  have hkept := kept_normal path
  rw [lexical]
  cases hnames : normal dropped dotdot (path.splitOn slash) with
  | nil => rfl
  | cons a names =>
    rw [hnames] at hkept
    rw [render, if_neg (List.cons_ne_nil a names), splitOn_spread fun c hc => (hkept c hc).1, normal_nil_cons]
    exact foldl_push_kept fun c hc => (hkept c hc).2

/-- The path before a slash may be normalised first. -/
theorem lexical_lexical_slash (x y : PathName) : lexical (lexical x ++ slash :: y) = lexical (x ++ slash :: y) := by
  rw [lexical_append_slash, lexical_append_slash, normal_splitOn_lexical]

/-- What a mount point leaves of a canonical path is canonical. -/
theorem canonical_strip {mnt : MountPoint} {path : PathName} (hpath : Canonical path) (hcovers : mnt.Covers path) :
    Canonical (fsStripMountpoint path mnt) := by
  obtain ⟨s, rfl, hs⟩ := hcovers
  rw [strip_append]
  split_ifs with hempty
  · exact ⟨rfl, .inl rfl⟩
  · have hhead := hs.resolve_left hempty
    refine ⟨hhead, ?_⟩
    obtain ⟨s, rfl⟩ : ∃ s', s = slash :: s' := ⟨s.tail, (List.cons_head?_tail hhead).symm⟩
    rcases hpath.2 with hroot | hnames
    · -- nothing is before the slash of the root
      have hlength := congrArg List.length hroot
      simp only [root, List.length_append, List.length_cons, List.length_nil] at hlength
      exact .inl (by rw [List.length_eq_zero_iff.mp (show s.length = 0 by omega)]; rfl)
    · rw [List.splitOn_append_cons_self, List.tail_append_of_ne_nil (List.splitOn_ne_nil slash mnt.base)] at hnames
      exact .inr fun c hc => hnames c (List.mem_append_right _ hc)

/-- The prefix, what is left without it, and a slash are the path and a slash. -/
theorem lexical_prefix_strip {mnt : MountPoint} {path : PathName} (hcovers : mnt.Covers path) (name : PathName) :
    lexical (mnt.mountPrefix ++ fsStripMountpoint path mnt ++ slash :: name) = lexical (path ++ slash :: name) := by
  have hends : mnt.mountPrefix = mnt.base ++ [slash] := (List.dropLast_append_getLast? slash mnt.ends).symm
  obtain ⟨s, rfl, hs⟩ := hcovers
  rw [strip_append, hends]
  split_ifs with hempty
  · have htext : mnt.base ++ [slash] ++ root ++ slash :: name = mnt.base ++ slash :: slash :: slash :: name := by
      simp [root]
    rw [htext, lexical_slash_slash, lexical_slash_slash, hempty, List.append_nil]
  · obtain ⟨s, rfl⟩ : ∃ s', s = slash :: s' := ⟨s.tail, (List.cons_head?_tail (hs.resolve_left hempty)).symm⟩
    have htext : mnt.base ++ [slash] ++ slash :: s ++ slash :: name =
        mnt.base ++ slash :: slash :: (s ++ slash :: name) := by simp
    rw [htext, lexical_slash_slash]
    simp

/-- A path behind a covering mount point's prefix begins with a slash. -/
theorem head_mountPrefix {mnt : MountPoint} {path : PathName} (hpath : path.head? = some slash)
    (hcovers : mnt.Covers path) (rest : PathName) : (mnt.mountPrefix ++ rest).head? = some slash := by
  have hends : mnt.mountPrefix = mnt.base ++ [slash] := (List.dropLast_append_getLast? slash mnt.ends).symm
  obtain ⟨s, rfl, -⟩ := hcovers
  rw [hends]
  cases hbase : mnt.base with
  | nil => rfl
  | cons a base =>
    rw [hbase] at hpath
    exact hpath

namespace Vfs

variable {v : Vfs} {path : PathName} {mnt : MountPoint} {stripped : PathName}

theorem place_eq_some_iff : v.place path = some (mnt, stripped) ↔
    v.mountOf path = some mnt ∧ stripped = fsStripMountpoint (v.safe path) mnt := by
  unfold place
  rw [Option.map_eq_some_iff]
  constructor
  · rintro ⟨m, hm, heq⟩
    cases heq
    exact ⟨hm, rfl⟩
  · rintro ⟨hm, rfl⟩
    exact ⟨mnt, hm, rfl⟩

/-- The place is that of the sanitised path. -/
theorem place_congr {v v' : Vfs} {path path' : PathName} (hmounts : v.mounts = v'.mounts)
    (hsafe : v.safe path = v'.safe path') : v.place path = v'.place path' := by
  unfold place mountOf
  rw [hmounts, hsafe]

theorem covers_of_mountOf (h : v.mountOf path = some mnt) : mnt.Covers (v.safe path) :=
  matchesPrefix_iff.mp (matches_of_determine h)

end Vfs

namespace PathTask

variable {t : PathTask} {asked path : PathName} {file : OpenFile} {fd : ℤ}

/-- What is open at an absolute path keeps the mount point that covers it, and what is left of it
there. -/
theorem OpensDirectory.kept (h : t.OpensDirectory asked path file) : t.vfs.mountOf path = some file.mountPoint ∧
    file.dirname = some (fsStripMountpoint (t.vfs.safe path) file.mountPoint) ∧
    t.entry file.mountPoint (fsStripMountpoint (t.vfs.safe path) file.mountPoint) = .inl .directory := by
  obtain ⟨-, hopen, hdirname⟩ := h
  unfold openStep at hopen
  cases hplace : t.vfs.place path with
  | none =>
    rw [hplace] at hopen
    cases hopen
  | some found =>
    obtain ⟨mnt, stripped⟩ := found
    obtain ⟨hm, rfl⟩ := Vfs.place_eq_some_iff.mp hplace
    simp only [hplace] at hopen
    split_ifs at hopen with hhandler
    · cases hentry : t.entry mnt (fsStripMountpoint (t.vfs.safe path) mnt) with
      | inr symlink =>
        rw [hentry] at hopen
        unfold resolve at hopen
        dsimp only at hopen
        cases hresolve : fsResolveSymlink mnt symlink with
        | none => simp [hresolve] at hopen
        | some resolved => simp [hresolve] at hopen
      | inl found =>
        rw [hentry] at hopen
        cases found with
        | missing => simp at hopen
        | file =>
          obtain rfl : (⟨mnt, none⟩ : OpenFile) = file := by simpa using hopen
          cases hdirname
        | directory =>
          obtain rfl : (⟨mnt, _⟩ : OpenFile) = file := by simpa using hopen
          exact ⟨hm, rfl, hentry⟩
    · obtain rfl : (⟨mnt, none⟩ : OpenFile) = file := by simpa using hopen
      cases hdirname

/-- A call that opens a directory, whatever links it meets. -/
theorem exists_opensDirectory {n : ℕ} (h : follow t.openStep n asked = some (.ok (some file)))
    (hdirname : file.dirname.isSome) : ∃ path, t.OpensDirectory asked path file := by
  obtain ⟨path, hleads, hopen⟩ := exists_leads_of_follow h
  exact ⟨path, hleads, hopen, hdirname⟩

/-- A descriptor is not the value that stands for the working directory. -/
theorem ne_atFdcwd (h : t.fsUserGetNode fd = some file) : fd ≠ atFdcwd := by
  rintro rfl
  cases h

theorem safe_absolute (t : PathTask) (hpath : path.head? = some slash) : t.vfs.safe path = lexical path :=
  fsSanitize_absolute hpath t.vfs.cwd

/-- `openat` is right on every mount point. -/
theorem openat_right (h : t.OpensDirectory asked path file) (hpath : path.head? = some slash)
    (hfd : t.fsUserGetNode fd = some file) : t.OpenatRight path fd := by
  intro cwd name hname
  obtain ⟨hm, hdirname, -⟩ := h.kept
  have hsafe := t.safe_absolute hpath
  have hcovers := Vfs.covers_of_mountOf hm
  rw [hsafe] at hdirname hcovers
  have hnode : (t.withCwd cwd).fsUserGetNode fd = some file := hfd
  have hresolve : (t.withCwd cwd).atResolvePathname fd name = .ok (.inr
      (file.mountPoint.mountPrefix ++ fsStripMountpoint (lexical path) file.mountPoint ++ slash :: name)) := by
    rw [atResolvePathname, if_neg hname.1, if_neg hname.2, if_neg (ne_atFdcwd hfd)]
    simp only [hnode, hdirname]
  have hhead : (path ++ slash :: name).head? = some slash := by
    rw [List.head?_append, hpath]
    rfl
  refine ⟨_, hresolve, Vfs.place_congr rfl ?_⟩
  rw [safe_absolute _ hhead, safe_absolute, lexical_prefix_strip hcovers, lexical_lexical_slash]
  rw [List.append_assoc]
  exact head_mountPrefix (canonical_lexical path).1 hcovers _

/-- Where `fchdir` succeeds, the working directory is the path on the mount point. -/
theorem cwd_of_fchdir (h : t.OpensDirectory asked path file) (hpath : path.head? = some slash)
    (hfd : t.fsUserGetNode fd = some file) {cwd : PathName} {n : ℕ} {t' : PathTask}
    (hcall : (t.withCwd cwd).syscallFchdir n fd = some (.ok (none, t'))) :
    t' = t.withCwd (fsStripMountpoint (lexical path) file.mountPoint) ∧
      follow (t.withCwd cwd).statStep n (fsStripMountpoint (lexical path) file.mountPoint) =
        some (.ok .directory) := by
  obtain ⟨hm, hdirname, -⟩ := h.kept
  have hsafe := t.safe_absolute hpath
  have hcovers := Vfs.covers_of_mountOf hm
  rw [hsafe] at hdirname hcovers
  have hstrip := canonical_strip (canonical_lexical path) hcovers
  have hnode : (t.withCwd cwd).fsUserGetNode fd = some file := hfd
  have hnewdir : (t.withCwd cwd).vfs.safe (fsStripMountpoint (lexical path) file.mountPoint) =
      fsStripMountpoint (lexical path) file.mountPoint := by
    rw [safe_absolute _ hstrip.1, lexical_of_canonical hstrip]
  simp only [syscallFchdir, hnode, hdirname] at hcall
  rw [taskChangeCwd, hnewdir, Option.map_eq_some_iff] at hcall
  obtain ⟨found, hfound, hafter⟩ := hcall
  obtain ⟨entry, rfl, hafter⟩ := Exec.bind_ok_iff.mp hafter
  cases entry with
  | missing => cases hafter
  | file => cases hafter
  | directory =>
    cases hafter
    exact ⟨rfl, hfound⟩

theorem syscallGetcwd_eq (t : PathTask) {size : ℕ} (h : t.vfs.cwd.length < size) :
    t.syscallGetcwd size = .inr t.vfs.cwd := if_neg (by omega)

/-- The directory is found again at the path it was opened at. -/
theorem statStep_opened (h : t.OpensDirectory asked path file) (hpath : path.head? = some slash) (cwd : PathName) :
    (t.withCwd cwd).statStep (lexical path) = .inl (.ok (if file.mountPoint.stat then .directory else .missing)) := by
  obtain ⟨hm, -, hentry⟩ := h.kept
  have hlexical := canonical_lexical path
  have hsafe : (t.withCwd cwd).vfs.safe (lexical path) = t.vfs.safe path := by
    rw [safe_absolute _ hlexical.1, t.safe_absolute hpath, lexical_of_canonical hlexical]
  have hsame : (t.withCwd cwd).vfs.place (lexical path) = t.vfs.place path := Vfs.place_congr rfl hsafe
  have hplace := hsame.trans (Vfs.place_eq_some_iff.mpr ⟨hm, rfl⟩)
  have hfound : (t.withCwd cwd).entry file.mountPoint (fsStripMountpoint (t.vfs.safe path) file.mountPoint) =
      .inl .directory := hentry
  unfold statStep
  simp only [hplace, hfound]
  split_ifs <;> rfl

/-- `fchdir` is right where the stripped path is the path. `shown` is the path, or what sanitising
makes of it. -/
theorem fchdir_right_iff (h : t.OpensDirectory asked path file) (hpath : path.head? = some slash)
    (hfd : t.fsUserGetNode fd = some file) {shown : PathName} (hshown : lexical shown = lexical path) :
    t.FchdirRight path fd shown ↔
      shown = lexical path ∧ t.vfs.StripsNothing path file.mountPoint ∧ file.mountPoint.stat := by
  obtain ⟨hm, hdirname, -⟩ := h.kept
  have hsafe := t.safe_absolute hpath
  have hcovers := Vfs.covers_of_mountOf hm
  have hstrips := Vfs.strip_eq_iff hm
  rw [hsafe] at hdirname hcovers hstrips
  have hlexical := canonical_lexical path
  constructor
  · intro hright
    obtain ⟨n, t', hcall, hcwd, -⟩ := hright root
    obtain ⟨rfl, hstat⟩ := cwd_of_fchdir h hpath hfd hcall
    have hstrip : fsStripMountpoint (lexical path) file.mountPoint = shown := by
      have hlarge := hcwd (shown.length + (fsStripMountpoint (lexical path) file.mountPoint).length + 1) (by omega)
      rw [syscallGetcwd_eq] at hlarge
      · exact Sum.inr.inj hlarge
      · simp only [withCwd]
        omega
    have hname : shown = lexical path := by
      rw [← hshown, ← hstrip, lexical_of_canonical (canonical_strip hlexical hcovers)]
    rw [hname] at hstrip
    refine ⟨hname, hstrips.mp hstrip, ?_⟩
    rw [hstrip] at hstat
    cases n with
    | zero => cases hstat
    | succ n =>
      rw [follow_inl (statStep_opened h hpath root)] at hstat
      by_contra hnone
      rw [if_neg hnone] at hstat
      cases hstat
  · rintro ⟨rfl, hnothing, hstat⟩ cwd
    have hstrip := hstrips.mpr hnothing
    rw [hstrip] at hdirname
    have hnode : (t.withCwd cwd).fsUserGetNode fd = some file := hfd
    have hnewdir : (t.withCwd cwd).vfs.safe (lexical path) = lexical path := by
      rw [safe_absolute _ hlexical.1, lexical_of_canonical hlexical]
    have hfollow : follow (t.withCwd cwd).statStep 1 (lexical path) = some (.ok .directory) := by
      rw [follow_inl (statStep_opened h hpath cwd), if_pos hstat]
    refine ⟨1, t.withCwd (lexical path), ?_, fun size hsize => syscallGetcwd_eq _ hsize, fun name hname => ?_⟩
    · simp only [syscallFchdir, hnode, hdirname]
      rw [taskChangeCwd, hnewdir, hfollow]
      rfl
    · have hhead : (path ++ slash :: name).head? = some slash := by
        rw [List.head?_append, hpath]
        rfl
      refine Vfs.place_congr rfl ?_
      rw [safe_absolute _ hhead, ← lexical_lexical_slash]
      refine (fsSanitize_lexical (lexical path) name hlexical).1.trans ?_
      rw [absolutePath, if_neg hname.2]

/-- `openat` and `fchdir` are right exactly where the mount point leaves the path as it is, as the
one with the prefix `/` does, and has a `stat` handler. `getcwd` gives the sanitised path; the path
itself where it is sanitised. -/
theorem directory_paths_right_iff (h : t.OpensDirectory asked path file) (hpath : path.head? = some slash)
    (hfd : t.fsUserGetNode fd = some file) :
    (t.DirectoryRelative path fd (lexical path) ↔
      t.vfs.StripsNothing path file.mountPoint ∧ file.mountPoint.stat) ∧
    (t.DirectoryRelative path fd path ↔
      Canonical path ∧ t.vfs.StripsNothing path file.mountPoint ∧ file.mountPoint.stat) := by
  have hopenat := openat_right h hpath hfd
  have hlexical := canonical_lexical path
  constructor
  · have hright := fchdir_right_iff h hpath hfd (lexical_of_canonical hlexical)
    constructor
    · exact fun hd => (hright.mp hd.2).2
    · exact fun hcond => ⟨hopenat, hright.mpr ⟨rfl, hcond⟩⟩
  · have hright := fchdir_right_iff h hpath hfd (rfl : lexical path = lexical path)
    constructor
    · intro hd
      obtain ⟨hpath', hcond⟩ := hright.mp hd.2
      exact ⟨hpath' ▸ hlexical, hcond⟩
    · rintro ⟨hcanonical, hcond⟩
      exact ⟨hopenat, hright.mpr ⟨(lexical_of_canonical hcanonical).symm, hcond⟩⟩

/-- `/a` is a directory on the root and on `/mnt/`. -/
def twoDirectories (file : OpenFile) : PathTask where
  vfs := Vfs.twoMounts
  entry _ _ := .inl .directory
  node fd := if fd = 3 then some file else none

/-- On the root. -/
theorem root_directory_right :
    (twoDirectories ⟨⟨0, [47], rfl, true, true, true, true, true⟩, some [47, 97]⟩).DirectoryRelative
      [47, 97] 3 [47, 97] := by
  apply (directory_paths_right_iff ⟨.refl, by decide +kernel, rfl⟩ rfl rfl).2.mpr
  exact ⟨⟨rfl, .inr (by decide +kernel)⟩, .inl rfl, rfl⟩

/-- On `/mnt/`: after `fchdir` to `/mnt/a`, the working directory is `/a`. -/
theorem mount_directory_lost :
    let file : OpenFile := ⟨⟨1, [47, 109, 110, 116, 47], rfl, true, true, true, true, true⟩, some [47, 97]⟩
    let t := twoDirectories file
    t.OpensDirectory [47, 109, 110, 116, 47, 97] [47, 109, 110, 116, 47, 97] file ∧ t.fsUserGetNode 3 = some file ∧
      t.syscallFchdir 1 3 = some (.ok (none, t.withCwd [47, 97])) ∧
      ¬t.DirectoryRelative [47, 109, 110, 116, 47, 97] 3 [47, 109, 110, 116, 47, 97] := by
  intro file t
  have hopens : t.OpensDirectory [47, 109, 110, 116, 47, 97] [47, 109, 110, 116, 47, 97] file :=
    ⟨.refl, by decide +kernel, rfl⟩
  have hsafe : t.vfs.safe [47, 97] = [47, 97] := by decide +kernel
  have hstat : t.statStep [47, 97] = .inl (.ok .directory) := by decide +kernel
  refine ⟨hopens, rfl, ?_, fun hright => ?_⟩
  · show t.taskChangeCwd 1 [47, 97] = _
    rw [taskChangeCwd, hsafe, follow_inl hstat]
    rfl
  · obtain ⟨-, hstrips, -⟩ := (fchdir_right_iff hopens rfl (rfl : t.fsUserGetNode 3 = some file) rfl).mp hright.2
    rcases hstrips with hlength | ⟨hroot, -⟩
    · cases hlength
    · exact absurd hroot (by decide +kernel)

end PathTask

end DualFuse.Filesystems.VfsPath
