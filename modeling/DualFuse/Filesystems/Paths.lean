import DualFuse.Library.Execution

/-! Path names in the virtual file system (`filesystems/vfs/vfs_sanitize.cpp`,
`vfs_mnt.cpp`, `vfs_stat.cpp`, `vfs_controller.cpp`): making a name safe, choosing the
mount point, stripping its prefix, and the path that each entry point hands to the file
system it chooses. A string is the list of its bytes. Each entry point is followed up to
the call of the file system; where that answers with a symbolic link, the entry point
calls itself on the resolved name. -/

namespace DualFuse.Filesystems.VfsPath

open Library

abbrev PathName := List (BitVec 8)

def slash : BitVec 8 := 47

def dot : BitVec 8 := 46

def root : PathName := [slash]

/-- The loop of `fsSanitizeCopySafe`. -/
def sanitizeCopy : PathName → PathName
  | [] => []
  | [c] => if c = slash then [] else [c]
  | c :: d :: rest =>
    if c = slash ∧ d = slash then sanitizeCopy (d :: rest)
    else if c = slash ∧ d = dot ∧ (rest.head? = some slash ∨ rest = []) then sanitizeCopy rest
    else c :: sanitizeCopy (d :: rest)

def fsSanitizeCopySafe (filename : PathName) : PathName :=
  if sanitizeCopy filename = [] then root else sanitizeCopy filename

/-- `/..` stands at the place and ends there or before a slash. -/
def isDotDot (s : PathName) (i : ℕ) : Prop :=
  s[i]? = some slash ∧ s[i + 1]? = some dot ∧ s[i + 2]? = some dot ∧ (s[i + 3]? = some slash ∨ s[i + 3]? = none)

instance (s : PathName) (i : ℕ) : Decidable (isDotDot s i) := inferInstanceAs (Decidable (_ ∧ _ ∧ _ ∧ _))

/-- The last slash before `i`, or the start of the string. -/
def indexToCopyInto (s : PathName) : ℕ → ℕ
  | 0 => 0
  | i + 1 => if s[i]? = some slash then i else indexToCopyInto s i

/-- The loop that takes out `/..` with the component before it. Each round brings the end
nearer, so the length of the string is enough rounds. -/
def removeDotDot : ℕ → PathName → ℕ → PathName
  | 0, s, _ => s
  | n + 1, s, i =>
    if i < s.length then
      if isDotDot s i then
        removeDotDot n (s.take (indexToCopyInto s i) ++ s.drop (i + 3)) (indexToCopyInto s i)
      else removeDotDot n s (i + 1)
    else s

/-- The name before `..` is removed. -/
def joined (cwd filename : PathName) : PathName :=
  if filename.head? = some slash then fsSanitizeCopySafe filename
  else
    let offset := if cwd.head? = some slash ∧ 1 < cwd.length then 1 else 0
    let total := cwd ++ List.replicate offset slash ++ fsSanitizeCopySafe filename
    (fsSanitizeCopySafe total).take (cwd.length + offset + filename.length)

def fsSanitize (cwd filename : PathName) : PathName :=
  let safe := removeDotDot (joined cwd filename).length (joined cwd filename) 0
  if safe = [] then root else safe

/-- A mount point, with the handlers that its file system has. Its prefix ends with a slash, as
`fsMount` demands. -/
structure MountPoint where
  id : ℕ
  mountPrefix : PathName
  ends : mountPrefix.getLast? = some slash
  openHandler : Bool
  stat : Bool
  readlink : Bool
  mkdir : Bool
  remove : Bool
  deriving DecidableEq

/-- The prefix without its last slash matches the name up to a slash or its end. -/
def matchesPrefix (filename : PathName) (mnt : MountPoint) : Prop :=
  filename.take (mnt.mountPrefix.length - 1) = mnt.mountPrefix.take (mnt.mountPrefix.length - 1) ∧
    mnt.mountPrefix.length - 1 ≤ filename.length ∧
    (filename[mnt.mountPrefix.length - 1]? = some slash ∨ filename[mnt.mountPrefix.length - 1]? = none)

instance (filename : PathName) (mnt : MountPoint) : Decidable (matchesPrefix filename mnt) :=
  inferInstanceAs (Decidable (_ ∧ _ ∧ _))

/-- One mount point of the loop, with the largest found so far and its length. -/
def largerMount (filename : PathName) (largest : Option MountPoint × ℕ) (mnt : MountPoint) : Option MountPoint × ℕ :=
  if mnt.mountPrefix.length - 1 ≥ largest.2 ∧ matchesPrefix filename mnt
  then (some mnt, mnt.mountPrefix.length - 1) else largest

def fsDetermineMountPoint (mounts : List MountPoint) (filename : PathName) : Option MountPoint :=
  (mounts.foldl (largerMount filename) (none, 0)).1

/-- The loop keeps a mount point that matches. -/
theorem matches_of_determine {mounts : List MountPoint} {filename : PathName} {mnt : MountPoint}
    (h : fsDetermineMountPoint mounts filename = some mnt) : matchesPrefix filename mnt := by
  have hfold : ∀ (l : List MountPoint) (largest : Option MountPoint × ℕ),
      (∀ m, largest.1 = some m → matchesPrefix filename m) →
      ∀ m, (l.foldl (largerMount filename) largest).1 = some m → matchesPrefix filename m := by
    intro l
    induction l with
    | nil => exact fun largest hlargest => hlargest
    | cons x l ih =>
      intro largest hlargest
      refine ih _ fun m hm => ?_
      unfold largerMount at hm
      by_cases hx : x.mountPrefix.length - 1 ≥ largest.2 ∧ matchesPrefix filename x
      · rw [if_pos hx] at hm
        cases hm
        exact hx.2
      · rw [if_neg hx] at hm
        exact hlargest m hm
  exact hfold mounts (none, 0) (fun m hm => by cases hm) mnt h

def fsStripMountpoint (filename : PathName) (mnt : MountPoint) : PathName :=
  let out := filename.drop (mnt.mountPrefix.length - 1)
  if out = [] then root else out

/-- What an entry point passes on. -/
structure Handed where
  mount : ℕ
  path : PathName
  deriving DecidableEq, Repr

/-- What the entry points read: the mount points, the task's working directory, the names that
Unix sockets are bound to, and whether the task has a program's name. -/
structure Vfs where
  mounts : List MountPoint
  cwd : PathName
  socketBound : PathName → Bool
  execname : Bool

namespace Vfs

def safe (v : Vfs) (path : PathName) : PathName := fsSanitize v.cwd path

def mountOf (v : Vfs) (path : PathName) : Option MountPoint := fsDetermineMountPoint v.mounts (v.safe path)

/-- A missing mount point is followed as a null pointer. -/
def mount (v : Vfs) (path : PathName) : Exec MountPoint :=
  match v.mountOf path with
  | none => .error .fault
  | some mnt => .ok mnt

def fsOpenGeneric (v : Vfs) (path : PathName) : Exec (Option Handed) :=
  match v.mountOf path with
  | none => .ok none
  | some mnt => .ok (if mnt.openHandler then some ⟨mnt.id, fsStripMountpoint (v.safe path) mnt⟩ else none)

/-- The path `f` gives is handed on where the mount point has the handler. -/
def handOn (v : Vfs) (path : PathName) (handler : MountPoint → Bool) (f : MountPoint → PathName) :
    Exec (Option Handed) := do
  let mnt ← v.mount path
  .ok (if handler mnt then some ⟨mnt.id, f mnt⟩ else none)

def fsStatByFilename (v : Vfs) (path : PathName) : Exec (Option Handed) :=
  v.handOn path MountPoint.stat (fsStripMountpoint (v.safe path))

/-- `"/proc/self/exe"`. -/
def procSelfExe : PathName := [47, 112, 114, 111, 99, 47, 115, 101, 108, 102, 47, 101, 120, 101]

def fsReadlink (v : Vfs) (path : PathName) : Exec (Option Handed) :=
  if path = procSelfExe ∧ v.execname then .ok none
  else v.handOn path MountPoint.readlink (fsStripMountpoint (v.safe path))

def fsMkdir (v : Vfs) (path : PathName) : Exec (Option Handed) :=
  v.handOn path MountPoint.mkdir (fun _ => v.safe path)

def fsUnlink (v : Vfs) (path : PathName) : Exec (Option Handed) :=
  if v.socketBound (v.safe path) then .ok none
  else v.handOn path MountPoint.remove (fun _ => v.safe path)

/-- The link handler is called where the remove handler is there. -/
def fsLink (v : Vfs) (oldpath newpath : PathName) : Exec (Option (Handed × Handed)) :=
  if v.mountOf newpath ≠ v.mountOf oldpath then .ok none
  else do
    let mnt ← v.mount oldpath
    .ok (if mnt.remove then some (⟨mnt.id, v.safe oldpath⟩, ⟨mnt.id, v.safe newpath⟩) else none)

/-- `h` is handed on by a call that makes, removes or links the path. -/
def Changes (v : Vfs) (path : PathName) (h : Handed) : Prop :=
  v.fsMkdir path = .ok (some h) ∨ v.fsUnlink path = .ok (some h) ∨
    (∃ other h', v.fsLink path other = .ok (some (h, h'))) ∨ ∃ other h', v.fsLink other path = .ok (some (h', h))

/-- `h` is handed on by a call that finds the path. -/
def Finds (v : Vfs) (path : PathName) (h : Handed) : Prop :=
  v.fsOpenGeneric path = .ok (some h) ∨ v.fsStatByFilename path = .ok (some h) ∨ v.fsReadlink path = .ok (some h)

/-- All entry points hand on the same mount point and path. -/
def Agrees (v : Vfs) (path : PathName) : Prop := ∀ h h', v.Changes path h → v.Finds path h' → h = h'

/-- Stripping the prefix leaves the name as it is: the prefix is `/`, or the name is `/` and the
prefix is one byte longer. -/
def StripsNothing (v : Vfs) (path : PathName) (mnt : MountPoint) : Prop :=
  mnt.mountPrefix.length = 1 ∨ (v.safe path = root ∧ mnt.mountPrefix.length = 2)

/-- The mount point has a handler for one of the calls of each kind. -/
def Serves (v : Vfs) (path : PathName) (mnt : MountPoint) : Prop :=
  (mnt.mkdir ∨ mnt.remove) ∧ (mnt.openHandler ∨ mnt.stat ∨ (mnt.readlink ∧ ¬ (path = procSelfExe ∧ v.execname)))

variable {v : Vfs} {path : PathName} {mnt : MountPoint} {h : Handed}

theorem safe_ne_nil (v : Vfs) (path : PathName) : v.safe path ≠ [] := by
  unfold safe fsSanitize
  dsimp only
  split_ifs with hempty
  · exact List.cons_ne_nil _ _
  · exact hempty

theorem prefix_pos (mnt : MountPoint) : 0 < mnt.mountPrefix.length := by
  cases hp : mnt.mountPrefix with
  | nil =>
    have hends := mnt.ends
    rw [hp] at hends
    cases hends
  | cons a l => simp

theorem mount_ok_iff : v.mount path = .ok mnt ↔ v.mountOf path = some mnt := by
  unfold mount
  cases v.mountOf path with
  | none => simp
  | some m => simp

theorem handOn_iff {handler : MountPoint → Bool} {f : MountPoint → PathName} :
    v.handOn path handler f = .ok (some h) ↔
      ∃ mnt, v.mountOf path = some mnt ∧ handler mnt ∧ h = ⟨mnt.id, f mnt⟩ := by
  unfold handOn
  rw [Exec.bind_ok_iff]
  refine exists_congr fun mnt => and_congr mount_ok_iff ?_
  rw [Except.ok.injEq]
  split_ifs with hk
  · simp [hk, eq_comm]
  · simp [hk]

theorem link_iff {oldpath newpath : PathName} {h h' : Handed} : v.fsLink oldpath newpath = .ok (some (h, h')) ↔
    ∃ mnt, v.mountOf oldpath = some mnt ∧ v.mountOf newpath = some mnt ∧ mnt.remove ∧
      h = ⟨mnt.id, v.safe oldpath⟩ ∧ h' = ⟨mnt.id, v.safe newpath⟩ := by
  unfold fsLink
  by_cases hsame : v.mountOf newpath ≠ v.mountOf oldpath
  · rw [if_pos hsame]
    constructor
    · intro hcall
      cases hcall
    · rintro ⟨mnt, hold, hnew, -⟩
      exact absurd (hnew.trans hold.symm) hsame
  · rw [if_neg hsame, Exec.bind_ok_iff]
    have hsame' : v.mountOf newpath = v.mountOf oldpath := by simpa using hsame
    refine exists_congr fun mnt => ?_
    rw [mount_ok_iff, hsame', Except.ok.injEq]
    split_ifs with hr
    · rw [Option.some.injEq, Prod.mk.injEq]
      constructor
      · rintro ⟨hm, heq, heq'⟩
        exact ⟨hm, hm, hr, heq.symm, heq'.symm⟩
      · rintro ⟨hm, -, -, heq, heq'⟩
        exact ⟨hm, heq.symm, heq'.symm⟩
    · constructor
      · rintro ⟨-, hnone⟩
        cases hnone
      · rintro ⟨-, -, hr', -⟩
        exact absurd hr' hr

/-- The path is handed on whole by every call that changes it. -/
theorem changes_iff : v.Changes path h ↔
    ∃ mnt, v.mountOf path = some mnt ∧ (mnt.mkdir ∨ mnt.remove) ∧ h = ⟨mnt.id, v.safe path⟩ := by
  constructor
  · rintro (hcall | hcall | ⟨other, h', hcall⟩ | ⟨other, h', hcall⟩)
    · obtain ⟨mnt, hm, hk, heq⟩ := handOn_iff.mp hcall
      exact ⟨mnt, hm, .inl hk, heq⟩
    · unfold fsUnlink at hcall
      split_ifs at hcall
      · cases hcall
      · obtain ⟨mnt, hm, hr, heq⟩ := handOn_iff.mp hcall
        exact ⟨mnt, hm, .inr hr, heq⟩
    · obtain ⟨mnt, hm, -, hr, heq, -⟩ := link_iff.mp hcall
      exact ⟨mnt, hm, .inr hr, heq⟩
    · obtain ⟨mnt, -, hm, hr, -, heq⟩ := link_iff.mp hcall
      exact ⟨mnt, hm, .inr hr, heq⟩
  · rintro ⟨mnt, hm, hk | hr, rfl⟩
    · exact .inl (handOn_iff.mpr ⟨mnt, hm, hk, rfl⟩)
    · exact .inr (.inr (.inl ⟨path, _, link_iff.mpr ⟨mnt, hm, hm, hr, rfl, rfl⟩⟩))

/-- The path is handed on without the mount point's prefix by every call that finds it. -/
theorem finds_iff : v.Finds path h ↔
    ∃ mnt, v.mountOf path = some mnt ∧
      (mnt.openHandler ∨ mnt.stat ∨ (mnt.readlink ∧ ¬ (path = procSelfExe ∧ v.execname))) ∧
      h = ⟨mnt.id, fsStripMountpoint (v.safe path) mnt⟩ := by
  constructor
  · rintro (hcall | hcall | hcall)
    · unfold fsOpenGeneric at hcall
      cases hm : v.mountOf path with
      | none => simp [hm] at hcall
      | some mnt =>
        simp only [hm, Except.ok.injEq] at hcall
        split_ifs at hcall with ho
        exact ⟨mnt, rfl, .inl ho, (Option.some.inj hcall).symm⟩
    · obtain ⟨mnt, hm, hs, heq⟩ := handOn_iff.mp hcall
      exact ⟨mnt, hm, .inr (.inl hs), heq⟩
    · unfold fsReadlink at hcall
      split_ifs at hcall with hexe
      · cases hcall
      · obtain ⟨mnt, hm, hr, heq⟩ := handOn_iff.mp hcall
        exact ⟨mnt, hm, .inr (.inr ⟨hr, hexe⟩), heq⟩
  · rintro ⟨mnt, hm, ho | hs | ⟨hr, hexe⟩, rfl⟩
    · left
      simp [fsOpenGeneric, hm, ho]
    · exact .inr (.inl (handOn_iff.mpr ⟨mnt, hm, hs, rfl⟩))
    · right; right
      rw [fsReadlink, if_neg hexe]
      exact handOn_iff.mpr ⟨mnt, hm, hr, rfl⟩

theorem strip_eq_iff (hm : v.mountOf path = some mnt) :
    fsStripMountpoint (v.safe path) mnt = v.safe path ↔ v.StripsNothing path mnt := by
  obtain ⟨-, hle, -⟩ := matches_of_determine hm
  have hpos := prefix_pos mnt
  have hne := v.safe_ne_nil path
  unfold fsStripMountpoint StripsNothing
  dsimp only
  by_cases hout : (v.safe path).drop (mnt.mountPrefix.length - 1) = []
  · rw [if_pos hout]
    have hge := List.drop_eq_nil_iff.mp hout
    constructor
    · intro hroot
      rw [← hroot] at hge hle
      right
      exact ⟨hroot.symm, by simp only [root, List.length_singleton] at hge hle; omega⟩
    · rintro (hone | ⟨hroot, -⟩)
      · rw [hone] at hout
        exact absurd hout hne
      · exact hroot.symm
  · rw [if_neg hout]
    constructor
    · intro heq
      have hlen := congrArg List.length heq
      rw [List.length_drop] at hlen
      have := List.length_pos_iff.mpr hne
      left
      omega
    · rintro (hone | ⟨hroot, htwo⟩)
      · rw [hone]
        rfl
      · rw [hroot, htwo] at hout
        exact absurd rfl hout

/-- The entry points agree on a path exactly when the mount point chosen for it strips nothing
from it, or has handlers for calls of one kind only. -/
theorem agrees_iff (v : Vfs) (path : PathName) :
    v.Agrees path ↔ ∀ mnt, v.mountOf path = some mnt → v.Serves path mnt → v.StripsNothing path mnt := by
  constructor
  · rintro hagrees mnt hm ⟨hchange, hfind⟩
    have heq := hagrees _ _ (changes_iff.mpr ⟨mnt, hm, hchange, rfl⟩) (finds_iff.mpr ⟨mnt, hm, hfind, rfl⟩)
    exact (strip_eq_iff hm).mp (Handed.mk.inj heq).2.symm
  · intro hstrips h h' hchange hfind
    obtain ⟨mnt, hm, hchanger, rfl⟩ := changes_iff.mp hchange
    obtain ⟨mnt', hm', hfinder, rfl⟩ := finds_iff.mp hfind
    obtain rfl : mnt = mnt' := Option.some.inj (hm.symm.trans hm')
    rw [(strip_eq_iff hm).mpr (hstrips mnt hm ⟨hchanger, hfinder⟩)]

/-- A file system on `/mnt/`, besides one on `/`. -/
def twoMounts : Vfs where
  mounts := [⟨0, [47], rfl, true, true, true, true, true⟩, ⟨1, [47, 109, 110, 116, 47], rfl, true, true, true, true, true⟩]
  cwd := [47]
  socketBound := fun _ => false
  execname := false

/-- `mkdir` of `/mnt/a` hands on `/mnt/a`, and `stat` hands on `/a`. -/
theorem mkdir_on_mount_differs : ¬ twoMounts.Agrees [47, 109, 110, 116, 47, 97] := by
  intro h
  have heq := h ⟨1, [47, 109, 110, 116, 47, 97]⟩ ⟨1, [47, 97]⟩ (.inl (by decide +kernel)) (.inr (.inl (by decide +kernel)))
  cases heq

end Vfs

end DualFuse.Filesystems.VfsPath
