import DualFuse.Library.CString

/-! The file system on the RAM disk (`filesystems/rd/ramdisk.cpp`): a table of nodes that
name their parent by its index, each with its name and its whole path in buffers of fixed
size. A node's name is cut to its buffer, while a later search compares with the whole
name, and a path is made of the whole name. -/

namespace DualFuse.Filesystems

open Library Library.CString

abbrev RdByte := BitVec 8

/-- A string without its terminator, as the callers pass it. -/
abbrev RdString := { chars : List RdByte // 0 ∉ chars }

structure FileEntry where
  name : List RdByte
  path : List RdByte
  used : Bool
  isDir : Bool
  size : ℕ
  blockIndex : ℕ
  parentIndex : ℤ

structure Ramdisk where
  files : ℕ → FileEntry
  currentDirIndex : ℤ
  ramDisk : ℕ → RdByte

namespace Ramdisk

def blockSize : ℕ := 512

def maxFiles : ℕ := 128

def maxName : ℕ := 32

def maxPath : ℕ := 256

def slash : RdByte := 47

def start : Ramdisk where
  files := fun _ => ⟨List.replicate maxName 0, List.replicate maxPath 0, false, false, 0, 0, 0⟩
  currentDirIndex := -1
  ramDisk := fun _ => 0

def setFile (s : Ramdisk) (i : ℕ) (e : FileEntry) : Ramdisk := { s with files := Function.update s.files i e }

/-- The first slot that a loop over the table stops at. -/
def firstSlot (p : ℕ → Bool) : Option ℕ := (List.range maxFiles).find? p

/-- `block_write`: 512 bytes from the pointer on, of a disk of 1024 blocks. -/
def blockWrite (s : Ramdisk) (block : ℕ) (buffer : ℕ → RdByte) : Exec Ramdisk :=
  if block < 1024 then
    .ok { s with ramDisk := fun a => if block * blockSize ≤ a ∧ a < (block + 1) * blockSize
      then buffer (a - block * blockSize) else s.ramDisk a }
  else .error .fault

def pathOf (s : Ramdisk) (index : ℤ) : Exec (List RdByte) :=
  if 0 ≤ index ∧ index < maxFiles then .ok (s.files index.toNat).path else .error .fault

/-- The parent's path, with a slash at its end. -/
def withSlash (parentPath : List RdByte) : Exec (List RdByte) := do
  let plen ← strlen parentPath
  if plen = 0 then .error .fault
  else if parentPath[plen - 1]? ≠ some slash then do
    let parentPath ← setAt parentPath plen slash
    setAt parentPath (plen + 1) 0
  else .ok parentPath

def buildPath (s : Ramdisk) (parentIndex : ℤ) (name : List RdByte) (out : List RdByte) : Exec (List RdByte) :=
  if parentIndex = -1 then do
    let out ← setAt out 0 slash
    let out ← strncpy out 1 name (maxPath - 2)
    setAt out (maxPath - 1) 0
  else do
    let path ← s.pathOf parentIndex
    let parentPath ← withSlash (padded (content path) maxPath)
    let out ← strncpy out 0 (content parentPath) maxPath
    let l ← strlen out
    strncat out name (maxPath - l - 1)

def findInCurrent (s : Ramdisk) (name : List RdByte) (isDir : Bool) : Option ℕ :=
  firstSlot fun i => (s.files i).used && (s.files i).parentIndex = s.currentDirIndex &&
    (s.files i).isDir = isDir && content (s.files i).name = name

/-- A node of the current directory has this name. -/
def named (s : Ramdisk) (name : List RdByte) (i : ℕ) : Bool :=
  (s.files i).used && (s.files i).parentIndex = s.currentDirIndex && content (s.files i).name = name

def fsCreateEntry (s : Ramdisk) (name : List RdByte) (isDir : Bool) : Exec (Ramdisk × ℤ) :=
  if (firstSlot (s.named name)).isSome then .ok (s, -2)
  else match firstSlot (fun i => !(s.files i).used) with
    | none => .ok (s, -1)
    | some i => do
      let stored ← strncpy (s.files i).name 0 name (maxName - 1)
      let path ← s.buildPath s.currentDirIndex name (s.files i).path
      .ok (s.setFile i ⟨stored, path, true, isDir, 0, i, s.currentDirIndex⟩, 0)

def fsCreate (s : Ramdisk) (name : List RdByte) : Exec (Ramdisk × ℤ) := s.fsCreateEntry name false

def fsMkdir (s : Ramdisk) (name : List RdByte) : Exec (Ramdisk × ℤ) := s.fsCreateEntry name true

/-- The 512 bytes that `fs_write` copies: the string, its terminator and what lies behind it. -/
def dataBytes (data : List RdByte) (beyond : ℕ → RdByte) (i : ℕ) : RdByte :=
  if i < data.length then data.getD i 0 else if i = data.length then 0 else beyond (i - data.length - 1)

/-- `len` is a `uint32_t`. -/
def fsWrite (s : Ramdisk) (name data : List RdByte) (beyond : ℕ → RdByte) : Exec (Ramdisk × ℤ) :=
  match s.findInCurrent name false with
  | none => .ok (s, -1)
  | some i => do
    let length := data.length % 2 ^ 32
    let len := if length > blockSize then blockSize else length
    let s ← (s.setFile i { s.files i with size := len }).blockWrite (s.files i).blockIndex (dataBytes data beyond)
    .ok (s, 0)

def fsDelete (s : Ramdisk) (name : List RdByte) : Exec (Ramdisk × ℤ) :=
  match firstSlot (s.named name) with
  | none => .ok (s, -1)
  | some i =>
    if (s.files i).isDir then
      if (firstSlot fun j => (s.files j).used && (s.files j).parentIndex = i).isSome then .ok (s, -2)
      else .ok (s.setFile i { s.files i with used := false }, 0)
    else do
      let s ← (s.setFile i { s.files i with used := false, size := 0 }).blockWrite (s.files i).blockIndex (fun _ => 0)
      .ok (s, 0)

def dotDot : List RdByte := [46, 46]

def fsCd (s : Ramdisk) (name : List RdByte) : Exec (Ramdisk × ℤ) :=
  if name = dotDot then
    if s.currentDirIndex = -1 then .ok (s, 0)
    else if 0 ≤ s.currentDirIndex ∧ s.currentDirIndex < maxFiles then
      .ok ({ s with currentDirIndex := (s.files s.currentDirIndex.toNat).parentIndex }, 0)
    else .error .fault
  else match s.findInCurrent name true with
    | none => .ok (s, -1)
    | some i => .ok ({ s with currentDirIndex := i }, 0)

end Ramdisk

inductive RamdiskCall where
  | create (name : RdString)
  | mkdir (name : RdString)
  | write (name data : RdString) (beyond : ℕ → RdByte)
  | delete (name : RdString)
  | cd (name : RdString)

namespace Ramdisk

def call (s : Ramdisk) : RamdiskCall → Exec Ramdisk
  | .create name => Prod.fst <$> s.fsCreate name
  | .mkdir name => Prod.fst <$> s.fsMkdir name
  | .write name data beyond => Prod.fst <$> s.fsWrite name data beyond
  | .delete name => Prod.fst <$> s.fsDelete name
  | .cd name => Prod.fst <$> s.fsCd name

/-- `index` is that of a used directory. -/
def UsedDir (s : Ramdisk) (index : ℤ) : Prop :=
  ∃ p : ℕ, index = p ∧ p < maxFiles ∧ (s.files p).used ∧ (s.files p).isDir

/-- Following the parents reaches the root. -/
inductive Rooted (s : Ramdisk) : ℤ → Prop
  | root : Rooted s (-1)
  | node (i : ℕ) (hi : i < maxFiles) (hused : (s.files i).used) (hparent : Rooted s (s.files i).parentIndex) : Rooted s i

/-- The root's path is empty. -/
def dirPath (s : Ramdisk) (index : ℤ) : List RdByte := if index = -1 then [] else content (s.files index.toNat).path

structure TreeSound (s : Ramdisk) : Prop where
  unique : ∀ i < maxFiles, ∀ j < maxFiles, (s.files i).used → (s.files j).used →
    (s.files i).parentIndex = (s.files j).parentIndex → content (s.files i).name = content (s.files j).name → i = j
  parents : ∀ i < maxFiles, (s.files i).used → (s.files i).parentIndex = -1 ∨ s.UsedDir (s.files i).parentIndex
  rooted : ∀ i < maxFiles, (s.files i).used → s.Rooted i
  current : s.currentDirIndex = -1 ∨ s.UsedDir s.currentDirIndex
  paths : ∀ i < maxFiles, (s.files i).used → 0 ∈ (s.files i).path ∧
    content (s.files i).path = s.dirPath (s.files i).parentIndex ++ slash :: content (s.files i).name

/-- The name and the path that it makes fit their buffers, and the current directory's path does
not end in a slash. -/
def NameFits (s : Ramdisk) (name : List RdByte) : Prop :=
  name.length < maxName ∧ (s.dirPath s.currentDirIndex).length + 1 + name.length < maxPath ∧
    (s.dirPath s.currentDirIndex).getLast? ≠ some slash

instance (s : Ramdisk) (name : List RdByte) : Decidable (s.NameFits name) := inferInstanceAs (Decidable (_ ∧ _ ∧ _))

/-- A call that makes a node makes one whose name fits. -/
def EntryFits (s : Ramdisk) (name : List RdByte) : Prop :=
  firstSlot (s.named name) = none → (firstSlot fun i => !(s.files i).used) ≠ none → s.NameFits name

instance (s : Ramdisk) (name : List RdByte) : Decidable (s.EntryFits name) := inferInstanceAs (Decidable (_ → _ → _))

def CallFits (s : Ramdisk) : RamdiskCall → Prop
  | .create name => s.EntryFits name
  | .mkdir name => s.EntryFits name
  | _ => True

instance (s : Ramdisk) : (c : RamdiskCall) → Decidable (s.CallFits c)
  | .create name => inferInstanceAs (Decidable (s.EntryFits name))
  | .mkdir name => inferInstanceAs (Decidable (s.EntryFits name))
  | .write _ _ _ | .delete _ | .cd _ => isTrue trivial

/-- The buffers of a node have their size, the last byte of its name is zero, and its block is on the disk. -/
structure Buffered (e : FileEntry) : Prop where
  nameLength : e.name.length = maxName
  nameEnd : e.name.drop (maxName - 1) = [0]
  pathLength : e.path.length = maxPath
  block : e.blockIndex < 1024

/-- The tree, and the buffers it is kept in. -/
structure Valid (s : Ramdisk) : Prop extends TreeSound s where
  buffers : ∀ i, Buffered (s.files i)

variable {s s' : Ramdisk} {i : ℕ}

theorem firstSlot_some {p : ℕ → Bool} (h : firstSlot p = some i) : i < maxFiles ∧ p i :=
  ⟨List.mem_range.mp (List.mem_of_find?_eq_some h), List.find?_some h⟩

theorem firstSlot_none {p : ℕ → Bool} (h : firstSlot p = none) (hi : i < maxFiles) : ¬ p i :=
  List.find?_eq_none.mp h i (List.mem_range.mpr hi)

theorem named_iff {name : List RdByte} :
    s.named name i ↔ (s.files i).used ∧ (s.files i).parentIndex = s.currentDirIndex ∧ content (s.files i).name = name := by
  simp [named, and_assoc]

theorem findInCurrent_some {name : List RdByte} {isDir : Bool} (h : s.findInCurrent name isDir = some i) :
    i < maxFiles ∧ (s.files i).used ∧ (s.files i).isDir = isDir := by
  obtain ⟨hi, hp⟩ := firstSlot_some h
  simp only [Bool.and_eq_true, decide_eq_true_eq] at hp
  exact ⟨hi, hp.1.1.1, hp.1.2⟩

theorem of_start : Valid start where
  unique := fun i _ j _ h => by cases h
  parents := fun i _ h => by cases h
  rooted := fun i _ h => by cases h
  current := .inl rfl
  paths := fun i _ h => by cases h
  buffers := fun i => ⟨List.length_replicate, List.drop_replicate, List.length_replicate, Nat.succ_pos 1023⟩

/-- A node is as before in all but its size and block. -/
def SameNode (e e' : FileEntry) : Prop :=
  e'.name = e.name ∧ e'.path = e.path ∧ e'.used = e.used ∧ e'.isDir = e.isDir ∧ e'.parentIndex = e.parentIndex

theorem SameNode.refl (e : FileEntry) : SameNode e e := ⟨rfl, rfl, rfl, rfl, rfl⟩

theorem UsedDir.of_same {index : ℤ} (h : s.UsedDir index) (hsame : ∀ i, (s.files i).used → SameNode (s.files i) (s'.files i)) :
    s'.UsedDir index := by
  obtain ⟨p, rfl, hp, hused, hdir⟩ := h
  obtain ⟨-, -, husedEq, hdirEq, -⟩ := hsame p hused
  exact ⟨p, rfl, hp, by rw [husedEq]; exact hused, by rw [hdirEq]; exact hdir⟩

theorem Rooted.of_same {index : ℤ} (h : s.Rooted index)
    (hsame : ∀ i, (s.files i).used → SameNode (s.files i) (s'.files i)) : s'.Rooted index := by
  induction h with
  | root => exact .root
  | node i hi hused _ ih =>
    obtain ⟨-, -, husedEq, -, hparent⟩ := hsame i hused
    refine .node i hi (by rw [husedEq]; exact hused) ?_
    rw [hparent]
    exact ih

/-- No node is its own parent. -/
theorem Rooted.parent_ne {index : ℤ} (h : s.Rooted index) (hindex : index = i) : (s.files i).parentIndex ≠ i := by
  induction h with
  | root => omega
  | node j _ _ _ ih =>
    intro hparent
    obtain rfl : j = i := by omega
    exact ih hparent hparent

theorem dirPath_of_same {index : ℤ} (h : index = -1 ∨ s.UsedDir index)
    (hsame : ∀ i, (s.files i).used → SameNode (s.files i) (s'.files i)) : s'.dirPath index = s.dirPath index := by
  rcases h with rfl | ⟨p, rfl, -, hused, -⟩
  · rfl
  · unfold dirPath
    rw [if_neg (by omega), if_neg (by omega), Int.toNat_natCast, (hsame p hused).2.1]

/-- Sizes, blocks and the disk's bytes do not matter to the tree. -/
theorem Valid.of_same (h : Valid s) (hsame : ∀ i, SameNode (s.files i) (s'.files i))
    (hcurrent : s'.currentDirIndex = s.currentDirIndex) (hbuffers : ∀ i, Buffered (s'.files i)) : Valid s' where
  unique := fun i hi j hj hui huj hparent hname => by
    obtain ⟨hni, -, husedi, -, hpi⟩ := hsame i
    obtain ⟨hnj, -, husedj, -, hpj⟩ := hsame j
    rw [husedi] at hui
    rw [husedj] at huj
    rw [hpi, hpj] at hparent
    rw [hni, hnj] at hname
    exact h.unique i hi j hj hui huj hparent hname
  parents := fun i hi hused => by
    obtain ⟨-, -, husedi, -, hpi⟩ := hsame i
    rw [husedi] at hused
    rw [hpi]
    exact (h.parents i hi hused).imp_right fun hdir => hdir.of_same fun j _ => hsame j
  rooted := fun i hi hused => by
    rw [(hsame i).2.2.1] at hused
    exact (h.rooted i hi hused).of_same fun j _ => hsame j
  current := by
    rw [hcurrent]
    exact h.current.imp_right fun hdir => hdir.of_same fun j _ => hsame j
  paths := fun i hi hused => by
    obtain ⟨hni, hpathi, husedi, -, hpi⟩ := hsame i
    rw [husedi] at hused
    rw [hpathi, hpi, hni, dirPath_of_same (h.parents i hi hused) fun j _ => hsame j]
    exact h.paths i hi hused
  buffers := hbuffers

theorem setFile_self (s : Ramdisk) (i : ℕ) (e : FileEntry) : (s.setFile i e).files i = e := Function.update_self _ _ _

theorem setFile_ne (s : Ramdisk) {i j : ℕ} (h : j ≠ i) (e : FileEntry) : (s.setFile i e).files j = s.files j :=
  Function.update_of_ne h _ _

theorem buffers_setFile (h : ∀ j, Buffered (s.files j)) {e : FileEntry} (he : Buffered e) (j : ℕ) :
    Buffered ((s.setFile i e).files j) := by
  by_cases hji : j = i
  · subst hji
    rw [setFile_self]
    exact he
  · rw [setFile_ne s hji]
    exact h j

/-- A node that no used node has as its parent is taken out. -/
theorem Valid.remove (h : Valid s) {e : FileEntry} (hunused : e.used = false) (he : Buffered e)
    (hcurrent : s.currentDirIndex ≠ i) (hchildless : ∀ j < maxFiles, (s.files j).used → (s.files j).parentIndex ≠ i) :
    Valid (s.setFile i e) := by
  have hne : ∀ j, ((s.setFile i e).files j).used → j ≠ i := by
    rintro j hj rfl
    rw [setFile_self, hunused] at hj
    cases hj
  have husedDir : ∀ index : ℤ, index ≠ i → s.UsedDir index → (s.setFile i e).UsedDir index := by
    rintro index hindex ⟨p, rfl, hp, hup, hdp⟩
    have hpi : p ≠ i := fun heq => hindex (by rw [heq])
    exact ⟨p, rfl, hp, by rw [setFile_ne s hpi]; exact hup, by rw [setFile_ne s hpi]; exact hdp⟩
  have hdirPath : ∀ index : ℤ, index ≠ i → index = -1 ∨ s.UsedDir index →
      (s.setFile i e).dirPath index = s.dirPath index := by
    rintro index hindex (rfl | ⟨p, rfl, -⟩)
    · rfl
    · unfold dirPath
      rw [if_neg (by omega), if_neg (by omega), Int.toNat_natCast, setFile_ne s (fun heq => hindex (by rw [heq]))]
  have hrooted : ∀ index : ℤ, s.Rooted index → index ≠ i → (s.setFile i e).Rooted index := by
    intro index hr
    induction hr with
    | root => exact fun _ => .root
    | node j hj huj _ ih =>
      intro hji
      have hji' : j ≠ i := fun heq => hji (by rw [heq])
      refine .node j hj (by rw [setFile_ne s hji']; exact huj) ?_
      rw [setFile_ne s hji']
      exact ih (hchildless j hj huj)
  constructor
  · constructor
    · intro j hj k hk huj huk hparent hnames
      have hji := hne j huj
      have hki := hne k huk
      rw [setFile_ne s hji, setFile_ne s hki] at hparent hnames
      rw [setFile_ne s hji] at huj
      rw [setFile_ne s hki] at huk
      exact h.unique j hj k hk huj huk hparent hnames
    · intro j hj huj
      have hji := hne j huj
      rw [setFile_ne s hji] at huj ⊢
      exact (h.parents j hj huj).imp_right (husedDir _ (hchildless j hj huj))
    · intro j hj huj
      have hji := hne j huj
      rw [setFile_ne s hji] at huj
      exact hrooted j (h.rooted j hj huj) (by omega)
    · exact h.current.imp_right (husedDir _ hcurrent)
    · intro j hj huj
      have hji := hne j huj
      rw [setFile_ne s hji] at huj ⊢
      rw [hdirPath _ (hchildless j hj huj) (h.parents j hj huj)]
      exact h.paths j hj huj
  · exact buffers_setFile h.buffers he

/-- A node is made in a slot that is not used. -/
theorem Valid.add (h : Valid s) {e : FileEntry} (hi : i < maxFiles) (hfree : (s.files i).used = false)
    (hparent : e.parentIndex = s.currentDirIndex)
    (hnew : ∀ j < maxFiles, (s.files j).used → (s.files j).parentIndex = s.currentDirIndex →
      content (s.files j).name ≠ content e.name)
    (hpath : 0 ∈ e.path ∧ content e.path = s.dirPath s.currentDirIndex ++ slash :: content e.name)
    (he : Buffered e) : Valid (s.setFile i e) := by
  have hold : ∀ j, (s.files j).used → (s.setFile i e).files j = s.files j := by
    intro j hj
    refine setFile_ne s ?_ e
    rintro rfl
    rw [hfree] at hj
    cases hj
  have hsame : ∀ j, (s.files j).used → SameNode (s.files j) ((s.setFile i e).files j) := by
    intro j hj
    rw [hold j hj]
    exact SameNode.refl _
  have hcurrent : s.currentDirIndex = -1 ∨ (s.setFile i e).UsedDir s.currentDirIndex :=
    h.current.imp_right fun hdir => hdir.of_same hsame
  have hrooted : (s.setFile i e).Rooted s.currentDirIndex := by
    rcases h.current with hroot | ⟨p, hp, hlt, hup, -⟩
    · rw [hroot]
      exact .root
    · rw [hp]
      exact (h.rooted p hlt hup).of_same hsame
  constructor
  · constructor
    · intro j hj k hk huj huk hparents hnames
      by_cases hji : j = i <;> by_cases hki : k = i
      · rw [hji, hki]
      · subst hji
        rw [setFile_self] at hparents hnames
        rw [setFile_ne s hki] at hparents hnames huk
        exact absurd hnames.symm (hnew k hk huk (hparents.symm.trans hparent))
      · subst hki
        rw [setFile_self] at hparents hnames
        rw [setFile_ne s hji] at hparents hnames huj
        exact absurd hnames (hnew j hj huj (hparents.trans hparent))
      · rw [setFile_ne s hji] at hparents hnames huj
        rw [setFile_ne s hki] at hparents hnames huk
        exact h.unique j hj k hk huj huk hparents hnames
    · intro j hj huj
      by_cases hji : j = i
      · subst hji
        rw [setFile_self, hparent]
        exact hcurrent
      · rw [setFile_ne s hji] at huj ⊢
        exact (h.parents j hj huj).imp_right fun hdir => hdir.of_same hsame
    · intro j hj huj
      by_cases hji : j = i
      · subst hji
        refine .node j hj huj ?_
        rw [setFile_self, hparent]
        exact hrooted
      · rw [setFile_ne s hji] at huj
        exact (h.rooted j hj huj).of_same hsame
    · exact hcurrent
    · intro j hj huj
      by_cases hji : j = i
      · subst hji
        rw [setFile_self, hparent, dirPath_of_same h.current hsame]
        exact hpath
      · rw [setFile_ne s hji] at huj ⊢
        rw [dirPath_of_same (h.parents j hj huj) hsame]
        exact h.paths j hj huj
  · exact buffers_setFile h.buffers he

theorem slash_ne_zero : slash ≠ 0 := by decide

theorem withSlash_eq {buf str : List RdByte} (h : Holds buf str) (hne : str ≠ []) (hlast : str.getLast? ≠ some slash)
    (hfits : str.length + 1 < buf.length) :
    ∃ buf', withSlash buf = .ok buf' ∧ Holds buf' (str ++ [slash]) ∧ buf'.length = buf.length := by
  have hpos : 0 < str.length := List.length_pos_iff.mpr hne
  have hget : buf[str.length - 1]? = str.getLast? := by
    obtain ⟨-, rest, rfl⟩ := h
    rw [List.getLast?_eq_getElem?, List.getElem?_append_left (by omega)]
  obtain ⟨buf₁, hset, buf₂, hend, hholds, hlen⟩ := h.push slash_ne_zero hfits
  unfold withSlash
  rw [h.strlen_eq, Exec.ok_bind, if_neg (by omega), hget, if_pos hlast, hset, Exec.ok_bind, hend]
  exact ⟨buf₂, rfl, hholds, hlen⟩

theorem buildPath_root (s : Ramdisk) {out name : List RdByte} (hout : out.length = maxPath) (hname : 0 ∉ name)
    (hfits : 1 + name.length < maxPath) :
    ∃ path, s.buildPath (-1) name out = .ok path ∧ Holds path (slash :: name) ∧ path.length = maxPath := by
  unfold maxPath at hout hfits
  cases out with
  | nil => simp at hout
  | cons b rest =>
    rw [List.length_cons] at hout
    obtain ⟨last, hlast⟩ : ∃ last, rest.drop 254 = [last] := List.length_eq_one_iff.mp (by rw [List.length_drop]; omega)
    have hpadded := length_padded name 254
    have hcopied : strncpy (slash :: rest) 1 name (maxPath - 2) = .ok (slash :: (padded name 254 ++ [last])) := by
      rw [strncpy, if_pos (by rw [List.length_cons, maxPath]; omega), ← hlast]
      rfl
    have hended : setAt (slash :: (padded name 254 ++ [last])) (maxPath - 1) 0 = .ok (slash :: (padded name 254 ++ [0])) := by
      rw [setAt, if_pos (by rw [List.length_cons, List.length_append, hpadded]; exact (by decide : 255 < 256))]
      rw [show maxPath - 1 = 254 + 1 from rfl, List.set_cons_succ, List.set_append_right _ _ (by omega), hpadded]
      rfl
    have hholds : Holds (slash :: (padded name 254 ++ [0])) (slash :: name) := by
      refine ⟨fun hmem => (List.mem_cons.mp hmem).elim slash_ne_zero.symm hname, List.replicate (254 - name.length) 0, ?_⟩
      rw [padded_eq (by omega), List.append_assoc, List.cons_append, ← List.replicate_succ, List.replicate_succ']
    unfold buildPath
    rw [if_pos rfl, setAt, if_pos (by simp), Exec.ok_bind, List.set_cons_zero, hcopied, Exec.ok_bind, hended]
    exact ⟨_, rfl, hholds, by rw [List.length_cons, List.length_append, hpadded]; rfl⟩

theorem buildPath_child (s : Ramdisk) {out name path : List RdByte} {p : ℕ} (hp : p < maxFiles)
    (hheld : Holds (s.files p).path path) (hlength : (s.files p).path.length = maxPath) (hout : out.length = maxPath)
    (hne : path ≠ []) (hlast : path.getLast? ≠ some slash) (hname : 0 ∉ name)
    (hfits : path.length + 1 + name.length < maxPath) :
    ∃ path', s.buildPath p name out = .ok path' ∧ Holds path' (path ++ slash :: name) ∧ path'.length = maxPath := by
  have hlt := hheld.length_lt
  rw [hlength] at hlt
  obtain ⟨buf, hslash, hbuf, -⟩ := withSlash_eq (holds_padded hheld.1 hlt) hne hlast (by rw [length_padded]; omega)
  have hout' : Holds (padded (path ++ [slash]) maxPath) (path ++ [slash]) := by
    refine holds_padded hbuf.1 ?_
    rw [List.length_append, List.length_singleton]
    omega
  obtain ⟨path', hcat, hheld', hlen⟩ := hout'.strncat hname (n := maxPath - (path ++ [slash]).length - 1)
    (by rw [List.length_append, List.length_singleton]; omega)
    (by rw [List.length_append, List.length_singleton, length_padded]; omega)
  unfold buildPath pathOf
  rw [if_neg (by omega), if_pos ⟨by omega, by exact_mod_cast hp⟩, Exec.ok_bind, Int.toNat_natCast, hheld.content_eq,
    hslash, Exec.ok_bind, hbuf.content_eq, strncpy_whole out hout, Exec.ok_bind, hout'.strlen_eq, Exec.ok_bind, hcat]
  refine ⟨path', rfl, ?_, hlen.trans (length_padded _ _)⟩
  rwa [List.append_assoc] at hheld'

/-- The stored name has 31 bytes, and the zero behind them stays. -/
theorem strncpy_cut {buf : List RdByte} (hlength : buf.length = maxName) (hend : buf.drop (maxName - 1) = [0])
    (name : List RdByte) : strncpy buf 0 name (maxName - 1) = .ok (padded name (maxName - 1) ++ [0]) := by
  rw [strncpy, if_pos (by rw [hlength]; decide), Nat.zero_add, hend]
  rfl

theorem length_cut (name : List RdByte) : (padded name (maxName - 1) ++ [0]).length = maxName := by
  rw [List.length_append, length_padded]
  rfl

theorem content_cut {name : List RdByte} (hname : 0 ∉ name) (hfits : name.length < maxName) :
    content (padded name (maxName - 1) ++ [0]) = name := by
  have hheld : Holds (padded name (maxName - 1) ++ [0]) name := by
    refine ⟨hname, List.replicate (maxName - 1 - name.length) 0, ?_⟩
    rw [padded_eq (by omega), List.append_assoc, ← List.replicate_succ, List.replicate_succ']
  exact hheld.content_eq

theorem storedName (e : FileEntry) (he : Buffered e) {name : List RdByte} (hname : 0 ∉ name) (hfits : name.length < maxName) :
    ∃ stored, strncpy e.name 0 name (maxName - 1) = .ok stored ∧ content stored = name ∧ stored.length = maxName ∧
      stored.drop (maxName - 1) = [0] :=
  ⟨_, strncpy_cut he.nameLength he.nameEnd name, content_cut hname hfits, length_cut name,
    List.drop_left' (length_padded name _)⟩

/-- The path of a used directory, in its buffer. -/
theorem Valid.dirPath_holds (h : Valid s) {p : ℕ} (hp : p < maxFiles) (hused : (s.files p).used) :
    Holds (s.files p).path (s.dirPath p) ∧ s.dirPath p ≠ [] := by
  obtain ⟨hmem, hpath⟩ := h.paths p hp hused
  have hdir : s.dirPath p = content (s.files p).path := by
    unfold dirPath
    rw [if_neg (by omega), Int.toNat_natCast]
  rw [hdir]
  exact ⟨holds_content hmem, by rw [hpath]; simp⟩

theorem Valid.buildPath (h : Valid s) {out name : List RdByte} (hout : out.length = maxPath) (hname : 0 ∉ name)
    (hfits : s.NameFits name) :
    ∃ path, s.buildPath s.currentDirIndex name out = .ok path ∧
      Holds path (s.dirPath s.currentDirIndex ++ slash :: name) ∧ path.length = maxPath := by
  obtain ⟨-, hlength, hlast⟩ := hfits
  rcases h.current with hroot | ⟨p, hp, hlt, hused, -⟩
  · rw [hroot] at hlength ⊢
    exact s.buildPath_root hout hname (by simpa [dirPath] using hlength)
  · rw [hp] at hlength hlast ⊢
    obtain ⟨hheld, hne⟩ := h.dirPath_holds hlt hused
    exact s.buildPath_child hlt hheld (h.buffers p).pathLength hout hne hlast hname hlength

theorem Valid.create (h : Valid s) {name : List RdByte} (hname : 0 ∉ name) (hfits : s.EntryFits name) (isDir : Bool) :
    ∃ r, s.fsCreateEntry name isDir = .ok r ∧ Valid r.1 := by
  unfold fsCreateEntry
  cases hfound : firstSlot (s.named name) with
  | some i => exact ⟨_, rfl, h⟩
  | none =>
    rw [if_neg (by simp)]
    cases hslot : firstSlot (fun i => !(s.files i).used) with
    | none => exact ⟨_, rfl, h⟩
    | some i =>
      obtain ⟨hi, hfree⟩ := firstSlot_some hslot
      have hfits := hfits hfound (by rw [hslot]; simp)
      obtain ⟨stored, hstored, hcontent, hlength, hend⟩ := storedName (s.files i) (h.buffers i) hname hfits.1
      obtain ⟨path, hpath, hheld, hpathLength⟩ := h.buildPath (h.buffers i).pathLength hname hfits
      dsimp only
      rw [hstored, Exec.ok_bind, hpath, Exec.ok_bind]
      refine ⟨_, rfl, h.add hi (by simpa using hfree) rfl ?_ ?_ ⟨hlength, hend, hpathLength, ?_⟩⟩
      · intro j hj hused hparent hsame
        exact firstSlot_none hfound hj (named_iff.mpr ⟨hused, hparent, hsame.trans hcontent⟩)
      · rw [hcontent]
        exact ⟨hheld.mem, hheld.content_eq⟩
      · exact Nat.lt_of_lt_of_le hi (by decide)

theorem Valid.delete (h : Valid s) (name : List RdByte) : ∃ r, s.fsDelete name = .ok r ∧ Valid r.1 := by
  unfold fsDelete
  cases hfound : firstSlot (s.named name) with
  | none => exact ⟨_, rfl, h⟩
  | some i =>
    obtain ⟨hi, hnamed⟩ := firstSlot_some hfound
    obtain ⟨hused, hparent, -⟩ := named_iff.mp hnamed
    have hb := h.buffers i
    have hcurrent : s.currentDirIndex ≠ i := by
      intro hcur
      exact (h.rooted i hi hused).parent_ne rfl (hparent.trans hcur)
    dsimp only
    by_cases hdir : (s.files i).isDir
    · rw [if_pos hdir]
      by_cases hchild : (firstSlot fun j => (s.files j).used && (s.files j).parentIndex = i).isSome
      · rw [if_pos hchild]
        exact ⟨_, rfl, h⟩
      · rw [if_neg hchild]
        refine ⟨_, rfl, h.remove rfl ⟨hb.nameLength, hb.nameEnd, hb.pathLength, hb.block⟩ hcurrent ?_⟩
        intro j hj huj hpj
        exact firstSlot_none (by simpa using hchild) hj (by simp [huj, hpj])
    · rw [if_neg hdir]
      have hremoved : Valid (s.setFile i { s.files i with used := false, size := 0 }) := by
        refine h.remove rfl ⟨hb.nameLength, hb.nameEnd, hb.pathLength, hb.block⟩ hcurrent ?_
        intro j hj huj hpj
        rcases h.parents j hj huj with hroot | ⟨p, hp, -, -, hpdir⟩
        · omega
        · obtain rfl : p = i := by omega
          exact hdir hpdir
      rw [blockWrite, if_pos hb.block]
      exact ⟨_, rfl, hremoved.of_same (fun _ => SameNode.refl _) rfl hremoved.buffers⟩

theorem Valid.cd (h : Valid s) (name : List RdByte) : ∃ r, s.fsCd name = .ok r ∧ Valid r.1 := by
  have hmove : ∀ index : ℤ, index = -1 ∨ s.UsedDir index → Valid { s with currentDirIndex := index } :=
    fun index hindex => ⟨⟨h.unique, h.parents, fun i hi hu => (h.rooted i hi hu).of_same fun _ _ => SameNode.refl _,
      hindex, h.paths⟩, h.buffers⟩
  unfold fsCd
  by_cases hup : name = dotDot
  · rw [if_pos hup]
    by_cases hroot : s.currentDirIndex = -1
    · rw [if_pos hroot]
      exact ⟨_, rfl, h⟩
    · obtain ⟨p, hp, hlt, hused, -⟩ := h.current.resolve_left hroot
      rw [if_neg hroot, if_pos ⟨by omega, by rw [hp]; exact_mod_cast hlt⟩, hp, Int.toNat_natCast]
      exact ⟨_, rfl, hmove _ (h.parents p hlt hused)⟩
  · rw [if_neg hup]
    cases hfound : s.findInCurrent name true with
    | none => exact ⟨_, rfl, h⟩
    | some i =>
      obtain ⟨hi, hused, hdir⟩ := findInCurrent_some hfound
      exact ⟨_, rfl, hmove i (.inr ⟨i, rfl, hi, hused, hdir⟩)⟩

theorem Valid.write (h : Valid s) (name data : List RdByte) (beyond : ℕ → RdByte) :
    ∃ r, s.fsWrite name data beyond = .ok r ∧ Valid r.1 := by
  unfold fsWrite
  cases hfound : s.findInCurrent name false with
  | none => exact ⟨_, rfl, h⟩
  | some i =>
    have hb := h.buffers i
    dsimp only
    rw [blockWrite, if_pos hb.block, Exec.ok_bind]
    refine ⟨_, rfl, h.of_same (fun j => ?_) rfl (buffers_setFile h.buffers ⟨hb.nameLength, hb.nameEnd, hb.pathLength, hb.block⟩)⟩
    change SameNode (s.files j) ((s.setFile i _).files j)
    by_cases hji : j = i
    · subst hji
      rw [setFile_self]
      exact ⟨rfl, rfl, rfl, rfl, rfl⟩
    · rw [setFile_ne s hji]
      exact SameNode.refl _

theorem Valid.call (h : Valid s) {c : RamdiskCall} (hfits : s.CallFits c) : ∃ s', s.call c = .ok s' ∧ Valid s' := by
  have hdrop : ∀ m : Exec (Ramdisk × ℤ), (∃ r, m = .ok r ∧ Valid r.1) → ∃ s', Prod.fst <$> m = .ok s' ∧ Valid s' := by
    rintro m ⟨r, rfl, hr⟩
    exact ⟨r.1, rfl, hr⟩
  cases c with
  | create name => exact hdrop _ (h.create name.2 hfits false)
  | mkdir name => exact hdrop _ (h.create name.2 hfits true)
  | write name data beyond => exact hdrop _ (h.write name data beyond)
  | delete name => exact hdrop _ (h.delete name)
  | cd name => exact hdrop _ (h.cd name)

/-- A run in which every node that is made has a name that fits comes to its end with the tree sound. -/
theorem tree_sound_of_fits {calls : List RamdiskCall} (hfits : Guarded call CallFits start calls) :
    ∃ s, run call start calls = .ok s ∧ TreeSound s := by
  obtain ⟨s, hs, hvalid⟩ := run_ok_of_guarded (fun _ _ h hc => h.call hc) of_start hfits
  exact ⟨s, hs, hvalid.toTreeSound⟩

/-- A directory is made and entered, a file made, written and deleted in it, and its slot used again. -/
def sampleCalls : List RamdiskCall :=
  [.mkdir ⟨[100], by decide⟩, .cd ⟨[100], by decide⟩, .create ⟨[97, 98], by decide⟩,
    .write ⟨[97, 98], by decide⟩ ⟨[120], by decide⟩ (fun _ => 0), .delete ⟨[97, 98], by decide⟩,
    .mkdir ⟨[99], by decide⟩, .cd ⟨dotDot, by decide⟩, .delete ⟨[100], by decide⟩]

theorem sample_tree_sound : ∃ s, run call start sampleCalls = .ok s ∧ TreeSound s :=
  tree_sound_of_fits (by decide +kernel)

/-- A name of 32 bytes. -/
def longName : RdString := ⟨List.replicate 32 97, by decide⟩

/-- The same long name is made twice: its stored name is cut, so the second call does not find it. -/
theorem long_name_twice :
    ¬ ∃ s, run call start [.create longName, .create longName] = .ok s ∧ TreeSound s := by
  rintro ⟨s, hs, hsound⟩
  have hdup : ∃ s, run call start [.create longName, .create longName] = .ok s ∧ (s.files 0).used ∧ (s.files 1).used ∧
      (s.files 0).parentIndex = (s.files 1).parentIndex ∧ content (s.files 0).name = content (s.files 1).name := by
    decide +kernel
  obtain ⟨s', hs', h0, h1, hparent, hname⟩ := hdup
  rw [hs] at hs'
  cases hs'
  exact absurd (hsound.unique 0 (by decide) 1 (by decide) h0 h1 hparent hname) (by decide)

end Ramdisk

end DualFuse.Filesystems
