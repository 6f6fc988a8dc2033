import DualFuse.Filesystems.Ext2.Namespace

/-! The names of a file system as a tree of links with counts. What the inode allocator,
the additions and the removals of directory entries do to the tree. -/

namespace DualFuse.Filesystems

open Library

section Entries
variable {blockSize type inode : ℕ} {blocks : List Block} {rows : List (List DirEntry)} {filename : Filename}

/-- An addition of a new name adds it to the live entries. -/
theorem ext2DirAllocate_live (h : Tiled blockSize blocks rows)
    (hnodup : ((liveEntries (records blockSize blocks)).map Prod.fst).Nodup) (hsize : BlockSize blockSize)
    (hadd : Addition filename type inode) (habsent : filename ∉ (liveEntries (records blockSize blocks)).map Prod.fst)
    (newBlock : Option Block) :
    Exec.Meets (· = .halt) (fun r => (∃ rows, Tiled blockSize r.1 rows) ∧
      (liveEntries (records blockSize r.1)).Perm ((filename, inode, type) :: liveEntries (records blockSize blocks)))
      (Ext2Directory.ext2DirAllocate blockSize blocks filename type inode newBlock) := by
  rw [h.records_eq] at hnodup habsent ⊢
  obtain ⟨m, hm⟩ := Listing.exists_of_nodup hnodup
  have hnone : m filename = none := hm.eq_none_iff.mpr habsent
  refine (ext2DirAllocate_absent h hm hsize hadd hnone newBlock).mono ?_
  rintro ⟨blocks', ret⟩ ⟨-, rows', htiled, hlist⟩
  have hstart : Listing ([] ++ liveEntries rows.flatten) m := hm
  refine ⟨⟨rows', htiled⟩, ?_⟩
  rw [htiled.records_eq]
  exact hlist.perm (hstart.insert hnone)

/-- A removal takes the entry of the name from the live ones. -/
theorem ext2DirRemove_live (h : Tiled blockSize blocks rows)
    (hnodup : ((liveEntries (records blockSize blocks)).map Prod.fst).Nodup) (hsize : BlockSize blockSize)
    {v : ℕ × ℕ} (hmem : (filename, v) ∈ liveEntries (records blockSize blocks)) :
    ∃ blocks', Ext2Directory.ext2DirRemove blockSize filename blocks = .ok (blocks', true) ∧
      (∃ rows, Tiled blockSize blocks' rows) ∧
      (liveEntries (records blockSize blocks)).Perm ((filename, v) :: liveEntries (records blockSize blocks')) := by
  rw [h.records_eq] at hnodup hmem ⊢
  obtain ⟨m, hm⟩ := Listing.exists_of_nodup hnodup
  have hsome : m filename = some v := (hm.mem_iff _ _).mpr hmem
  obtain ⟨blocks', heq, rows', htiled, hlist⟩ := Represents.remove ⟨rows, h, hm⟩ hsize filename
  rw [hsome] at heq
  refine ⟨blocks', heq, ⟨rows', htiled⟩, ?_⟩
  obtain ⟨l₁, l₂, hsplit⟩ := List.append_of_mem hmem
  rw [hsplit] at hm ⊢
  rw [htiled.records_eq]
  exact List.perm_middle.trans ((hm.erase.perm hlist).cons _)

/-- A search returns the inode of the live entry with the name, or zero. -/
theorem ext2Traverse_live (h : Tiled blockSize blocks rows)
    (hnodup : ((liveEntries (records blockSize blocks)).map Prod.fst).Nodup) :
    (filename ∉ (liveEntries (records blockSize blocks)).map Prod.fst ∧
      Ext2Directory.ext2Traverse blockSize filename blocks = .ok 0) ∨
    ∃ v, (filename, v) ∈ liveEntries (records blockSize blocks) ∧
      Ext2Directory.ext2Traverse blockSize filename blocks = .ok v.1 := by
  rw [h.records_eq] at hnodup ⊢
  obtain ⟨m, hm⟩ := Listing.exists_of_nodup hnodup
  have htraverse := Represents.traverse ⟨rows, h, hm⟩ filename
  cases hentry : m filename with
  | none =>
    rw [hentry] at htraverse
    exact Or.inl ⟨hm.eq_none_iff.mp hentry, htraverse⟩
  | some v =>
    rw [hentry] at htraverse
    exact Or.inr ⟨v, (hm.mem_iff _ _).mp hentry, htraverse⟩

theorem inode_ne_zero_of_live {l : List DirEntry} {v : ℕ × ℕ} (h : (filename, v) ∈ liveEntries l) : v.1 ≠ 0 := by
  obtain ⟨e, he, heq⟩ := List.mem_map.mp h
  cases heq
  simpa using (List.mem_filter.mp he).2

end Entries

namespace Ext2Names

/-- The numbers of the inodes go up to this one. -/
def inodeCount (v : Ext2Names) : ℕ := v.blockGroups * v.inodesPerGroup

/-- The inode is marked used. -/
def Used (v : Ext2Names) (n : ℕ) : Prop :=
  (1 ≤ n ∧ n ≤ v.inodeCount) ∧ BitArray.get (v.inodeBitmap (v.inodeGroup n)) (v.inodeIndex n) = true

instance (v : Ext2Names) (n : ℕ) : Decidable (v.Used n) := inferInstanceAs (Decidable (_ ∧ _))

def IsDir (v : Ext2Names) (d : ℕ) : Prop := v.Used d ∧ (v.inodes d).isDirectory = true

instance (v : Ext2Names) (d : ℕ) : Decidable (v.IsDir d) := inferInstanceAs (Decidable (_ ∧ _))

/-- The live entries of a directory. -/
def live (v : Ext2Names) (d : ℕ) : List (Filename × ℕ × ℕ) := liveEntries (records v.blockSize (v.directory d))

def linkOf (d : ℕ) (e : Filename × ℕ × ℕ) : Link ℕ Filename := ⟨d, e.1, e.2.1⟩

def linksOf (v : Ext2Names) (d : ℕ) : Multiset (Link ℕ Filename) :=
  if v.IsDir d then (v.live d).map (linkOf d) else 0

/-- The names of a file system. -/
def tree (v : Ext2Names) : NameTree ℕ Filename where
  used := { n | v.Used n }
  dirs := { d | v.IsDir d }
  hardLinks n := (v.inodes n).hardLinks
  links := ∑ d ∈ Finset.range (v.inodeCount + 1), v.linksOf d

/-- The root and the inodes that are not reserved. -/
def Ordinary (v : Ext2Names) : Set ℕ := { n | n = rootInode ∨ v.firstInode ≤ n }

variable {v w : Ext2Names} {d n p : ℕ} {name : Filename} {l : Link ℕ Filename}

theorem mem_linksOf : l ∈ v.linksOf d ↔ v.IsDir d ∧ l.dir = d ∧ ∃ type, (l.name, l.node, type) ∈ v.live d := by
  rw [linksOf]
  split_ifs with h
  · rw [Multiset.mem_coe, List.mem_map]
    constructor
    · rintro ⟨⟨name, node, type⟩, he, rfl⟩
      exact ⟨h, rfl, type, he⟩
    · rintro ⟨-, rfl, type, he⟩
      exact ⟨_, he, rfl⟩
  · exact iff_of_false (Multiset.notMem_zero l) fun hc => h hc.1

theorem IsDir.mem_range (h : v.IsDir d) : d ∈ Finset.range (v.inodeCount + 1) :=
  Finset.mem_range.mpr (Nat.lt_succ_of_le h.1.1.2)

theorem links_eq : v.tree.links = ∑ d ∈ Finset.range (v.inodeCount + 1), v.linksOf d := rfl

theorem mem_links : l ∈ v.tree.links ↔ v.IsDir l.dir ∧ ∃ type, (l.name, l.node, type) ∈ v.live l.dir := by
  rw [links_eq, Multiset.mem_sum]
  constructor
  · rintro ⟨d, -, hl⟩
    obtain ⟨hd, rfl, hex⟩ := mem_linksOf.mp hl
    exact ⟨hd, hex⟩
  · rintro ⟨hd, hex⟩
    exact ⟨l.dir, hd.mem_range, mem_linksOf.mpr ⟨hd, rfl, hex⟩⟩

/-- What stands in a directory changes, and nothing else. -/
theorem links_change (hcount : w.inodeCount = v.inodeCount) (hd : d ∈ Finset.range (v.inodeCount + 1))
    (hothers : ∀ x ≠ d, w.linksOf x = v.linksOf x) :
    w.tree.links + v.linksOf d = v.tree.links + w.linksOf d := by
  have hv : v.tree.links = v.linksOf d + ∑ x ∈ (Finset.range (v.inodeCount + 1)).erase d, v.linksOf x :=
    (Finset.add_sum_erase _ _ hd).symm
  have hw : w.tree.links = w.linksOf d + ∑ x ∈ (Finset.range (v.inodeCount + 1)).erase d, w.linksOf x := by
    rw [← hcount] at hd ⊢
    exact (Finset.add_sum_erase _ _ hd).symm
  have hsum : ∑ x ∈ (Finset.range (v.inodeCount + 1)).erase d, w.linksOf x =
      ∑ x ∈ (Finset.range (v.inodeCount + 1)).erase d, v.linksOf x :=
    Finset.sum_congr rfl fun x hx => hothers x (Finset.ne_of_mem_erase hx)
  rw [hv, hw, hsum]
  abel

/-- The names of one directory are different. -/
theorem nodup_live (h : (v.tree.links.map fun l => (l.dir, l.name)).Nodup) (hd : v.IsDir d) :
    ((v.live d).map Prod.fst).Nodup := by
  have hle : v.linksOf d ≤ v.tree.links := by
    rw [links_eq, ← Finset.add_sum_erase _ _ hd.mem_range]
    exact Multiset.le_add_right _ _
  have hnodup := Multiset.nodup_of_le (Multiset.map_le_map (f := fun l => (l.dir, l.name)) hle) h
  rw [linksOf, if_pos hd, Multiset.map_coe, List.map_map, Multiset.coe_nodup] at hnodup
  have hsplit : (v.live d).map ((fun l : Link ℕ Filename => (l.dir, l.name)) ∘ linkOf d) =
      ((v.live d).map Prod.fst).map (Prod.mk d) := by
    rw [List.map_map]
    rfl
  rw [hsplit] at hnodup
  exact hnodup.of_map

theorem absent_iff (hd : v.IsDir d) : v.tree.Absent d name ↔ name ∉ (v.live d).map Prod.fst := by
  constructor
  · intro h hmem
    obtain ⟨⟨name, node, type⟩, he, rfl⟩ := List.mem_map.mp hmem
    exact h ⟨d, name, node⟩ (mem_links.mpr ⟨hd, type, he⟩) rfl rfl
  · rintro h l hl rfl rfl
    obtain ⟨-, type, he⟩ := mem_links.mp hl
    exact h (List.mem_map.mpr ⟨_, he, rfl⟩)

/-- A directory as far as its entries go. -/
structure Listed (v : Ext2Names) (d : ℕ) : Prop where
  isDir : v.IsDir d
  tiled : ∃ rows, Tiled v.blockSize (v.directory d) rows
  nodup : ((v.live d).map Prod.fst).Nodup

/-- The file system but for its directories and inodes. -/
structure SameMarks (v w : Ext2Names) : Prop where
  blockSize : w.blockSize = v.blockSize
  inodesPerGroup : w.inodesPerGroup = v.inodesPerGroup
  blockGroups : w.blockGroups = v.blockGroups
  firstInode : w.firstInode = v.firstInode
  inodeBitmap : w.inodeBitmap = v.inodeBitmap

namespace SameMarks

theorem used_iff (h : SameMarks v w) : w.Used n ↔ v.Used n := by
  unfold Used inodeCount inodeGroup inodeIndex
  rw [h.blockGroups, h.inodesPerGroup, h.inodeBitmap]

theorem isDir_iff (h : SameMarks v w) (hperm : (w.inodes d).permission = (v.inodes d).permission) :
    w.IsDir d ↔ v.IsDir d := by
  unfold IsDir Ext2Inode.isDirectory
  rw [h.used_iff, hperm]

theorem inodeCount (h : SameMarks v w) : w.inodeCount = v.inodeCount := by
  unfold Ext2Names.inodeCount
  rw [h.blockGroups, h.inodesPerGroup]

theorem linksOf_eq (h : SameMarks v w) (hperm : (w.inodes d).permission = (v.inodes d).permission)
    (hdir : w.directory d = v.directory d) : w.linksOf d = v.linksOf d := by
  unfold linksOf live
  simp only [h.isDir_iff hperm, h.blockSize, hdir]

end SameMarks

/-- The same inodes, as far as the tree goes. -/
def SameInodes (v w : Ext2Names) : Prop :=
  ∀ n, (w.inodes n).permission = (v.inodes n).permission ∧ (w.inodes n).hardLinks = (v.inodes n).hardLinks

/-- A file system that has one more entry in a directory. -/
theorem tree_of_added (hv : v.Listed d) (hmarks : SameMarks v w) (hinodes : SameInodes v w)
    (hothers : ∀ x ≠ d, w.directory x = v.directory x) {node type : ℕ}
    (hlive : (w.live d).Perm ((name, node, type) :: v.live d)) :
    w.tree = { v.tree with links := ⟨d, name, node⟩ ::ₘ v.tree.links } := by
  have hdir : w.IsDir d := (hmarks.isDir_iff (hinodes d).1).mpr hv.isDir
  have hchange := links_change hmarks.inodeCount hv.isDir.mem_range fun x hx =>
    hmarks.linksOf_eq (hinodes x).1 (hothers x hx)
  have hnew : w.linksOf d = ⟨d, name, node⟩ ::ₘ v.linksOf d := by
    rw [linksOf, linksOf, if_pos hdir, if_pos hv.isDir, Multiset.coe_eq_coe.mpr (hlive.map (linkOf d))]
    rfl
  refine NameTree.ext (Set.ext fun n => hmarks.used_iff) (Set.ext fun n => hmarks.isDir_iff (hinodes n).1)
    (funext fun n => (hinodes n).2) ?_
  rw [hnew, ← Multiset.singleton_add, ← add_assoc, add_right_cancel_iff] at hchange
  change w.tree.links = _ ::ₘ _
  rw [hchange, ← Multiset.singleton_add, add_comm]

/-- A file system that has one entry less in a directory. -/
theorem tree_of_removed (hv : v.Listed d) (hmarks : SameMarks v w) (hinodes : SameInodes v w)
    (hothers : ∀ x ≠ d, w.directory x = v.directory x) {node type : ℕ}
    (hlive : (v.live d).Perm ((name, node, type) :: w.live d)) :
    w.tree = { v.tree with links := v.tree.links.erase ⟨d, name, node⟩ } := by
  have hdir : w.IsDir d := (hmarks.isDir_iff (hinodes d).1).mpr hv.isDir
  have hchange := links_change hmarks.inodeCount hv.isDir.mem_range fun x hx =>
    hmarks.linksOf_eq (hinodes x).1 (hothers x hx)
  have hold : v.linksOf d = ⟨d, name, node⟩ ::ₘ w.linksOf d := by
    rw [linksOf, linksOf, if_pos hdir, if_pos hv.isDir, Multiset.coe_eq_coe.mpr (hlive.map (linkOf d))]
    rfl
  refine NameTree.ext (Set.ext fun n => hmarks.used_iff)
    (Set.ext fun n => hmarks.isDir_iff (hinodes n).1) (funext fun n => (hinodes n).2) ?_
  rw [hold, ← Multiset.singleton_add, ← add_assoc, add_right_cancel_iff] at hchange
  change w.tree.links = v.tree.links.erase _
  rw [← hchange, add_comm, Multiset.singleton_add, Multiset.erase_cons_head]

/-- What an addition of a new name leaves behind. -/
structure Added (v w : Ext2Names) (d : ℕ) (name : Filename) (node : ℕ) : Prop where
  marks : SameMarks v w
  inodes : SameInodes v w
  others : ∀ x ≠ d, w.directory x = v.directory x
  listed : w.Listed d
  tree : w.tree = { v.tree with links := ⟨d, name, node⟩ ::ₘ v.tree.links }

theorem passed_eq (hlen : name.length ≤ 255) : passed name = name := by
  unfold passed
  rw [Nat.mod_eq_of_lt (Nat.lt_succ_of_le hlen), List.take_length]

/-- An addition of a new name to a directory, where the copy of its inode that may be
written back is up to date. -/
theorem ext2DirAllocate_added (h : v.Listed d) (hsize : BlockSize v.blockSize) {type inode : ℕ}
    (hadd : Addition name type inode) (habsent : v.tree.Absent d name) {ino : Ext2Inode}
    (hino : ino.permission = (v.inodes d).permission ∧ ino.hardLinks = (v.inodes d).hardLinks)
    (newBlock : Option Block) :
    Exec.Meets (· = .halt) (fun r => v.Added r.1 d name inode ∧
      r.2.permission = ino.permission ∧ r.2.hardLinks = ino.hardLinks)
      (v.ext2DirAllocate d ino name type inode newBlock) := by
  obtain ⟨rows, htiled⟩ := h.tiled
  have hnotin := (absent_iff h.isDir).mp habsent
  rw [ext2DirAllocate, passed_eq hadd.length]
  refine (ext2DirAllocate_live htiled h.nodup hsize hadd hnotin newBlock).bind ?_
  rintro ⟨blocks, ret⟩ ⟨htiled', hperm⟩
  -- whatever inode is written back, the tree does not see it
  have hfinish : ∀ w : Ext2Names, SameMarks v w → SameInodes v w →
      w.directory = Function.update v.directory d blocks → v.Added w d name inode := by
    intro w hmarks hinodes hdirectory
    have hd : w.directory d = blocks := by rw [hdirectory, Function.update_self]
    have hothers : ∀ x ≠ d, w.directory x = v.directory x := fun x hx => by
      rw [hdirectory, Function.update_of_ne hx]
    have hlive : (w.live d).Perm ((name, inode, type) :: v.live d) := by
      unfold live
      rw [hmarks.blockSize, hd]
      exact hperm
    refine ⟨hmarks, hinodes, hothers, ⟨(hmarks.isDir_iff (hinodes d).1).mpr h.isDir, ?_, ?_⟩,
      tree_of_added h hmarks hinodes hothers hlive⟩
    · rw [hmarks.blockSize, hd]
      exact htiled'
    · rw [(hlive.map Prod.fst).nodup_iff, List.map_cons, List.nodup_cons]
      exact ⟨hnotin, h.nodup⟩
  simp only
  split_ifs
  · refine ⟨hfinish _ ⟨rfl, rfl, rfl, rfl, rfl⟩ (fun n => ?_) rfl, rfl, rfl⟩
    change (Function.update v.inodes d _ n).permission = _ ∧ (Function.update v.inodes d _ n).hardLinks = _
    rcases eq_or_ne n d with rfl | hne
    · rw [Function.update_self]
      exact hino
    · rw [Function.update_of_ne hne]
      exact ⟨rfl, rfl⟩
  · exact ⟨hfinish _ ⟨rfl, rfl, rfl, rfl, rfl⟩ (fun n => ⟨rfl, rfl⟩) rfl, rfl, rfl⟩

/-- What a removal of a name leaves behind. -/
structure Removed (v w : Ext2Names) (d : ℕ) (name : Filename) (node : ℕ) : Prop where
  marks : SameMarks v w
  inodes : w.inodes = v.inodes
  others : ∀ x ≠ d, w.directory x = v.directory x
  tiled : ∃ rows, Tiled w.blockSize (w.directory d) rows
  tree : w.tree = { v.tree with links := v.tree.links.erase ⟨d, name, node⟩ }

theorem ext2DirRemove_removed (h : v.Listed d) (hsize : BlockSize v.blockSize) (hlen : name.length ≤ 255)
    (hmem : ⟨d, name, n⟩ ∈ v.tree.links) : ∃ w, v.ext2DirRemove d name = .ok (w, true) ∧ v.Removed w d name n := by
  obtain ⟨rows, htiled⟩ := h.tiled
  obtain ⟨-, type, hlive⟩ := mem_links.mp hmem
  change (name, n, type) ∈ v.live d at hlive
  obtain ⟨blocks, heq, htiled', hperm⟩ := ext2DirRemove_live htiled h.nodup hsize hlive
  let w : Ext2Names := { v with directory := Function.update v.directory d blocks }
  have hd : w.directory d = blocks := Function.update_self ..
  have hothers : ∀ x ≠ d, w.directory x = v.directory x := fun x hx => Function.update_of_ne hx ..
  have hmarks : SameMarks v w := ⟨rfl, rfl, rfl, rfl, rfl⟩
  have hinodes : SameInodes v w := fun n => ⟨rfl, rfl⟩
  have hlive' : (v.live d).Perm ((name, n, type) :: w.live d) := by
    unfold live
    rw [hd]
    exact hperm
  refine ⟨w, ?_, hmarks, rfl, hothers, ?_, tree_of_removed h hmarks hinodes hothers hlive'⟩
  · rw [ext2DirRemove, passed_eq hlen, heq]
    rfl
  · rw [hd]
    exact htiled'

/-! ### New inodes -/

/-- The numbers of the inodes, the reserved ones, and the bits that stand for no inode. -/
structure Numbered (v : Ext2Names) : Prop where
  reserved : rootInode < v.firstInode ∧ v.firstInode ≤ v.inodesPerGroup
  addressed : v.inodeCount < 2 ^ 32
  padding : ∀ g < v.blockGroups, ∀ i < 8 * v.blockSize, v.inodesPerGroup ≤ i →
    BitArray.get (v.inodeBitmap g) i = true

/-- `w` has one more inode marked used. -/
structure Marked (v w : Ext2Names) (n : ℕ) : Prop where
  blockSize : w.blockSize = v.blockSize
  inodesPerGroup : w.inodesPerGroup = v.inodesPerGroup
  blockGroups : w.blockGroups = v.blockGroups
  firstInode : w.firstInode = v.firstInode
  inodes : w.inodes = v.inodes
  directory : w.directory = v.directory
  fresh : ¬v.Used n
  ordinary : v.firstInode ≤ n
  used_iff : ∀ m, w.Used m ↔ m = n ∨ v.Used m
  padding : ∀ g < v.blockGroups, ∀ i, BitArray.get (v.inodeBitmap g) i = true → BitArray.get (w.inodeBitmap g) i = true

theorem used_iff_of_numbered (hn : 1 ≤ n) {g i : ℕ} (hi : i < v.inodesPerGroup) :
    v.inodeGroup n = g ∧ v.inodeIndex n = i ↔ n = g * v.inodesPerGroup + i + 1 := by
  unfold inodeGroup inodeIndex
  constructor
  · rintro ⟨rfl, rfl⟩
    have := Nat.div_add_mod' (n - 1) v.inodesPerGroup
    omega
  · rintro rfl
    rw [Nat.add_sub_cancel, Nat.mul_comm]
    exact ⟨by rw [Nat.mul_add_div (by omega), Nat.div_eq_of_lt hi, Nat.add_zero],
      by rw [Nat.mul_add_mod, Nat.mod_eq_of_lt hi]⟩

theorem numbered_le {g i : ℕ} (hg : g < v.blockGroups) (hi : i < v.inodesPerGroup) :
    g * v.inodesPerGroup + i + 1 ≤ v.inodeCount := by
  have hle : (g + 1) * v.inodesPerGroup ≤ v.blockGroups * v.inodesPerGroup := Nat.mul_le_mul_right _ hg
  rw [Nat.add_mul, Nat.one_mul] at hle
  unfold inodeCount
  omega

/-- A clear bit is set. -/
theorem marked_of_clear {g i a b : ℕ} (hg : g < v.blockGroups) (hi : i < v.inodesPerGroup)
    (hclear : BitArray.get (v.inodeBitmap g) i = false) (hord : v.firstInode ≤ g * v.inodesPerGroup + i + 1) :
    v.Marked ((v.setInodeBit g i true).setFreeInodes g a b) (g * v.inodesPerGroup + i + 1) := by
  obtain ⟨hgroup, hindex⟩ := (used_iff_of_numbered (v := v) (n := g * v.inodesPerGroup + i + 1) (by omega) hi).mpr rfl
  refine ⟨rfl, rfl, rfl, rfl, rfl, rfl, ?_, hord, fun m => ?_, fun g' _ j hj => ?_⟩
  · rintro ⟨-, hbit⟩
    rw [hgroup, hindex, hclear] at hbit
    cases hbit
  · change (_ ∧ BitArray.get (Function.update v.inodeBitmap g _ (v.inodeGroup m)) (v.inodeIndex m) = true) ↔ _
    by_cases hm : m = g * v.inodesPerGroup + i + 1
    · refine iff_of_true ⟨?_, ?_⟩ (Or.inl hm)
      · rw [hm]
        exact ⟨by omega, numbered_le hg hi⟩
      · rw [hm, hgroup, hindex, Function.update_self, BitArray.get_set, if_pos rfl]
    · rw [or_iff_right hm, Used]
      refine and_congr_right fun hrange => ?_
      rcases eq_or_ne (v.inodeGroup m) g with hsame | hne
      · have hother : v.inodeIndex m ≠ i := fun hc => hm ((used_iff_of_numbered hrange.1 hi).mp ⟨hsame, hc⟩)
        rw [hsame, Function.update_self, BitArray.get_set, if_neg hother]
      · rw [Function.update_of_ne hne]
  · change BitArray.get (Function.update v.inodeBitmap g _ g') j = true
    rcases eq_or_ne g' g with rfl | hne
    · rw [Function.update_self, BitArray.get_set]
      split_ifs
      · rfl
      · exact hj
    · rwa [Function.update_of_ne hne]

theorem ext2InodeFindL_marked (h : v.Numbered) {g : ℕ} (hg : g < v.blockGroups) (hfound : (v.ext2InodeFindL g).2 ≠ 0) :
    v.Marked (v.ext2InodeFindL g).1 (v.ext2InodeFindL g).2 := by
  rw [ext2InodeFindL] at hfound ⊢
  by_cases hfree : v.groupFreeInodes g < 1
  · rw [if_pos hfree] at hfound
    exact absurd rfl hfound
  · rw [if_neg hfree] at hfound ⊢
    cases hscan : FirstRun.scan (fun i => !BitArray.get (v.inodeBitmap g) i) 1 (8 * v.blockSize - v.firstIndex g)
      (v.firstIndex g) (v.firstIndex g) 0 with
    | none =>
      rw [hscan] at hfound
      exact absurd rfl hfound
    | some i =>
      cases i with
      | zero =>
        rw [hscan] at hfound
        exact absurd rfl hfound
      | succ ret =>
        have hrun := FirstRun.scan_isRun (N := v.firstIndex g + (8 * v.blockSize - v.firstIndex g)) rfl rfl (by simp) hscan
        have hfirst := FirstRun.le_of_scan (Nat.add_zero _).symm hscan
        have hclear : BitArray.get (v.inodeBitmap g) (ret + 1) = false := by simpa using hrun.2 0 (by simp)
        have hend := hrun.1
        have hidx : ret + 1 < v.inodesPerGroup := by
          by_contra hge
          rw [h.padding g hg (ret + 1) (by omega) (by omega)] at hclear
          cases hclear
        have hord : v.firstInode ≤ g * v.inodesPerGroup + (ret + 1) + 1 := by
          rcases Nat.eq_zero_or_pos g with rfl | hpos
          · rw [firstIndex, if_pos rfl] at hfirst
            omega
          · have := Nat.mul_le_mul_right v.inodesPerGroup hpos
            have := h.reserved
            omega
        have hlt := Nat.lt_of_le_of_lt (numbered_le hg hidx) h.addressed
        simp only
        rw [Nat.mod_eq_of_lt hlt]
        exact marked_of_clear hg hidx hclear hord

theorem findInodeInOthers_marked (h : v.Numbered) (suggestion m i : ℕ) (hi : i + m ≤ v.blockGroups) :
    Exec.Meets (· = .halt) (fun r => v.Marked r.1 r.2) (v.findInodeInOthers suggestion m i) := by
  induction m generalizing i with
  | zero => exact rfl
  | succ m ih =>
    rw [findInodeInOthers]
    split_ifs with hsame hfound
    · exact ih (i + 1) (by omega)
    · exact ext2InodeFindL_marked h (by omega) hfound
    · exact ih (i + 1) (by omega)

theorem ext2InodeFind_marked (h : v.Numbered) {g : ℕ} (hg : g < v.blockGroups) :
    Exec.Meets (· = .halt) (fun r => v.Marked r.1 r.2) (v.ext2InodeFind g) := by
  rw [ext2InodeFind]
  split_ifs with hfull hrange hfound
  · exact rfl
  · omega
  · exact ext2InodeFindL_marked h hg hfound
  · exact findInodeInOthers_marked h g _ 0 (by omega)

theorem live_eq_nil (h : v.directory d = []) : v.live d = [] := by
  unfold live
  rw [h]
  rfl

/-- A marked inode that is filled in: the tree has a node without links more. -/
theorem newInode_tree (h : v.Marked w n) (permission hardLinks : ℕ) :
    (w.newInode n permission hardLinks).tree.used = insert n v.tree.used ∧
      (w.newInode n permission hardLinks).tree.dirs =
        { d | d = n ∧ permission % 2 ^ 16 &&& 0x4000 ≠ 0 ∨ d ∈ v.tree.dirs } ∧
      (w.newInode n permission hardLinks).tree.links = v.tree.links := by
  have hused : ∀ m, (w.newInode n permission hardLinks).Used m ↔ m = n ∨ v.Used m := h.used_iff
  have hinode : ∀ m, (w.newInode n permission hardLinks).inodes m =
      if m = n then ⟨permission % 2 ^ 16, hardLinks, 0⟩ else v.inodes m := by
    intro m
    change Function.update w.inodes n _ m = _
    rw [h.inodes, Function.update_apply]
  have hdir : ∀ d, (w.newInode n permission hardLinks).IsDir d ↔
      d = n ∧ permission % 2 ^ 16 &&& 0x4000 ≠ 0 ∨ v.IsDir d := by
    intro d
    rw [IsDir, hused, hinode]
    rcases eq_or_ne d n with rfl | hne
    · have hold : ¬v.IsDir d := fun hc => h.fresh hc.1
      simp [hold, Ext2Inode.isDirectory]
    · simp [hne, IsDir]
  refine ⟨Set.ext hused, Set.ext hdir, ?_⟩
  · have hcount : (w.newInode n permission hardLinks).inodeCount = v.inodeCount := by
      change w.blockGroups * w.inodesPerGroup = _
      rw [h.blockGroups, h.inodesPerGroup]
      rfl
    rw [links_eq, links_eq, hcount]
    refine Finset.sum_congr rfl fun d _ => ?_
    rcases eq_or_ne d n with rfl | hne
    · have hempty : (w.newInode d permission hardLinks).live d = [] := live_eq_nil (Function.update_self ..)
      have hold : ¬v.IsDir d := fun hc => h.fresh hc.1
      rw [linksOf, linksOf, hempty, if_neg hold]
      split_ifs <;> rfl
    · have hdirectory : (w.newInode n permission hardLinks).directory d = v.directory d := by
        change Function.update w.directory n [] d = _
        rw [Function.update_of_ne hne, h.directory]
      have hsize : (w.newInode n permission hardLinks).blockSize = v.blockSize := h.blockSize
      have hiff : (w.newInode n permission hardLinks).IsDir d ↔ v.IsDir d := by
        rw [hdir]
        simp [hne]
      unfold linksOf live
      simp only [hiff, hdirectory, hsize]

/-! ### Removed inodes -/

/-- `w` has one inode less marked used. -/
structure Cleared (v w : Ext2Names) (n : ℕ) : Prop where
  blockSize : w.blockSize = v.blockSize
  inodesPerGroup : w.inodesPerGroup = v.inodesPerGroup
  blockGroups : w.blockGroups = v.blockGroups
  firstInode : w.firstInode = v.firstInode
  inodes : w.inodes = v.inodes
  directory : w.directory = v.directory
  used_iff : ∀ m, w.Used m ↔ m ≠ n ∧ v.Used m
  padding : ∀ g < v.blockGroups, ∀ i, v.inodesPerGroup ≤ i → BitArray.get (v.inodeBitmap g) i = true →
    BitArray.get (w.inodeBitmap g) i = true

theorem ext2InodeDelete_cleared (h : v.Numbered) (hn : v.Used n) :
    ∃ w, v.ext2InodeDelete n = .ok w ∧ v.Cleared w n := by
  refine ⟨(v.setInodeBit (v.inodeGroup n) (v.inodeIndex n) false).setFreeInodes (v.inodeGroup n)
    ((v.groupFreeInodes (v.inodeGroup n) + 1) % 2 ^ 16) ((v.freeInodes + 1) % 2 ^ 32), if_pos hn.2, rfl, rfl, rfl, rfl,
    rfl, rfl, fun m => ?_, fun g _ i hi hbit => ?_⟩
  · change (_ ∧ BitArray.get (Function.update v.inodeBitmap (v.inodeGroup n) _ (v.inodeGroup m)) (v.inodeIndex m) = true) ↔ _
    rcases eq_or_ne m n with rfl | hne
    · refine iff_of_false ?_ fun hc => hc.1 rfl
      rw [Function.update_self, BitArray.get_set, if_pos rfl]
      simp
    · rw [and_iff_right hne, Used]
      refine and_congr_right fun hrange => ?_
      rcases eq_or_ne (v.inodeGroup m) (v.inodeGroup n) with hsame | hgroup
      · have hother : v.inodeIndex m ≠ v.inodeIndex n := by
          intro hc
          have hm := Nat.div_add_mod' (m - 1) v.inodesPerGroup
          have hn' := Nat.div_add_mod' (n - 1) v.inodesPerGroup
          unfold inodeGroup at hsame
          unfold inodeIndex at hc
          rw [hsame, hc, hn'] at hm
          have := hn.1.1
          have := hrange.1
          omega
        rw [hsame, Function.update_self, BitArray.get_set, if_neg hother]
      · rw [Function.update_of_ne hgroup]
  · change BitArray.get (Function.update v.inodeBitmap (v.inodeGroup n) _ g) i = true
    rcases eq_or_ne g (v.inodeGroup n) with rfl | hne
    · have hlt : v.inodeIndex n < v.inodesPerGroup := Nat.mod_lt _ (by have := h.reserved; omega)
      rwa [Function.update_self, BitArray.get_set, if_neg (by omega)]
    · rwa [Function.update_of_ne hne]

/-- Without a directory the links in it are gone. -/
theorem links_of_gone (hcount : w.inodeCount = v.inodeCount) (hd : d ∈ Finset.range (v.inodeCount + 1))
    (hgone : ¬w.IsDir d) (hothers : ∀ x ≠ d, w.linksOf x = v.linksOf x) :
    w.tree.links = v.tree.links.filter fun l => l.dir ≠ d := by
  have hchange := links_change hcount hd hothers
  rw [show w.linksOf d = 0 from if_neg hgone, add_zero] at hchange
  rw [← hchange, Multiset.filter_add, Multiset.filter_eq_self.mpr, Multiset.filter_eq_nil.mpr, add_zero]
  · intro l hl hc
    exact hc (mem_linksOf.mp hl).2.1
  · rintro l hl rfl
    exact hgone (mem_links.mp hl).1

end Ext2Names

end DualFuse.Filesystems
