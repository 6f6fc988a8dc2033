import DualFuse.Filesystems.Ext2.NamespacePaths
import Mathlib.Data.Nat.Bitwise

/-! What `ext2Touch`, `ext2Mkdir` and `ext2Link` do to the tree of names: a new file, a
new directory and a new link, where the link is to a file and under a new name. -/

namespace DualFuse.Filesystems.Ext2Names

open Library

variable {v w : Ext2Names} {d n p : ℕ} {name : Filename}

/-! ### What stays -/

theorem SameMarks.numbered (h : SameMarks v w) (hv : v.Numbered) : w.Numbered where
  reserved := by
    rw [h.firstInode, h.inodesPerGroup]
    exact hv.reserved
  addressed := by
    rw [h.inodeCount]
    exact hv.addressed
  padding g hg i hi := by
    rw [h.blockGroups] at hg
    rw [h.blockSize] at hi
    rw [h.inodesPerGroup, h.inodeBitmap]
    exact hv.padding g hg i hi

theorem Marked.numbered (h : v.Marked w n) (hv : v.Numbered) : w.Numbered where
  reserved := by
    rw [h.firstInode, h.inodesPerGroup]
    exact hv.reserved
  addressed := by
    unfold inodeCount
    rw [h.blockGroups, h.inodesPerGroup]
    exact hv.addressed
  padding g hg i hi := by
    rw [h.blockGroups] at hg
    rw [h.blockSize] at hi
    rw [h.inodesPerGroup]
    exact fun hle => h.padding g hg i (hv.padding g hg i hi hle)

theorem Added.formed (h : v.Added w d name n) (hv : v.Formed) : w.Formed where
  size := h.marks.blockSize ▸ hv.size
  numbered := h.marks.numbered hv.numbered
  tiled x hx := by
    rcases eq_or_ne x d with rfl | hne
    · exact h.listed.tiled
    · rw [h.marks.blockSize, h.others x hne]
      exact hv.tiled x ((h.marks.isDir_iff (h.inodes x).1).mp hx)
  field m := by
    rw [(h.inodes m).2]
    exact hv.field m

theorem Removed.formed (h : v.Removed w d name n) (hv : v.Formed) : w.Formed where
  size := h.marks.blockSize ▸ hv.size
  numbered := h.marks.numbered hv.numbered
  tiled x hx := by
    rcases eq_or_ne x d with rfl | hne
    · exact h.tiled
    · rw [h.marks.blockSize, h.others x hne]
      exact hv.tiled x ((h.marks.isDir_iff (by rw [h.inodes])).mp hx)
  field m := by
    rw [h.inodes]
    exact hv.field m

theorem SameMarks.ordinary (h : SameMarks v w) : w.Ordinary = v.Ordinary := by
  unfold Ordinary
  rw [h.firstInode]

theorem group_lt (h : v.Used n) : v.inodeGroup n < v.blockGroups := by
  have hrange := h.1
  unfold inodeGroup
  unfold inodeCount at hrange
  refine Nat.div_lt_of_lt_mul ?_
  rw [Nat.mul_comm]
  omega

/-! ### A new name and where it goes -/

/-- What the checks let through. -/
def Free (v : Ext2Names) (name : Filename) (r : Except Ext2Result (ℕ × Filename)) : Prop :=
  ∀ p name', r = .ok (p, name') → v.IsDir p ∧ v.tree.Absent p name ∧ name' = name ∧ name ≠ []

theorem Consistent.checkParent_meets (h : v.Consistent) (hp : p ≠ 0 → v.Used p) (noName : Ext2Result) :
    Exec.Meets (· ≠ .fault) (v.Free name) (v.checkParent p name noName) := by
  have herror : ∀ e, v.Free name (.error e) := fun e _ _ hr => by cases hr
  rw [checkParent]
  split_ifs with hp0 hlen hdir
  · exact herror _
  · exact herror _
  · exact herror _
  · have hpdir : v.IsDir p := ⟨hp hp0, by simpa using hdir⟩
    rcases h.traverse hpdir name with ⟨habsent, heq⟩ | ⟨m, -, hm, heq⟩
    · rw [heq, Exec.ok_bind, if_neg (by simp)]
      rintro _ _ ⟨⟩
      exact ⟨hpdir, habsent, rfl, fun hc => hlen (by rw [hc]; rfl)⟩
    · rw [heq, Exec.ok_bind, if_pos hm]
      exact herror _

theorem ne_fault_of_assertion {e : Stop} (h : e = .assertion) : e ≠ .fault := by
  rw [h]
  exact fun hc => by cases hc

theorem ne_fault_of_halt {e : Stop} (h : e = .halt) : e ≠ .fault := by
  rw [h]
  exact fun hc => by cases hc

theorem Consistent.parentFor_meets (h : v.Consistent) (path : SanitizedPath) (noName : Ext2Result) :
    Exec.Meets (· ≠ .fault) (v.Free path.name) (v.parentFor path.bytes noName) := by
  rw [parentFor]
  rcases path.splits with hroot | ⟨pre, hsplit⟩
  · rw [hroot]
    exact fun _ _ hr => by cases hr
  · rw [hsplit.lastSlash_eq, Option.getD_some, hsplit.take_eq, hsplit.drop_eq]
    split_ifs
    · exact ((h.traversePath_meets pre true).weaken fun e => ne_fault_of_assertion).bind fun p hp =>
        h.checkParent_meets (fun hp0 => (hp hp0).1) noName
    · exact h.checkParent_meets (fun _ => h.root.1) noName

/-! ### The calls that create a name -/

/-- `w` has one more inode, with this permission and count and without blocks. -/
structure Created (v w : Ext2Names) (n permission hardLinks : ℕ) : Prop where
  blockSize : w.blockSize = v.blockSize
  ordinary : w.Ordinary = v.Ordinary
  numbered : v.Numbered → w.Numbered
  fresh : ¬v.Used n
  first : v.firstInode ≤ n
  range : 1 ≤ n ∧ n ≤ v.inodeCount
  inodes : w.inodes = Function.update v.inodes n ⟨permission % 2 ^ 16, hardLinks, 0⟩
  directory : w.directory = Function.update v.directory n []
  used : w.tree.used = insert n v.tree.used
  dirs : w.tree.dirs = { d | d = n ∧ permission % 2 ^ 16 &&& 0x4000 ≠ 0 ∨ d ∈ v.tree.dirs }
  links : w.tree.links = v.tree.links

theorem Marked.created (h : v.Marked w n) (permission hardLinks : ℕ) :
    v.Created (w.newInode n permission hardLinks) n permission hardLinks where
  blockSize := h.blockSize
  ordinary := congrArg (fun k => { n | n = rootInode ∨ k ≤ n }) h.firstInode
  numbered hv := by
    have hmarks : SameMarks w (w.newInode n permission hardLinks) := ⟨rfl, rfl, rfl, rfl, rfl⟩
    exact hmarks.numbered (h.numbered hv)
  fresh := h.fresh
  first := h.ordinary
  range := by
    have hrange := ((h.used_iff n).mpr (Or.inl rfl)).1
    unfold inodeCount at hrange ⊢
    rwa [h.blockGroups, h.inodesPerGroup] at hrange
  inodes := by
    rw [← h.inodes]
    rfl
  directory := by
    rw [← h.directory]
    rfl
  used := (newInode_tree h permission hardLinks).1
  dirs := (newInode_tree h permission hardLinks).2.1
  links := (newInode_tree h permission hardLinks).2.2

namespace Created

variable {permission hardLinks : ℕ}

theorem ne (h : v.Created w n permission hardLinks) (hp : v.IsDir p) : p ≠ n := fun hc => h.fresh (hc ▸ hp.1)

theorem inodes_of_ne (h : v.Created w n permission hardLinks) {m : ℕ} (hne : m ≠ n) : w.inodes m = v.inodes m := by
  rw [h.inodes, Function.update_of_ne hne]

theorem directory_of_ne (h : v.Created w n permission hardLinks) {m : ℕ} (hne : m ≠ n) :
    w.directory m = v.directory m := by
  rw [h.directory, Function.update_of_ne hne]

theorem listed (h : v.Created w n permission hardLinks) (hp : v.Listed p) : w.Listed p := by
  have hne := h.ne hp.isDir
  refine ⟨?_, ?_, ?_⟩
  · have hmem : p ∈ w.tree.dirs := by
      rw [h.dirs]
      exact Or.inr hp.isDir
    exact hmem
  · rw [h.blockSize, h.directory_of_ne hne]
    exact hp.tiled
  · unfold live
    rw [h.blockSize, h.directory_of_ne hne]
    exact hp.nodup

theorem formed (h : v.Created w n permission hardLinks) (hv : v.Formed) (hfits : hardLinks < 2 ^ 16) : w.Formed where
  size := h.blockSize ▸ hv.size
  numbered := h.numbered hv.numbered
  tiled d hd := by
    rcases eq_or_ne d n with rfl | hne
    · rw [h.directory, Function.update_self]
      exact ⟨[], .nil⟩
    · have hmem : d ∈ w.tree.dirs := hd
      rw [h.dirs] at hmem
      rw [h.blockSize, h.directory_of_ne hne]
      exact hv.tiled d (hmem.resolve_left fun hc => hne hc.1)
  field m := by
    rcases eq_or_ne m n with rfl | hne
    · rw [h.inodes, Function.update_self]
      exact hfits
    · rw [h.inodes_of_ne hne]
      exact hv.field m

theorem absent (h : v.Created w n permission hardLinks) (habsent : v.tree.Absent p name) : w.tree.Absent p name := by
  unfold NameTree.Absent
  rw [h.links]
  exact habsent

theorem tree_hardLinks (h : v.Created w n permission hardLinks) :
    w.tree.hardLinks = Function.update v.tree.hardLinks n hardLinks := by
  funext m
  change (w.inodes m).hardLinks = _
  rw [h.inodes, Function.update_apply, Function.update_apply]
  split_ifs <;> rfl

end Created

/-- The name of a new inode fits. -/
theorem Created.addition {permission hardLinks : ℕ} (h : v.Created w n permission hardLinks) (hv : v.Numbered)
    {type : ℕ} (htype : type < 256) (hname : name ≠ []) (hlen : name.length ≤ 255) : Addition name type n := by
  have hrange := h.range
  have hcount := hv.addressed
  exact ⟨List.length_pos_iff.mpr hname, hlen, htype, by omega, by omega⟩

theorem isDirectory_mask {mode : ℕ} (hmode : mode < 4096) :
    (0x8000 ||| mode) % 2 ^ 16 &&& 0x4000 = 0 ∧ (0x4000 ||| mode) % 2 ^ 16 &&& 0x4000 ≠ 0 := by
  have hbit : mode.testBit 14 = false := Nat.testBit_lt_two_pow (lt_of_lt_of_le hmode (by norm_num))
  have hmask : ∀ x : ℕ, x &&& 0x4000 = (x.testBit 14).toNat * 2 ^ 14 := fun x => Nat.and_two_pow x 14
  rw [hmask, hmask, Nat.testBit_mod_two_pow, Nat.testBit_mod_two_pow, Nat.testBit_or, Nat.testBit_or, hbit]
  decide

theorem Added.absent (h : v.Added w d name n) {d' : ℕ} {name' : Filename} (hold : v.tree.Absent d' name')
    (hne : d ≠ d' ∨ name ≠ name') : w.tree.Absent d' name' := by
  rw [h.tree]
  intro l hl hdir hname
  rcases Multiset.mem_cons.mp hl with rfl | hl
  · exact hne.elim (fun hc => hc hdir) fun hc => hc hname
  · exact hold l hl hdir hname

/-- An addition to one directory leaves the others alone. -/
theorem Added.listed_of_ne (h : v.Added w d name n) (hp : v.Listed p) (hne : p ≠ d) : w.Listed p := by
  refine ⟨(h.marks.isDir_iff (h.inodes p).1).mpr hp.isDir, ?_, ?_⟩
  · rw [h.marks.blockSize, h.others p hne]
    exact hp.tiled
  · unfold live
    rw [h.marks.blockSize, h.others p hne]
    exact hp.nodup

/-- A new file is a new node with its first name. -/
theorem Consistent.touch_meets (h : v.Consistent) (path : SanitizedPath) {mode : ℕ} (hmode : mode < 4096)
    (hlen : path.name.length ≤ 255) (newBlock : Option Block) :
    Exec.Meets (· ≠ .fault) (fun r => r.1.Consistent) (v.ext2Touch path.bytes mode newBlock) := by
  rw [ext2Touch]
  refine (h.parentFor_meets path .eisdir).bind ?_
  rintro (e | ⟨p, name⟩) hfree
  · exact h
  obtain ⟨hp, habsent, rfl, hname⟩ := hfree p name rfl
  refine ((ext2InodeFind_marked h.numbered (group_lt hp.1)).weaken fun e => ne_fault_of_halt).bind ?_
  rintro ⟨w, n⟩ hmarked
  have hcreated := hmarked.created (0x8000 ||| mode) 1
  simp only at hcreated ⊢
  generalize w.newInode n (0x8000 ||| mode) 1 = u at hcreated ⊢
  have hino := hcreated.inodes_of_ne (hcreated.ne hp)
  refine ((ext2DirAllocate_added (hcreated.listed (h.listed hp)) (hcreated.blockSize ▸ h.size)
    (hcreated.addition h.numbered (by decide) hname hlen) (hcreated.absent habsent) (by rw [hino]; exact ⟨rfl, rfl⟩)
    newBlock).weaken fun e => ne_fault_of_halt).bind ?_
  rintro ⟨x, ino⟩ ⟨hadded, -⟩
  have htree : x.tree = v.tree.addFile n p path.name := by
    rw [hadded.tree]
    refine NameTree.ext hcreated.used ?_ hcreated.tree_hardLinks (congrArg (_ ::ₘ ·) hcreated.links)
    exact hcreated.dirs.trans (Set.ext fun d => or_iff_right fun hc => hc.2 (isDirectory_mask hmode).1)
  refine ⟨hadded.formed (hcreated.formed h.toFormed (by decide)), ?_⟩
  rw [htree, hadded.marks.ordinary, hcreated.ordinary]
  exact h.valid.addFile hcreated.fresh (Or.inr hcreated.first) hp habsent

theorem dot_ne_dotdot : dot ≠ dotdot := by decide

/-- The count of an inode is stored. -/
theorem tree_modify_hardLinks (ino : Ext2Inode) (hperm : ino.permission = (v.inodes n).permission) :
    (v.ext2InodeModifyM n ino).tree =
      { v.tree with hardLinks := Function.update v.tree.hardLinks n ino.hardLinks } := by
  have hmarks : SameMarks v (v.ext2InodeModifyM n ino) := ⟨rfl, rfl, rfl, rfl, rfl⟩
  have hinode : ∀ m, (v.ext2InodeModifyM n ino).inodes m = if m = n then ino else v.inodes m :=
    fun m => Function.update_apply ..
  have hpermission : ∀ m, ((v.ext2InodeModifyM n ino).inodes m).permission = (v.inodes m).permission := by
    intro m
    rw [hinode]
    split_ifs with hm
    · rw [hm, hperm]
    · rfl
  refine NameTree.ext (Set.ext fun m => hmarks.used_iff) (Set.ext fun m => hmarks.isDir_iff (hpermission m))
    (funext fun m => ?_) ?_
  · change ((v.ext2InodeModifyM n ino).inodes m).hardLinks = Function.update v.tree.hardLinks n ino.hardLinks m
    rw [hinode, Function.update_apply]
    split_ifs <;> rfl
  · rw [links_eq, hmarks.inodeCount]
    exact Finset.sum_congr rfl fun d _ => hmarks.linksOf_eq (hpermission d) rfl

theorem Listed.modify_hardLinks (hp : v.Listed p) {ino : Ext2Inode} (hperm : ino.permission = (v.inodes n).permission) :
    (v.ext2InodeModifyM n ino).Listed p := by
  refine ⟨?_, hp.tiled, hp.nodup⟩
  have hmem : p ∈ (v.ext2InodeModifyM n ino).tree.dirs := by
    rw [tree_modify_hardLinks ino hperm]
    exact hp.isDir
  exact hmem

theorem Formed.modify_hardLinks (hv : v.Formed) {ino : Ext2Inode} (hperm : ino.permission = (v.inodes n).permission)
    (hfits : ino.hardLinks < 2 ^ 16) : (v.ext2InodeModifyM n ino).Formed where
  size := hv.size
  numbered :=
    have hmarks : SameMarks v (v.ext2InodeModifyM n ino) := ⟨rfl, rfl, rfl, rfl, rfl⟩
    hmarks.numbered hv.numbered
  tiled d hd := by
    have hmem : d ∈ (v.ext2InodeModifyM n ino).tree.dirs := hd
    rw [tree_modify_hardLinks ino hperm] at hmem
    exact hv.tiled d hmem
  field m := by
    change (Function.update v.inodes n ino m).hardLinks < 2 ^ 16
    rw [Function.update_apply]
    split_ifs
    · exact hfits
    · exact hv.field m

/-- The parent of a new directory has room in its count. -/
def Extendable (v : Ext2Names) (dirname : SanitizedPath) : Prop :=
  ∀ r, v.parentFor dirname.bytes .eexist = .ok r → ∀ x ∈ r.toOption, (v.inodes x.1).hardLinks + 1 < 2 ^ 16

instance (v : Ext2Names) (dirname : SanitizedPath) : Decidable (v.Extendable dirname) :=
  Exec.decidableForallOk _

/-- A new directory is a new node with its name and its own two links. -/
theorem Consistent.mkdir_meets (h : v.Consistent) (path : SanitizedPath) {mode : ℕ} (hmode : mode < 4096)
    (hlen : path.name.length ≤ 255) (hroom : v.Extendable path)
    (dotBlock dotdotBlock nameBlock : Option Block) :
    Exec.Meets (· ≠ .fault) (fun r => r.1.Consistent) (v.ext2Mkdir path.bytes mode dotBlock dotdotBlock nameBlock) := by
  have hparent := h.parentFor_meets path .eexist
  rw [ext2Mkdir]
  cases hr : v.parentFor path.bytes .eexist with
  | error e =>
    rw [hr] at hparent
    exact hparent
  | ok r =>
    rw [hr] at hparent
    rw [Exec.ok_bind]
    rcases r with e | ⟨p, name⟩
    · exact h
    obtain ⟨hp, habsent, rfl, hname⟩ := hparent p name rfl
    have hpfits := hroom _ hr (p, path.name) rfl
    refine ((ext2InodeFind_marked h.numbered (group_lt hp.1)).weaken fun e => ne_fault_of_halt).bind ?_
    rintro ⟨w, n⟩ hmarked
    have hcreated := hmarked.created (0x4000 ||| mode) 2
    simp only at hcreated ⊢
    generalize w.newInode n (0x4000 ||| mode) 2 = u at hcreated ⊢
    have hne := hcreated.ne hp
    have hnodir : u.IsDir n := by
      have hmem : n ∈ u.tree.dirs := by
        rw [hcreated.dirs]
        exact Or.inl ⟨rfl, (isDirectory_mask hmode).2⟩
      exact hmem
    have hempty : u.live n = [] := live_eq_nil (by rw [hcreated.directory, Function.update_self])
    have hnlisted : u.Listed n := ⟨hnodir, (hcreated.formed h.toFormed (by decide)).tiled n hnodir, by rw [hempty]; exact List.nodup_nil⟩
    have hfresh : ∀ name, u.tree.Absent n name := fun name => (absent_iff hnodir).mpr (by rw [hempty]; simp)
    have hsize : BlockSize u.blockSize := hcreated.blockSize ▸ h.size
    -- the entry of the directory itself
    refine ((ext2DirAllocate_added hnlisted hsize (hcreated.addition h.numbered (by decide) (by decide) (by decide))
      (hfresh dot) ⟨rfl, rfl⟩ dotBlock).weaken fun e => ne_fault_of_halt).bind ?_
    rintro ⟨u₁, ino₁⟩ ⟨hself, hino₁⟩
    -- the entry of its parent
    have hprange : 1 ≤ p ∧ p < 2 ^ 32 := ⟨hp.1.1.1, hp.1.1.2.trans_lt h.numbered.addressed⟩
    have hupadd : Addition dotdot 2 p := ⟨by decide, by decide, by decide, by omega, hprange.2⟩
    have hsize₁ : BlockSize u₁.blockSize := hself.marks.blockSize ▸ hsize
    refine ((ext2DirAllocate_added hself.listed hsize₁ hupadd
      (hself.absent (hfresh dotdot) (Or.inr dot_ne_dotdot)) ?_ dotdotBlock).weaken fun e => ne_fault_of_halt).bind ?_
    · rw [(hself.inodes n).1, (hself.inodes n).2]
      exact hino₁
    rintro ⟨u₂, ino₂⟩ ⟨hup, -⟩
    -- the name in the parent
    have hplisted : u₂.Listed p :=
      hup.listed_of_ne (hself.listed_of_ne (hcreated.listed (h.listed hp)) hne) hne
    have hsize₂ : BlockSize u₂.blockSize := hup.marks.blockSize ▸ hsize₁
    have habsent₂ : u₂.tree.Absent p path.name :=
      hup.absent (hself.absent (hcreated.absent habsent) (Or.inl hne.symm)) (Or.inl hne.symm)
    have hinodes₂ : (u₂.inodes p).permission = (v.inodes p).permission ∧
        (u₂.inodes p).hardLinks = (v.inodes p).hardLinks := by
      rw [(hup.inodes p).1, (hself.inodes p).1, (hup.inodes p).2, (hself.inodes p).2, hcreated.inodes_of_ne hne]
      exact ⟨rfl, rfl⟩
    refine ((ext2DirAllocate_added hplisted hsize₂ (hcreated.addition h.numbered (by decide) hname hlen) habsent₂
      ⟨hinodes₂.1.symm, hinodes₂.2.symm⟩ nameBlock).weaken fun e => ne_fault_of_halt).bind ?_
    rintro ⟨u₃, ino₃⟩ ⟨hnamed, hino₃⟩
    have hperm₃ : ino₃.permission = (u₃.inodes p).permission := by
      rw [hino₃.1, (hnamed.inodes p).1, hinodes₂.1]
    have hmod : (ino₃.hardLinks + 1) % 2 ^ 16 = v.tree.hardLinks p + 1 := by
      rw [hino₃.2]
      exact Nat.mod_eq_of_lt hpfits
    have htree : u₃.tree =
        { u.tree with links := ⟨p, path.name, n⟩ ::ₘ ⟨n, dotdot, p⟩ ::ₘ ⟨n, dot, n⟩ ::ₘ u.tree.links } := by
      rw [hnamed.tree, hup.tree, hself.tree]
    have hordinary : u₃.Ordinary = v.Ordinary := by
      rw [hnamed.marks.ordinary, hup.marks.ordinary, hself.marks.ordinary, hcreated.ordinary]
    have hformed := hnamed.formed (hup.formed (hself.formed (hcreated.formed h.toFormed (by decide))))
    refine ⟨hformed.modify_hardLinks hperm₃ (Nat.mod_lt _ (by decide)), ?_⟩
    have hfinal : (u₃.ext2InodeModifyM p { ino₃ with hardLinks := (ino₃.hardLinks + 1) % 2 ^ 16 }).tree =
        v.tree.addDir dot dotdot n p path.name := by
      rw [tree_modify_hardLinks { ino₃ with hardLinks := (ino₃.hardLinks + 1) % 2 ^ 16 } hperm₃, htree]
      refine NameTree.ext hcreated.used ?_ ?_ ?_
      · refine hcreated.dirs.trans (Set.ext fun d => ?_)
        exact or_congr_left (and_iff_left (isDirectory_mask hmode).2)
      · change Function.update u.tree.hardLinks p ((ino₃.hardLinks + 1) % 2 ^ 16) = _
        rw [hcreated.tree_hardLinks, hmod]
        rfl
      · change _ ::ₘ _ ::ₘ _ ::ₘ u.tree.links = _
        rw [hcreated.links]
        rfl
    have hordinary' : (u₃.ext2InodeModifyM p { ino₃ with hardLinks := (ino₃.hardLinks + 1) % 2 ^ 16 }).Ordinary =
        v.Ordinary := hordinary
    rw [hfinal, hordinary']
    exact h.valid.addDir dot_ne_dotdot hcreated.fresh (Or.inr hcreated.first) hp habsent

/-- The link is to a file with room in its count, under a name that is not there. -/
def Linkable (v : Ext2Names) (filename target : SanitizedPath) : Prop :=
  ∀ n, v.ext2TraversePath filename.bytes false = .ok n → n ≠ 0 → ∀ last ∈ lastSlash target.bytes,
    ∀ p, v.ext2TraversePath (target.bytes.take last) false = .ok p → p ≠ 0 → (v.inodes p).isDirectory = true →
      (v.inodes n).isDirectory = false ∧ (v.inodes n).hardLinks + 1 < 2 ^ 16 ∧ v.ext2Traverse p target.name = .ok 0

instance (v : Ext2Names) (filename target : SanitizedPath) : Decidable (v.Linkable filename target) :=
  Exec.decidableForallOk _

/-- One more name of a node that is no directory. -/
theorem Consistent.addLink_meets (h : v.Consistent) (hn : v.Used n ∧ n ∈ v.Ordinary) (hp : v.IsDir p)
    (hfile : (v.inodes n).isDirectory = false) (hfits : (v.inodes n).hardLinks + 1 < 2 ^ 16)
    (habsent : v.tree.Absent p name) (hname : name ≠ []) (hlen : name.length ≤ 255) {type : ℕ} (htype : type < 256)
    (newBlock : Option Block) :
    Exec.Meets (· = .halt) (fun r => r.1.Consistent)
      ((v.ext2InodeModifyM n { v.inodes n with hardLinks := ((v.inodes n).hardLinks + 1) % 2 ^ 16 }).ext2DirAllocate p
        (v.inodes p) name type n newBlock) := by
  rw [Nat.mod_eq_of_lt hfits]
  have hne : p ≠ n := by
    rintro rfl
    rw [hp.2] at hfile
    cases hfile
  have hmodify := tree_modify_hardLinks (v := v) (n := n) { v.inodes n with hardLinks := (v.inodes n).hardLinks + 1 } rfl
  have hlisted : (v.ext2InodeModifyM n { v.inodes n with hardLinks := (v.inodes n).hardLinks + 1 }).Listed p :=
    (h.listed hp).modify_hardLinks rfl
  have hmarks : SameMarks v (v.ext2InodeModifyM n { v.inodes n with hardLinks := (v.inodes n).hardLinks + 1 }) :=
    ⟨rfl, rfl, rfl, rfl, rfl⟩
  have hinode : (v.ext2InodeModifyM n { v.inodes n with hardLinks := (v.inodes n).hardLinks + 1 }).inodes p = v.inodes p :=
    Function.update_of_ne hne ..
  have hformed : (v.ext2InodeModifyM n { v.inodes n with hardLinks := (v.inodes n).hardLinks + 1 }).Formed :=
    h.toFormed.modify_hardLinks rfl hfits
  generalize v.ext2InodeModifyM n { v.inodes n with hardLinks := (v.inodes n).hardLinks + 1 } = u at *
  have habsent' : u.tree.Absent p name := by
    rw [hmodify]
    exact habsent
  have hrange := hn.1.1
  have hcount := h.numbered.addressed
  have hadd : Addition name type n := ⟨List.length_pos_iff.mpr hname, hlen, htype, by omega, by omega⟩
  refine (ext2DirAllocate_added hlisted (hmarks.blockSize ▸ h.size) hadd habsent' (by rw [hinode]; exact ⟨rfl, rfl⟩)
    newBlock).mono ?_
  rintro ⟨w, ino⟩ ⟨hadded, -⟩
  refine ⟨hadded.formed hformed, ?_⟩
  have htree : w.tree = v.tree.addLink n p name := by
    rw [hadded.tree, hmodify]
    rfl
  rw [htree, hadded.marks.ordinary, hmarks.ordinary]
  refine h.valid.addLink hn.1 hn.2 (fun hc => ?_) hp habsent
  rw [hc.2] at hfile
  cases hfile

/-- A new link is one more name of a node. -/
theorem Consistent.link_meets (h : v.Consistent) (filename target : SanitizedPath) (hlen : target.name.length ≤ 255)
    (hlinkable : v.Linkable filename target) (newBlock : Option Block) :
    Exec.Meets (· ≠ .fault) (fun r => r.1.Consistent) (v.ext2Link filename.bytes target.bytes newBlock) := by
  have hsource := h.traversePath_meets filename.bytes false
  rw [ext2Link]
  cases hn : v.ext2TraversePath filename.bytes false with
  | error e =>
    rw [hn] at hsource
    exact ne_fault_of_assertion hsource
  | ok n =>
    rw [hn] at hsource
    rw [Exec.ok_bind]
    by_cases hn0 : n = 0
    · rw [if_pos hn0]
      exact h
    rw [if_neg hn0]
    by_cases hkind : (!(v.inodes n).isRegular && !(v.inodes n).isDirectory) = true
    · rw [if_pos hkind]
      exact h
    rw [if_neg hkind]
    rcases target.splits with hroot | ⟨pre, hsplit⟩
    · -- the parent of the root is the empty path
      rw [hroot]
      exact h
    rw [hsplit.lastSlash_eq]
    simp only
    rw [hsplit.take_eq, hsplit.drop_eq]
    have htarget := h.traversePath_meets pre false
    cases hp : v.ext2TraversePath pre false with
    | error e =>
      rw [hp] at htarget
      exact ne_fault_of_assertion htarget
    | ok p =>
      rw [hp] at htarget
      rw [Exec.ok_bind]
      by_cases hp0 : p = 0
      · rw [if_pos hp0]
        exact h
      rw [if_neg hp0]
      by_cases hdir : (v.inodes p).isDirectory = true
      · rw [if_neg (by simpa using hdir)]
        have hpdir : v.IsDir p := ⟨(htarget hp0).1, hdir⟩
        obtain ⟨hfile, hfits, hfree⟩ :=
          hlinkable n hn hn0 pre.length hsplit.lastSlash_eq p (by rw [hsplit.take_eq]; exact hp) hp0 hdir
        refine ((h.addLink_meets (hsource hn0) hpdir hfile hfits (h.absent_of_traverse hpdir hfree) hsplit.nonempty hlen
          ?_ newBlock).weaken fun e => ne_fault_of_halt).bind fun r hr => hr
        split_ifs <;> decide
      · rw [if_pos (by simpa using hdir)]
        exact ne_fault_of_assertion rfl

end DualFuse.Filesystems.Ext2Names
