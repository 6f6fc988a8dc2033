import DualFuse.Filesystems.Ext2.NamespaceCreate

/-! What `ext2Delete` does to the tree of names, and runs of all four calls. A directory
with names in a later block than its first is not seen to be in use when it is deleted. -/

namespace DualFuse.Filesystems

open Library

theorem Tiles.length_lt {b : Block} {o q : ℕ} {l : List DirEntry} (h : Tiles b o l q) :
    ∀ e ∈ l, e.filename.length < 256 := by
  induction l generalizing o with
  | nil => exact fun e he => absurd he List.not_mem_nil
  | cons e l ih =>
    intro x hx
    rcases List.mem_cons.mp hx with rfl | hx
    · exact h.1.length_lt
    · exact ih h.2.2 x hx

namespace Ext2Names

variable {v w : Ext2Names} {d n p : ℕ} {name : Filename} {l : Link ℕ Filename}

theorem Formed.length_le (hv : v.Formed) (hl : l ∈ v.tree.links) : l.name.length ≤ 255 := by
  obtain ⟨hd, type, hlive⟩ := mem_links.mp hl
  obtain ⟨rows, htiled⟩ := hv.tiled _ hd
  obtain ⟨e, he, heq⟩ := List.mem_map.mp hlive
  have hmem := (List.mem_filter.mp he).1
  rw [htiled.records_eq, List.mem_flatten] at hmem
  obtain ⟨row, hrow, her⟩ := hmem
  obtain ⟨i, hi, rfl⟩ := List.getElem_of_mem hrow
  have htiles := List.Forall₂.get htiled (htiled.length_eq ▸ hi) hi
  have hlt := htiles.length_lt e her
  rw [Prod.mk.injEq] at heq
  rw [← heq.1]
  omega

/-! ### An inode is freed -/

theorem Cleared.numbered (h : v.Cleared w n) (hv : v.Numbered) : w.Numbered where
  reserved := by
    rw [h.firstInode, h.inodesPerGroup]
    exact hv.reserved
  addressed := by
    unfold inodeCount
    rw [h.blockGroups, h.inodesPerGroup]
    exact hv.addressed
  padding g hg i hi := by
    rw [h.blockGroups] at hg
    rw [h.blockSize] at hi
    rw [h.inodesPerGroup]
    exact fun hle => h.padding g hg i hle (hv.padding g hg i hi hle)

/-- `w` has one inode less, and its directory if it is one. -/
structure Freed (v w : Ext2Names) (n : ℕ) : Prop where
  formed : v.Formed → w.Formed
  ordinary : w.Ordinary = v.Ordinary
  inodes_of_ne : ∀ m ≠ n, w.inodes m = v.inodes m
  directory_of_ne : ∀ m ≠ n, w.directory m = v.directory m
  blockSize : w.blockSize = v.blockSize
  tree : w.tree =
    { used := v.tree.used \ {n}
      dirs := v.tree.dirs \ {n}
      hardLinks := Function.update v.tree.hardLinks n 0
      links := v.tree.links.filter fun l => l.dir ≠ n }

theorem freed_of_cleared (hn : v.Used n) (h : (v.emptied n).Cleared w n) : v.Freed w n := by
  have hmarks : SameMarks v (v.emptied n) := ⟨rfl, rfl, rfl, rfl, rfl⟩
  have hinodes : ∀ m ≠ n, w.inodes m = v.inodes m := fun m hm => by
    rw [h.inodes]
    exact Function.update_of_ne hm ..
  have hdirectory : ∀ m ≠ n, w.directory m = v.directory m := fun m hm => by
    rw [h.directory]
    exact Function.update_of_ne hm ..
  have hused : ∀ m, w.Used m ↔ m ≠ n ∧ v.Used m := fun m => by
    rw [h.used_iff, hmarks.used_iff]
  have hsize : w.blockSize = v.blockSize := h.blockSize
  have hdir : ∀ m, w.IsDir m ↔ m ≠ n ∧ v.IsDir m := by
    intro m
    rw [IsDir, hused, and_assoc, IsDir]
    refine and_congr_right fun hm => ?_
    rw [hinodes m hm]
  have hcount : w.inodeCount = v.inodeCount := by
    unfold inodeCount
    rw [h.blockGroups, h.inodesPerGroup]
    rfl
  have hgone : ¬w.IsDir n := fun hc => ((hdir n).mp hc).1 rfl
  refine ⟨fun hv => ⟨hsize ▸ hv.size, h.numbered (hmarks.numbered hv.numbered), fun d hd => ?_, fun m => ?_⟩,
    congrArg (fun k => { n | n = rootInode ∨ k ≤ n }) h.firstInode, hinodes, hdirectory, hsize, ?_⟩
  · obtain ⟨hne, hd⟩ := (hdir d).mp hd
    rw [hsize, hdirectory d hne]
    exact hv.tiled d hd
  · rcases eq_or_ne m n with rfl | hne
    · rw [h.inodes, show (v.emptied m).inodes m = { v.inodes m with hardLinks := 0, size := 0 } from
        Function.update_self ..]
      exact Nat.two_pow_pos 16
    · rw [hinodes m hne]
      exact hv.field m
  · refine NameTree.ext (Set.ext fun m => ?_) (Set.ext fun m => ?_) (funext fun m => ?_) ?_
    · exact (hused m).trans and_comm
    · exact (hdir m).trans and_comm
    · change (w.inodes m).hardLinks = Function.update v.tree.hardLinks n 0 m
      rw [h.inodes, Function.update_apply]
      change (Function.update v.inodes n _ m).hardLinks = _
      rw [Function.update_apply]
      split_ifs <;> rfl
    · refine links_of_gone hcount (Finset.mem_range.mpr (Nat.lt_succ_of_le hn.1.2)) hgone fun x hx => ?_
      have hiff : w.IsDir x ↔ v.IsDir x := (hdir x).trans (and_iff_right hx)
      unfold linksOf live
      simp only [hiff, hsize, hdirectory x hx]

theorem Freed.listed (h : v.Freed w n) (hp : v.Listed p) (hne : p ≠ n) : w.Listed p := by
  refine ⟨?_, ?_, ?_⟩
  · have hmem : p ∈ w.tree.dirs := by
      rw [h.tree]
      exact ⟨hp.isDir, hne⟩
    exact hmem
  · rw [h.blockSize, h.directory_of_ne p hne]
    exact hp.tiled
  · unfold live
    rw [h.blockSize, h.directory_of_ne p hne]
    exact hp.nodup

/-! ### A name is removed -/

/-- The count of an inode, one down. -/
theorem pred_eq {k : ℕ} (hpos : k ≠ 0) (hlt : k < 2 ^ 16) : (k + 2 ^ 16 - 1) % 2 ^ 16 = k - 1 := by
  omega

theorem Consistent.unlink_name (h : v.Consistent) (hl : l ∈ v.tree.links) (hdot : l.name ≠ dot)
    (hdotdot : l.name ≠ dotdot) (hmore : v.tree.hardLinks l.node ≠ 1) :
    ∃ w, (v.ext2InodeModifyM l.node { v.inodes l.node with hardLinks := v.tree.hardLinks l.node - 1 }).ext2DirRemove l.dir
      l.name = .ok (w, true) ∧ w.Consistent := by
  have hp : v.IsDir l.dir := h.valid.homes l hl
  have hfits : v.tree.hardLinks l.node - 1 < 2 ^ 16 := (Nat.sub_le _ _).trans_lt (h.field l.node)
  have hmodify := tree_modify_hardLinks (v := v) (n := l.node)
    { v.inodes l.node with hardLinks := v.tree.hardLinks l.node - 1 } rfl
  have hlisted : (v.ext2InodeModifyM l.node { v.inodes l.node with hardLinks := v.tree.hardLinks l.node - 1 }).Listed
      l.dir := (h.listed hp).modify_hardLinks rfl
  have hformed : (v.ext2InodeModifyM l.node { v.inodes l.node with hardLinks := v.tree.hardLinks l.node - 1 }).Formed :=
    h.toFormed.modify_hardLinks rfl hfits
  have hmem : l ∈ (v.ext2InodeModifyM l.node { v.inodes l.node with hardLinks := v.tree.hardLinks l.node - 1 }).tree.links := by
    rw [hmodify]
    exact hl
  obtain ⟨w, heq, hremoved⟩ := ext2DirRemove_removed hlisted hformed.size (h.length_le hl) hmem
  refine ⟨w, heq, hremoved.formed hformed, ?_⟩
  have htree : w.tree = v.tree.unlink l := by
    rw [hremoved.tree, hmodify]
    rfl
  rw [htree, hremoved.marks.ordinary]
  exact h.valid.unlink hl hdot hdotdot hmore

theorem Consistent.freeFile_name (h : v.Consistent) (hl : l ∈ v.tree.links) (hdot : l.name ≠ dot)
    (hdotdot : l.name ≠ dotdot) (hfile : ¬v.IsDir l.node) (hlast : v.tree.hardLinks l.node = 1)
    (hfreed : v.Freed w l.node) : ∃ u, w.ext2DirRemove l.dir l.name = .ok (u, true) ∧ u.Consistent := by
  have hp : v.IsDir l.dir := h.valid.homes l hl
  have hne : l.dir ≠ l.node := fun hc => hfile (hc ▸ hp)
  have hhome : ∀ x ∈ v.tree.links, x.dir ≠ l.node := fun x hx hc => hfile (hc ▸ h.valid.homes x hx)
  have hlinks : w.tree.links = v.tree.links := by
    rw [hfreed.tree]
    exact Multiset.filter_eq_self.mpr hhome
  have hformed := hfreed.formed h.toFormed
  obtain ⟨u, heq, hremoved⟩ := ext2DirRemove_removed (hfreed.listed (h.listed hp) hne) hformed.size (h.length_le hl)
    (show l ∈ w.tree.links by rw [hlinks]; exact hl)
  refine ⟨u, heq, hremoved.formed hformed, ?_⟩
  have htree : u.tree = v.tree.freeFile l := by
    rw [hremoved.tree, hfreed.tree]
    exact NameTree.ext rfl (Set.sdiff_singleton_eq_self hfile) rfl
      (congrArg (Multiset.erase · l) (Multiset.filter_eq_self.mpr hhome))
  rw [htree, hremoved.marks.ordinary, hfreed.ordinary]
  exact h.valid.freeFile hl hdot hdotdot hfile hlast

theorem Consistent.freeDir_name (h : v.Consistent) (hl : l ∈ v.tree.links) (hdot : l.name ≠ dot)
    (hdotdot : l.name ≠ dotdot) (hdir : v.IsDir l.node) (hlast : v.tree.hardLinks l.node = 2)
    (hempty : ∀ x ∈ v.tree.links, x.dir = l.node → x.name = dot ∨ x.name = dotdot) (hfreed : v.Freed w l.node) :
    ∃ u, (w.ext2InodeModifyM l.dir { v.inodes l.dir with hardLinks := v.tree.hardLinks l.dir - 1 }).ext2DirRemove l.dir
      l.name = .ok (u, true) ∧ u.Consistent := by
  obtain ⟨hne, -, -, -⟩ := h.valid.freeDir_links dot_ne_dotdot hl hdot hdotdot hdir hlast hempty
  have hp : v.IsDir l.dir := h.valid.homes l hl
  have hformed := hfreed.formed h.toFormed
  have hinode := hfreed.inodes_of_ne l.dir hne
  have hperm : (v.inodes l.dir).permission = (w.inodes l.dir).permission := by rw [hinode]
  have hfits : v.tree.hardLinks l.dir - 1 < 2 ^ 16 := (Nat.sub_le _ _).trans_lt (h.field l.dir)
  have hmodify := tree_modify_hardLinks { v.inodes l.dir with hardLinks := v.tree.hardLinks l.dir - 1 } hperm
  have hlisted : (w.ext2InodeModifyM l.dir { v.inodes l.dir with hardLinks := v.tree.hardLinks l.dir - 1 }).Listed l.dir :=
    (hfreed.listed (h.listed hp) hne).modify_hardLinks hperm
  have hformed' : (w.ext2InodeModifyM l.dir { v.inodes l.dir with hardLinks := v.tree.hardLinks l.dir - 1 }).Formed :=
    hformed.modify_hardLinks hperm hfits
  have hlinks : (w.ext2InodeModifyM l.dir { v.inodes l.dir with hardLinks := v.tree.hardLinks l.dir - 1 }).tree.links =
      v.tree.links.filter fun x => x.dir ≠ l.node := by
    rw [hmodify, hfreed.tree]
  obtain ⟨u, heq, hremoved⟩ := ext2DirRemove_removed hlisted hformed'.size (h.length_le hl)
    (by rw [hlinks]; exact Multiset.mem_filter.mpr ⟨hl, hne⟩)
  refine ⟨u, heq, hremoved.formed hformed', ?_⟩
  have htree : u.tree = v.tree.freeDir l := by
    rw [hremoved.tree, hmodify, hfreed.tree]
    refine NameTree.ext rfl rfl rfl ?_
    obtain ⟨rest, hrest⟩ := Multiset.exists_cons_of_mem hl
    change Multiset.erase (v.tree.links.filter fun x => x.dir ≠ l.node) l = (v.tree.links.erase l).filter _
    rw [hrest, Multiset.filter_cons_of_pos (p := fun x => x.dir ≠ l.node) rest hne, Multiset.erase_cons_head,
      Multiset.erase_cons_head]
  have hordinary : u.Ordinary = v.Ordinary := hremoved.marks.ordinary.trans hfreed.ordinary
  rw [htree, hordinary]
  exact h.valid.freeDir dot_ne_dotdot hl hdot hdotdot hdir hlast hempty

/-- A directory counts its name and its own link. -/
theorem Consistent.two_le_hardLinks (h : v.Consistent) (hl : l ∈ v.tree.links) (hdot : l.name ≠ dot)
    (hdir : v.IsDir l.node) : 2 ≤ (v.inodes l.node).hardLinks := by
  have hn := h.valid.refers l hl
  have hcount : (v.inodes l.node).hardLinks = v.tree.count l.node := h.valid.counted _ hn.1 hn.2
  obtain ⟨rest, hrest⟩ := Multiset.exists_cons_of_mem hl
  have hself : ⟨l.node, dot, l.node⟩ ∈ rest := by
    have := h.valid.self _ hdir
    rw [hrest, Multiset.mem_cons] at this
    exact this.resolve_left fun hc => hdot (congrArg Link.name hc).symm
  obtain ⟨rest', rfl⟩ := Multiset.exists_cons_of_mem hself
  rw [hcount, NameTree.count, hrest, Multiset.countP_cons, Multiset.countP_cons, if_pos rfl]
  omega

/-- The end of a deletion is one step of the tree. -/
theorem Consistent.removeName_ok (h : v.Consistent) (hl : l ∈ v.tree.links) (hdot : l.name ≠ dot)
    (hdotdot : l.name ≠ dotdot)
    (hempty : v.IsDir l.node → ∀ x ∈ v.tree.links, x.dir = l.node → x.name = dot ∨ x.name = dotdot) :
    ∃ u, v.removeName l.node l.dir l.name = .ok (u, .success) ∧ u.Consistent := by
  have hn := h.valid.refers l hl
  have hpos : (v.inodes l.node).hardLinks ≠ 0 := h.valid.kept _ hn.1 hn.2
  have hdown := pred_eq hpos (h.field l.node)
  have hmarks : SameMarks v (v.emptied l.node) := ⟨rfl, rfl, rfl, rfl, rfl⟩
  obtain ⟨w, hdelete, hcleared⟩ :=
    ext2InodeDelete_cleared (hmarks.numbered h.numbered) (hmarks.used_iff.mpr hn.1)
  have hfreed := freed_of_cleared hn.1 hcleared
  -- it is enough to find the state that the name is removed from
  have hfinish : ∀ x, v.countDown l.node l.dir = .ok x →
      (∃ u, x.ext2DirRemove l.dir l.name = .ok (u, true) ∧ u.Consistent) →
      ∃ u, v.removeName l.node l.dir l.name = .ok (u, .success) ∧ u.Consistent := by
    rintro x hx ⟨u, heq, hu⟩
    refine ⟨u, ?_, hu⟩
    rw [removeName, hx, Exec.ok_bind, heq]
    rfl
  by_cases hdir : (v.inodes l.node).isDirectory = true
  · have hndir : v.IsDir l.node := ⟨hn.1, hdir⟩
    have htwo := h.two_le_hardLinks hl hdot hndir
    by_cases hlast : (v.inodes l.node).hardLinks = 2
    · have hp := h.valid.homes l hl
      have hppos : (v.inodes l.dir).hardLinks ≠ 0 :=
        h.valid.kept _ (h.valid.subset hp) (h.valid.refers _ (h.valid.self _ hp)).2
      have hone : ((v.inodes l.node).hardLinks + 2 ^ 16 - 1) % 2 ^ 16 = 1 := by omega
      refine hfinish _ ?_ (h.freeDir_name hl hdot hdotdot hndir hlast (hempty hndir) hfreed)
      simp only [countDown, hone, hdir, and_self, if_true, hdelete, Exec.ok_bind, pred_eq hppos (h.field l.dir)]
      rfl
    · refine hfinish _ ?_ (h.unlink_name hl hdot hdotdot fun hc => ?_)
      · have hne : ¬(v.inodes l.node).hardLinks - 1 = 1 := by omega
        have hne' : ¬(v.inodes l.node).hardLinks - 1 = 0 := by omega
        simp only [countDown, hdown, hne, hne', and_false, if_false]
        rfl
      · have hone : (v.inodes l.node).hardLinks = 1 := hc
        omega
  · by_cases hlast : (v.inodes l.node).hardLinks = 1
    · refine hfinish _ ?_ (h.freeFile_name hl hdot hdotdot (fun hc => hdir hc.2) hlast hfreed)
      have hzero : ((v.inodes l.node).hardLinks + 2 ^ 16 - 1) % 2 ^ 16 = 0 := by omega
      simp only [countDown, hzero, hdir, false_and, Bool.false_eq_true, if_true, if_false, hdelete, Exec.ok_bind]
    · refine hfinish _ ?_ (h.unlink_name hl hdot hdotdot hlast)
      have hne' : ¬(v.inodes l.node).hardLinks - 1 = 0 := by omega
      simp only [countDown, hdown, hne', hdir, false_and, Bool.false_eq_true, if_false]
      rfl

/-! ### The look into a directory -/

/-- A row that passes has at most two live records. -/
theorem emptyWalk_ok {blockSize : ℕ} {b : Block} {o fuel : ℕ} {l : List DirEntry} (h : Tiles b o l blockSize)
    (hfuel : l.length < fuel) (i : ℕ) :
    ∃ r, emptyWalk blockSize b fuel o i = .ok r ∧ (r = true → (liveEntries l).length + i ≤ max i 2) := by
  induction l generalizing o fuel i with
  | nil =>
    obtain ⟨m, rfl⟩ : ∃ m, fuel = m + 1 := ⟨fuel - 1, by simp at hfuel; omega⟩
    refine ⟨true, by rw [emptyWalk, if_pos (Eq.ge h)], fun _ => ?_⟩
    have hlen : (liveEntries []).length = 0 := rfl
    omega
  | cons e l ih =>
    obtain ⟨hat, hwf, htail⟩ := h
    have hle := htail.le
    have := hwf.eight_le
    rw [List.length_cons] at hfuel
    obtain ⟨m, rfl⟩ : ∃ m, fuel = m + 1 := ⟨fuel - 1, by omega⟩
    rw [emptyWalk, if_neg (by omega)]
    by_cases hstop : 2 < Ext2Directory.filenameLengthAt b o ∨ 1 < i
    · exact ⟨false, if_pos hstop, fun hc => absurd hc (by simp)⟩
    · have hm : l.length < m := by omega
      rw [if_neg hstop, hat.size, hat.inode]
      rw [not_or] at hstop
      by_cases hlive : e.inode = 0
      · rw [if_neg (not_not.mpr hlive), liveEntries_cons_of_free hlive]
        exact ih htail hm i
      · obtain ⟨r, heq, hr⟩ := ih htail hm (i + 1)
        refine ⟨r, by rw [if_pos hlive]; exact heq, fun htrue => ?_⟩
        have := hr htrue
        rw [liveEntries_cons hlive, List.length_cons]
        omega

theorem eq_or_eq_of_length_le_two {α : Type*} {l : List α} {a b : α} (hl : l.length ≤ 2) (ha : a ∈ l) (hb : b ∈ l)
    (hab : a ≠ b) : ∀ x ∈ l, x = a ∨ x = b := by
  match l, hl with
  | [], _ => cases ha
  | [y], _ =>
    rw [List.mem_singleton] at ha hb
    exact absurd (ha.trans hb.symm) hab
  | [y, z], _ =>
    simp only [List.mem_cons, List.not_mem_nil, or_false] at ha hb ⊢
    intro x hx
    grind

/-- A directory whose later blocks have no names, and which passes, has nothing but its own
two links. -/
theorem Consistent.isEmpty_ok (h : v.Consistent) (hd : v.IsDir d) (hup : ⟨d, dotdot, p⟩ ∈ v.tree.links)
    (hlater : liveEntries (records v.blockSize (v.directory d).tail) = []) :
    ∃ r, v.isEmpty d = .ok r ∧ (r = true → ∀ x ∈ v.tree.links, x.dir = d → x.name = dot ∨ x.name = dotdot) := by
  obtain ⟨-, type, hself⟩ := mem_links.mp (h.valid.self d hd)
  obtain ⟨-, type', hup⟩ := mem_links.mp hup
  obtain ⟨rows, htiled⟩ := h.tiled d hd
  rw [isEmpty]
  cases hblocks : v.directory d with
  | nil =>
    have hnil : v.live d = [] := live_eq_nil hblocks
    simp only [hnil] at hself
    cases hself
  | cons b blocks =>
    rw [hblocks] at htiled hlater
    obtain ⟨row, rows, hrow, hrest, rfl⟩ := List.forall₂_cons_left_iff.mp htiled
    have hlen := hrow.length_le
    have hfuel : row.length < v.blockSize + 1 := by omega
    obtain ⟨r, heq, hr⟩ := emptyWalk_ok hrow hfuel 0
    refine ⟨r, heq, fun htrue x hx hxd => ?_⟩
    have hlive : v.live d = liveEntries row := by
      unfold live
      rw [hblocks, records, List.flatMap_cons, liveEntries_append, recordsFrom_eq hrow hfuel]
      change liveEntries row ++ liveEntries (records v.blockSize blocks) = _
      rw [show liveEntries (records v.blockSize blocks) = [] from hlater, List.append_nil]
    have htwo : (v.live d).length ≤ 2 := by
      rw [hlive]
      exact hr htrue
    obtain ⟨-, typeX, hxlive⟩ := mem_links.mp hx
    rw [hxd] at hxlive
    have hne : ((dot, d, type) : Filename × ℕ × ℕ) ≠ (dotdot, p, type') := fun hc =>
      dot_ne_dotdot (congrArg Prod.fst hc)
    rcases eq_or_eq_of_length_le_two htwo hself hup hne _ hxlive with hc | hc
    · exact Or.inl (congrArg Prod.fst hc)
    · exact Or.inr (congrArg Prod.fst hc)

/-- The directory that is deleted has no names behind its first block. -/
def Deletable (v : Ext2Names) (filename : SanitizedPath) : Prop :=
  ∀ n, v.ext2TraversePath filename.bytes false = .ok n → (v.inodes n).isDirectory = true →
    liveEntries (records v.blockSize (v.directory n).tail) = []

instance (v : Ext2Names) (filename : SanitizedPath) : Decidable (v.Deletable filename) := Exec.decidableForallOk _

/-- The removal of a name that may go succeeds. -/
theorem Consistent.deleteFrom_ok (h : v.Consistent) {path pre : Path} (hsplit : Splits path pre name)
    (hn : v.ext2TraversePath path false = .ok n) (hn0 : n ≠ 0)
    (hempty : v.IsDir n → ∀ x ∈ v.tree.links, x.dir = n → x.name = dot ∨ x.name = dotdot) :
    ∃ u, v.deleteFrom path n = .ok (u, .success) ∧ u.Consistent := by
  obtain ⟨p, hp, hpdir, hl⟩ := h.traversePath_split hsplit hn hn0
  have hp0 : p ≠ 0 := by
    have := hpdir.1.1.1
    omega
  rw [deleteFrom, hp, Exec.ok_bind, if_neg hp0, if_neg (by simpa using hpdir.2), hsplit.lastSlash_eq, Option.getD_some,
    hsplit.drop_eq]
  exact h.removeName_ok hl hsplit.undotted.1 hsplit.undotted.2 hempty

theorem Consistent.deleteFrom_meets (h : v.Consistent) {path pre : Path} (hsplit : Splits path pre name)
    (hn : v.ext2TraversePath path false = .ok n) (hn0 : n ≠ 0)
    (hempty : v.IsDir n → ∀ x ∈ v.tree.links, x.dir = n → x.name = dot ∨ x.name = dotdot) :
    Exec.Meets (· ≠ .fault) (fun r => r.1.Consistent) (v.deleteFrom path n) := by
  obtain ⟨u, heq, hu⟩ := h.deleteFrom_ok hsplit hn hn0 hempty
  rw [heq]
  exact hu

/-- A deletion removes a name, and the node with its last one. -/
theorem Consistent.delete_meets (h : v.Consistent) (filename : SanitizedPath) (directory openFds : Bool)
    (hdeletable : directory = true → v.Deletable filename) :
    Exec.Meets (· ≠ .fault) (fun r => r.1.Consistent) (v.ext2Delete filename.bytes directory openFds) := by
  have htarget := h.traversePath_meets filename.bytes false
  rw [ext2Delete]
  cases hn : v.ext2TraversePath filename.bytes false with
  | error e =>
    rw [hn] at htarget
    exact ne_fault_of_assertion htarget
  | ok n =>
    rw [hn] at htarget
    rw [Exec.ok_bind]
    split_ifs with hn0 hopen hnotdir hisdir hroot
    · exact h
    · exact ne_fault_of_assertion rfl
    · exact h
    · exact h
    · exact h
    · exact h
    · have hsplit : ∃ pre, Splits filename.bytes pre filename.name := by
        refine filename.splits.resolve_left fun hc => hroot ?_
        rw [hc]
        rfl
      obtain ⟨pre, hsplit⟩ := hsplit
      obtain ⟨p, -, -, hl⟩ := h.traversePath_split hsplit hn hn0
      cases directory with
      | false =>
        have hfile : ¬v.IsDir n := fun hc => hisdir (by simpa using hc.2)
        exact h.deleteFrom_meets hsplit hn hn0 fun hc => absurd hc hfile
      | true =>
        have hdir : v.IsDir n := ⟨(htarget hn0).1, by simpa using hnotdir⟩
        have hup := h.valid.parent _ hl hdir hsplit.undotted.1 hsplit.undotted.2
        obtain ⟨r, heq, hr⟩ := h.isEmpty_ok hdir hup (hdeletable rfl n hn hdir.2)
        rw [mayGo, if_pos rfl, heq, Exec.ok_bind]
        cases r with
        | false => exact h
        | true => exact h.deleteFrom_meets hsplit hn hn0 fun _ => hr rfl

/-! ### Runs -/

end Ext2Names

/-- The calls, with the blocks that `ext2BlockFind` finds if they need them. -/
inductive NameCall where
  | ext2Touch (filename : SanitizedPath) (mode : ℕ) (newBlock : Option Block)
  | ext2Mkdir (dirname : SanitizedPath) (mode : ℕ) (dotBlock dotdotBlock nameBlock : Option Block)
  | ext2Link (filename target : SanitizedPath) (newBlock : Option Block)
  | ext2Delete (filename : SanitizedPath) (directory openFds : Bool)

namespace Ext2Names

variable {v : Ext2Names}

def step (v : Ext2Names) : NameCall → Exec Ext2Names
  | .ext2Touch filename mode newBlock => Prod.fst <$> v.ext2Touch filename.bytes mode newBlock
  | .ext2Mkdir dirname mode dotBlock dotdotBlock nameBlock =>
    Prod.fst <$> v.ext2Mkdir dirname.bytes mode dotBlock dotdotBlock nameBlock
  | .ext2Link filename target newBlock => Prod.fst <$> v.ext2Link filename.bytes target.bytes newBlock
  | .ext2Delete filename directory openFds => Prod.fst <$> v.ext2Delete filename.bytes directory openFds

/-- Names fit, modes are permissions, counts have room, a link is to a file and under a new
name, and a directory that is deleted has no names behind its first block. -/
def Guard (v : Ext2Names) : NameCall → Prop
  | .ext2Touch filename mode _ => mode < 4096 ∧ filename.name.length ≤ 255
  | .ext2Mkdir dirname mode _ _ _ => mode < 4096 ∧ dirname.name.length ≤ 255 ∧ v.Extendable dirname
  | .ext2Link filename target _ => target.name.length ≤ 255 ∧ v.Linkable filename target
  | .ext2Delete filename directory _ => directory = true → v.Deletable filename

instance (v : Ext2Names) : (call : NameCall) → Decidable (v.Guard call)
  | .ext2Touch _ _ _ => inferInstanceAs (Decidable (_ ∧ _))
  | .ext2Mkdir _ _ _ _ _ => inferInstanceAs (Decidable (_ ∧ _ ∧ _))
  | .ext2Link _ _ _ => inferInstanceAs (Decidable (_ ∧ _))
  | .ext2Delete _ _ _ => inferInstanceAs (Decidable (_ → _))

theorem Consistent.step_meets (h : v.Consistent) (call : NameCall) (hguard : v.Guard call) :
    Exec.Meets (· ≠ .fault) Consistent (v.step call) := by
  cases call with
  | ext2Touch filename mode newBlock =>
    exact (h.touch_meets filename hguard.1 hguard.2 newBlock).map fun r hr => hr
  | ext2Mkdir dirname mode dotBlock dotdotBlock nameBlock =>
    exact (h.mkdir_meets dirname hguard.1 hguard.2.1 hguard.2.2 dotBlock dotdotBlock nameBlock).map fun r hr => hr
  | ext2Link filename target newBlock =>
    exact (h.link_meets filename target hguard.1 hguard.2 newBlock).map fun r hr => hr
  | ext2Delete filename directory openFds =>
    exact (h.delete_meets filename directory openFds hguard).map fun r hr => hr

/-- The live directory entries that name an inode. -/
def entryCount (v : Ext2Names) (n : ℕ) : ℕ :=
  ∑ d ∈ Finset.range (v.inodeCount + 1), if v.IsDir d then (v.live d).countP fun e => e.2.1 = n else 0

/-- No name stands twice in a directory, every live entry is to an inode in use, and every
file counts its live entries: none exactly if it is not in use. -/
structure Linked (v : Ext2Names) : Prop where
  nodup : ∀ d, v.IsDir d → ((v.live d).map Prod.fst).Nodup
  refers : ∀ d, v.IsDir d → ∀ e ∈ v.live d, v.Used e.2.1
  counted : ∀ n ∈ v.Ordinary, v.Used n → (v.inodes n).hardLinks = v.entryCount n
  freed : ∀ n ∈ v.Ordinary, v.entryCount n = 0 ↔ ¬v.Used n

theorem count_eq (v : Ext2Names) (n : ℕ) : v.tree.count n = v.entryCount n := by
  have hsum := map_sum (Multiset.countPAddMonoidHom fun l : Link ℕ Filename => l.node = n) v.linksOf
    (Finset.range (v.inodeCount + 1))
  refine hsum.trans (Finset.sum_congr rfl fun d _ => ?_)
  change (v.linksOf d).countP _ = _
  rw [linksOf]
  split_ifs
  · rw [Multiset.coe_countP, List.countP_map]
    rfl
  · rfl

theorem Consistent.linked (h : v.Consistent) : v.Linked where
  nodup d hd := nodup_live h.valid.nodup hd
  refers d hd e he := (h.valid.refers ⟨d, e.1, e.2.1⟩ (mem_links.mpr ⟨hd, e.2.2, he⟩)).1
  counted n hord hn := by
    rw [← count_eq]
    exact h.valid.counted n hn hord
  freed n hord := by
    rw [← count_eq]
    constructor
    · intro hzero hn
      have hcount := h.valid.counted n hn hord
      exact h.valid.kept n hn hord (hcount.trans hzero)
    · exact fun hn => h.valid.count_eq_zero hn

/-- In every run in which the calls meet their guards the names and the counts go
together. -/
theorem namespace_runs_linked (h : v.Consistent) {calls : List NameCall} (hguard : Guarded step Guard v calls) :
    Exec.Meets (· ≠ .fault) Linked (run step v calls) :=
  (run_meets_of_guarded (fun _ call h hg => h.step_meets call hg) h hguard).mono fun _ h => h.linked

/-- One group of sixteen inodes, of which the first ten are reserved, and an empty root. -/
def sampleNames : Ext2Names where
  blockSize := 1024
  inodesPerGroup := 16
  blockGroups := 1
  firstInode := 11
  freeInodes := 6
  groupFreeInodes _ := 6
  inodeBitmap _ i := if i = 1 then 0x03 else 0xff
  inodes n := if n = rootInode then ⟨0x41ed, 2, 1024⟩ else ⟨0, 0, 0⟩
  directory n :=
    if n = rootInode then
      [Ext2Directory.storeRecord (Ext2Directory.storeRecord (fun _ => 0) 0 12 2 dot rootInode) 12 1012 2 dotdot rootInode]
    else []

theorem sampleNames_links :
    sampleNames.tree.links = {⟨rootInode, dot, rootInode⟩, ⟨rootInode, dotdot, rootInode⟩} := by decide +kernel

theorem sampleNames_used {n : ℕ} (hn : sampleNames.Used n) (hord : n ∈ sampleNames.Ordinary) : n = rootInode := by
  have hall : ∀ n < 17, sampleNames.Used n → n = rootInode ∨ 11 ≤ n → n = rootInode := by decide +kernel
  exact hall n (Nat.lt_succ_of_le hn.1.2) hn hord

theorem sampleNames_dir {d : ℕ} (hd : sampleNames.IsDir d) : d = rootInode := by
  by_contra hne
  have hinode : sampleNames.inodes d = ⟨0, 0, 0⟩ := if_neg hne
  have hdir := hd.2
  rw [hinode] at hdir
  cases hdir

theorem sampleNames_consistent : sampleNames.Consistent where
  size := ⟨by decide, by decide, by decide⟩
  numbered :=
    ⟨by decide, by decide, fun g _ i _ hi => BitArray.get_allOnes _ i (if_neg (by
      have : 16 ≤ i := hi
      omega))⟩
  tiled d hd := by
    cases sampleNames_dir hd
    refine ⟨[[⟨2, 12, 2, dot⟩, ⟨2, 1012, 2, dotdot⟩]], .cons ⟨?_, ⟨by decide, by decide⟩, ?_, ⟨by decide, by decide⟩, rfl⟩ .nil⟩
    · exact ⟨by decide +kernel, by decide +kernel, by decide +kernel, by decide +kernel, by decide +kernel⟩
    · exact ⟨by decide +kernel, by decide +kernel, by decide +kernel, by decide +kernel, by decide +kernel⟩
  field n := by
    change (if n = rootInode then (⟨0x41ed, 2, 1024⟩ : Ext2Inode) else ⟨0, 0, 0⟩).hardLinks < 2 ^ 16
    split_ifs <;> decide
  valid := by
    have hroot : sampleNames.IsDir rootInode := by decide +kernel
    have hmem : ∀ l ∈ sampleNames.tree.links, l.dir = rootInode ∧ l.node = rootInode := by
      rw [sampleNames_links]
      decide
    refine ⟨?_, fun l hl => ?_, fun l hl => ?_, fun d hd => hd.1, fun n hn hord => ?_, fun n hn hord => ?_, fun d hd => ?_,
      fun l hl hdir hdot hdotdot => ?_, hroot, ?_⟩
    · rw [sampleNames_links]
      decide
    · rw [(hmem l hl).1]
      exact hroot
    · rw [(hmem l hl).2]
      exact ⟨hroot.1, Or.inl rfl⟩
    · rw [sampleNames_used hn hord, NameTree.count, sampleNames_links]
      decide
    · rw [sampleNames_used hn hord]
      decide
    · rw [sampleNames_dir hd, sampleNames_links]
      decide
    · rw [sampleNames_links] at hl
      simp only [Multiset.insert_eq_cons, Multiset.mem_cons, Multiset.mem_singleton] at hl
      rcases hl with rfl | rfl
      · exact absurd rfl hdot
      · exact absurd rfl hdotdot
    · rw [sampleNames_links]
      decide

def dirD : SanitizedPath := ⟨[[100]], by decide⟩

def fileF : SanitizedPath := ⟨[[100], [102]], by decide⟩

def fileG : SanitizedPath := ⟨[[100], [103]], by decide⟩

/-- A directory, a file in it that gets a second name and loses its first. -/
def sampleNameCalls : List NameCall :=
  [.ext2Mkdir dirD 0x1ed (some fun _ => 0) none none, .ext2Touch fileF 0x1a4 none, .ext2Link fileF fileG none,
    .ext2Delete fileF false false, .ext2Delete dirD true false, .ext2Delete fileG false false, .ext2Delete dirD true false]

theorem namespace_sample :
    Guarded step Guard sampleNames sampleNameCalls ∧ Exec.Meets (· ≠ .fault) Linked (run step sampleNames sampleNameCalls) := by
  have hguard : Guarded step Guard sampleNames sampleNameCalls := by decide +kernel
  exact ⟨hguard, namespace_runs_linked sampleNames_consistent hguard⟩

/-- Two files, and a link to the first under the name of the second. -/
def takenNameCalls : List NameCall :=
  [.ext2Mkdir dirD 0x1ed (some fun _ => 0) none none, .ext2Touch fileF 0x1a4 none, .ext2Touch fileG 0x1a4 none,
    .ext2Link fileF fileG none]

theorem link_to_taken_name :
    sampleNames.Consistent ∧ ∃ s, run step sampleNames takenNameCalls = .ok s ∧ s.Used 13 ∧
      (s.inodes 13).isRegular = true ∧ (s.inodes 13).hardLinks = 2 ∧ s.entryCount 13 = 1 := by
  refine ⟨sampleNames_consistent, ?_⟩
  decide +kernel

end Ext2Names

end DualFuse.Filesystems
