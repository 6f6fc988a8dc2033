import DualFuse.Filesystems.Ext2.NamespaceTree

/-! Which free inodes the search of ext2 finds. In the first group it begins at the bit whose
place is the number of the first inode that is not reserved, one behind the bit of that inode;
in the others it begins at bit zero, and a place of zero counts as none. An inode that is found
is marked and counted, and its deletion restores the image. -/

namespace DualFuse.Filesystems

open Library

namespace Ext2Names

/-- The zero bits of the inode bitmap of a group. -/
def zeroInodes (v : Ext2Names) (group : ℕ) : Finset ℕ :=
  (Finset.range (8 * v.blockSize)).filter fun i => BitArray.get (v.inodeBitmap group) i = false

/-- The counters count the zero bits and fit their fields, and each inode has a bit. -/
structure InodesConsistent (v : Ext2Names) : Prop extends v.Numbered where
  covered : v.inodesPerGroup ≤ 8 * v.blockSize
  groups : ∀ g < v.blockGroups, v.groupFreeInodes g = (v.zeroInodes g).card
  total : v.freeInodes = ∑ g ∈ Finset.range v.blockGroups, v.groupFreeInodes g
  groupField : ∀ g < v.blockGroups, v.groupFreeInodes g < 2 ^ 16
  superField : v.freeInodes < 2 ^ 32

/-- The bit stands for an inode that is free and not reserved. -/
structure FreeInode (v : Ext2Names) (g i : ℕ) : Prop where
  lt : i < v.inodesPerGroup
  clear : BitArray.get (v.inodeBitmap g) i = false
  ordinary : g = 0 → v.firstInode ≤ i + 1

/-- The first zero bit from the place on where the search in the group begins. -/
def NextInode (v : Ext2Names) (g i : ℕ) : Prop :=
  IsLeast { i | v.firstIndex g ≤ i ∧ i < 8 * v.blockSize ∧ BitArray.get (v.inodeBitmap g) i = false } i

/-- The bit is set, and the counters of the group and of the superblock go down by one. -/
def taken (v : Ext2Names) (g i : ℕ) : Ext2Names :=
  (v.setInodeBit g i true).setFreeInodes g (v.groupFreeInodes g - 1) (v.freeInodes - 1)

/-- The search takes a free inode and returns its number; its deletion restores the image. -/
def AllocatesInode (v : Ext2Names) (hint : ℕ) : Prop :=
  ∃ g < v.blockGroups, ∃ i n, v.FreeInode g i ∧ v.ext2InodeFind hint = .ok (v.taken g i, n) ∧
    v.inodeGroup n = g ∧ v.inodeIndex n = i ∧ (v.taken g i).ext2InodeDelete n = .ok v

section Search
variable {v : Ext2Names} {g hint i : ℕ}

theorem InodesConsistent.firstIndex_le (h : v.InodesConsistent) : v.firstIndex g ≤ 8 * v.blockSize := by
  have hreserved := h.reserved.2
  have hcovered := h.covered
  unfold firstIndex
  split_ifs <;> omega

/-- A zero bit is counted. -/
theorem InodesConsistent.counted (h : v.InodesConsistent) (hg : g < v.blockGroups) (hi : i < 8 * v.blockSize)
    (hclear : BitArray.get (v.inodeBitmap g) i = false) : 1 ≤ v.groupFreeInodes g ∧ 1 ≤ v.freeInodes := by
  have hmem : i ∈ v.zeroInodes g := Finset.mem_filter.mpr ⟨Finset.mem_range.mpr hi, hclear⟩
  have hgroup : 1 ≤ v.groupFreeInodes g := by
    rw [h.groups g hg]
    exact Finset.card_pos.mpr ⟨i, hmem⟩
  have hsum : v.groupFreeInodes g ≤ v.freeInodes := by
    rw [h.total]
    exact Finset.single_le_sum (f := v.groupFreeInodes) (fun _ _ => Nat.zero_le _) (Finset.mem_range.mpr hg)
  exact ⟨hgroup, hgroup.trans hsum⟩

/-- The scan stops at the first zero bit. -/
theorem scan_nextInode (h : v.InodesConsistent) (g : ℕ) :
    match FirstRun.scan (fun i => !BitArray.get (v.inodeBitmap g) i) 1 (8 * v.blockSize - v.firstIndex g)
      (v.firstIndex g) (v.firstIndex g) 0 with
    | none => ∀ i, ¬v.NextInode g i
    | some i => v.NextInode g i := by
  have hset : { i | FirstRun.IsRun (fun i => decide (v.firstIndex g ≤ i) && !BitArray.get (v.inodeBitmap g) i)
      (8 * v.blockSize) 1 i } =
      { i | v.firstIndex g ≤ i ∧ i < 8 * v.blockSize ∧ BitArray.get (v.inodeBitmap g) i = false } := by
    ext i
    simp only [FirstRun.IsRun, Set.mem_ofPred_eq, Nat.lt_one_iff, forall_eq, Nat.add_zero, Bool.and_eq_true,
      decide_eq_true_eq, Bool.not_eq_true']
    constructor
    · rintro ⟨hend, hfirst, hclear⟩
      exact ⟨hfirst, hend, hclear⟩
    · rintro ⟨hfirst, hend, hclear⟩
      exact ⟨hend, hfirst, hclear⟩
  have hfinds := FirstRun.scan_finds_from (N := 8 * v.blockSize) (b := 1) le_rfl (v.firstIndex g) h.firstIndex_le
    fun j hj => show (decide (v.firstIndex g ≤ j) && !BitArray.get (v.inodeBitmap g) j) = false by simp [hj]
  rw [FirstRun.scan_congr fun j hj => show (!BitArray.get (v.inodeBitmap g) j) =
    (decide (v.firstIndex g ≤ j) && !BitArray.get (v.inodeBitmap g) j) by simp [hj]]
  cases hscan : FirstRun.scan (fun i => decide (v.firstIndex g ≤ i) && !BitArray.get (v.inodeBitmap g) i) 1
      (8 * v.blockSize - v.firstIndex g) (v.firstIndex g) (v.firstIndex g) 0 with
  | none =>
    rw [hscan] at hfinds
    intro i hi
    exact hfinds i (hset.ge hi.1)
  | some i =>
    rw [hscan] at hfinds
    change IsLeast _ i
    rw [← hset]
    exact hfinds

/-- The search in one group, by its first zero bit. -/
theorem ext2InodeFindL_eq (h : v.InodesConsistent) (hg : g < v.blockGroups) :
    (∃ i, 0 < i ∧ v.NextInode g i ∧ v.ext2InodeFindL g = (v.taken g i, g * v.inodesPerGroup + i + 1)) ∨
      ((∀ i, v.NextInode g i → i = 0) ∧ (v.ext2InodeFindL g).2 = 0) := by
  have hscan := scan_nextInode h g
  rw [ext2InodeFindL]
  by_cases hnone : v.groupFreeInodes g < 1
  · rw [if_pos hnone]
    refine .inr ⟨fun i hi => ?_, rfl⟩
    have hcounted := (h.counted hg hi.1.2.1 hi.1.2.2).1
    omega
  rw [if_neg hnone]
  cases hresult : FirstRun.scan (fun i => !BitArray.get (v.inodeBitmap g) i) 1 (8 * v.blockSize - v.firstIndex g)
      (v.firstIndex g) (v.firstIndex g) 0 with
  | none =>
    rw [hresult] at hscan
    exact .inr ⟨fun i hi => absurd hi (hscan i), rfl⟩
  | some s =>
    rw [hresult] at hscan
    cases s with
    | zero => exact .inr ⟨fun i hi => hi.unique hscan, rfl⟩
    | succ s =>
      refine .inl ⟨s + 1, Nat.succ_pos s, hscan, ?_⟩
      obtain ⟨-, hlt, hclear⟩ := hscan.1
      have hidx : s + 1 < v.inodesPerGroup := by
        by_contra hge
        rw [h.padding g hg (s + 1) hlt (by omega)] at hclear
        cases hclear
      have hnumber := Nat.lt_of_le_of_lt (numbered_le hg hidx) h.addressed
      have hcounted := h.counted hg hlt hclear
      have hgroup := h.groupField g hg
      have hsuper := h.superField
      rw [taken]
      simp only
      rw [Nat.mod_eq_of_lt hnumber, show (v.groupFreeInodes g + 2 ^ 16 - 1) % 2 ^ 16 = v.groupFreeInodes g - 1 by omega,
        show (v.freeInodes + 2 ^ 32 - 1) % 2 ^ 32 = v.freeInodes - 1 by omega]

theorem ext2InodeFindL_ne_zero_iff (h : v.InodesConsistent) (hg : g < v.blockGroups) :
    (v.ext2InodeFindL g).2 ≠ 0 ↔ ∃ i, 0 < i ∧ v.NextInode g i := by
  rcases ext2InodeFindL_eq h hg with ⟨i, hpos, hnext, heq⟩ | ⟨hzero, heq⟩
  · exact iff_of_true (by rw [heq]; omega) ⟨i, hpos, hnext⟩
  · refine iff_of_false (not_not.mpr heq) ?_
    rintro ⟨i, hpos, hnext⟩
    exact hpos.ne' (hzero i hnext)

/-- The loop over the groups ends in one in which the search succeeds. -/
theorem findInodeInOthers_meets (v : Ext2Names) (hint n j : ℕ) :
    Exec.Meets (· = .halt) (fun r => ∃ g < j + n, r = v.ext2InodeFindL g ∧ r.2 ≠ 0) (v.findInodeInOthers hint n j) := by
  induction n generalizing j with
  | zero => exact rfl
  | succ n ih =>
    have hnext := ih (j + 1)
    rw [show j + 1 + n = j + (n + 1) by omega] at hnext
    rw [findInodeInOthers]
    split_ifs with hj hfound
    · exact hnext
    · exact ⟨j, by omega, rfl, hfound⟩
    · exact hnext

/-- The loop does not pass by such a group. -/
theorem findInodeInOthers_ok {n j : ℕ} (hj : j ≤ g) (hn : g < j + n) (hne : g ≠ hint)
    (hfound : (v.ext2InodeFindL g).2 ≠ 0) : ∃ r, v.findInodeInOthers hint n j = .ok r := by
  induction n generalizing j with
  | zero => omega
  | succ n ih =>
    rw [findInodeInOthers]
    split_ifs with hhint hhere
    · exact ih (by omega) (by omega)
    · exact ⟨_, rfl⟩
    · rcases hj.eq_or_lt with rfl | hlt
      · exact absurd hfound hhere
      · exact ih hlt (by omega)

theorem ext2InodeFind_ok (h : v.InodesConsistent) (hhint : hint < v.blockGroups) (hg : g < v.blockGroups)
    (hnext : v.NextInode g i) (hpos : 0 < i) : ∃ r, v.ext2InodeFind hint = .ok r := by
  have hfound := (ext2InodeFindL_ne_zero_iff h hg).mpr ⟨i, hpos, hnext⟩
  have hcounted := (h.counted hg hnext.1.2.1 hnext.1.2.2).2
  rw [ext2InodeFind, if_neg (by omega), if_neg (by omega)]
  by_cases hsuggested : (v.ext2InodeFindL hint).2 ≠ 0
  · rw [if_pos hsuggested]
    exact ⟨_, rfl⟩
  · rw [if_neg hsuggested]
    refine findInodeInOthers_ok (Nat.zero_le g) (by omega) ?_ hfound
    rintro rfl
    exact hsuggested hfound

/-- What is returned is the first zero bit of some group. -/
theorem ext2InodeFind_next (h : v.InodesConsistent) (hhint : hint < v.blockGroups) {r : Ext2Names × ℕ}
    (hr : v.ext2InodeFind hint = .ok r) :
    ∃ g < v.blockGroups, ∃ i, 0 < i ∧ v.NextInode g i ∧ r = (v.taken g i, g * v.inodesPerGroup + i + 1) := by
  have hgroup : ∃ g < v.blockGroups, r = v.ext2InodeFindL g ∧ r.2 ≠ 0 := by
    rw [ext2InodeFind] at hr
    split_ifs at hr with hfull hrange hfound
    · exact ⟨hint, hhint, (Except.ok.inj hr).symm, (Except.ok.inj hr) ▸ hfound⟩
    · obtain ⟨g, hg, heq, hne⟩ := (Exec.meets_iff.mp (findInodeInOthers_meets v hint v.blockGroups 0)).1 r hr
      exact ⟨g, by omega, heq, hne⟩
  obtain ⟨g, hg, rfl, hne⟩ := hgroup
  rcases ext2InodeFindL_eq h hg with ⟨i, hpos, hnext, heq⟩ | ⟨-, heq⟩
  · exact ⟨g, hg, i, hpos, hnext, heq⟩
  · exact absurd heq hne

/-- The bit is cleared again and the counters go up. -/
theorem delete_taken (h : v.InodesConsistent) (hg : g < v.blockGroups) (hi : i < v.inodesPerGroup)
    (hclear : BitArray.get (v.inodeBitmap g) i = false) :
    (v.taken g i).ext2InodeDelete (g * v.inodesPerGroup + i + 1) = .ok v := by
  obtain ⟨hgroup, hindex⟩ := (used_iff_of_numbered (v := v) (n := g * v.inodesPerGroup + i + 1) (by omega) hi).mpr rfl
  have hcovered := h.covered
  have hcounted := h.counted hg (by omega) hclear
  have hfield := h.groupField g hg
  have hsuper := h.superField
  have hgroup' : (v.taken g i).inodeGroup (g * v.inodesPerGroup + i + 1) = g := hgroup
  have hindex' : (v.taken g i).inodeIndex (g * v.inodesPerGroup + i + 1) = i := hindex
  have hbitmap : (v.taken g i).inodeBitmap g = BitArray.set (v.inodeBitmap g) i true := Function.update_self _ _ _
  have hcount : (v.taken g i).groupFreeInodes g = v.groupFreeInodes g - 1 := Function.update_self _ _ _
  have hfree : (v.taken g i).freeInodes = v.freeInodes - 1 := rfl
  rw [ext2InodeDelete, hgroup', hindex', hbitmap, BitArray.get_set, if_pos rfl, if_pos rfl, hcount, hfree,
    show (v.groupFreeInodes g - 1 + 1) % 2 ^ 16 = v.groupFreeInodes g by omega,
    show (v.freeInodes - 1 + 1) % 2 ^ 32 = v.freeInodes by omega]
  have hbits : Function.update (v.taken g i).inodeBitmap g
      (BitArray.set ((v.taken g i).inodeBitmap g) i false) = v.inodeBitmap := by
    rw [hbitmap, BitArray.set_set_of_get hclear true]
    exact (Function.update_idem _ _ _).trans (Function.update_eq_self g v.inodeBitmap)
  have hcounts : Function.update (v.taken g i).groupFreeInodes g (v.groupFreeInodes g) = v.groupFreeInodes :=
    (Function.update_idem _ _ _).trans (Function.update_eq_self g v.groupFreeInodes)
  refine congrArg Except.ok ?_
  change { v with
    inodeBitmap := Function.update (v.taken g i).inodeBitmap g (BitArray.set ((v.taken g i).inodeBitmap g) i false)
    groupFreeInodes := Function.update (v.taken g i).groupFreeInodes g (v.groupFreeInodes g)
    freeInodes := v.freeInodes } = v
  rw [hbits, hcounts]

/-- Where there is a free inode, one is allocated exactly when the first zero bit of some group,
from the place on where its search begins, is not bit zero. -/
theorem allocatesInode_iff (h : v.InodesConsistent) (hhint : hint < v.blockGroups) :
    ((∃ g < v.blockGroups, ∃ i, v.FreeInode g i) → v.AllocatesInode hint) ↔
      ((∃ g < v.blockGroups, ∃ i, v.FreeInode g i) → ∃ g < v.blockGroups, ∃ i, 0 < i ∧ v.NextInode g i) := by
  refine imp_congr_right fun _ => ?_
  constructor
  · rintro ⟨g, hg, i, n, -, hfind, -⟩
    obtain ⟨g', hg', i', hpos, hnext, -⟩ := ext2InodeFind_next h hhint hfind
    exact ⟨g', hg', i', hpos, hnext⟩
  · rintro ⟨g, hg, i, hpos, hnext⟩
    obtain ⟨r, hr⟩ := ext2InodeFind_ok h hhint hg hnext hpos
    obtain ⟨g', hg', i', -, hnext', rfl⟩ := ext2InodeFind_next h hhint hr
    obtain ⟨hfirst, hlt, hclear⟩ := hnext'.1
    have hi : i' < v.inodesPerGroup := by
      by_contra hge
      rw [h.padding g' hg' i' hlt (by omega)] at hclear
      cases hclear
    obtain ⟨hgroup, hindex⟩ :=
      (used_iff_of_numbered (v := v) (n := g' * v.inodesPerGroup + i' + 1) (by omega) hi).mpr rfl
    refine ⟨g', hg', i', _, ⟨hi, hclear, fun hzero => ?_⟩, hr, hgroup, hindex, delete_taken h hg' hi hclear⟩
    rw [firstIndex, if_pos hzero] at hfirst
    omega

end Search

/-! ### One free inode -/

/-- One group of 64 inodes, of which the one at bit `k` is free. -/
def oneFree (k : ℕ) : Ext2Names where
  blockSize := 1024
  inodesPerGroup := 64
  blockGroups := 1
  firstInode := 11
  freeInodes := 1
  groupFreeInodes := fun _ => 1
  inodeBitmap := fun _ => BitArray.set (fun _ => 0xff) k false
  inodes := fun _ => ⟨0x8000, 1, 0⟩
  directory := fun _ => []

theorem oneFree_get (k i : ℕ) : BitArray.get ((oneFree k).inodeBitmap 0) i = decide (i ≠ k) := by
  change BitArray.get (BitArray.set _ k false) i = _
  rw [BitArray.get_set]
  split_ifs with hi
  · simp [hi]
  · rw [BitArray.get_allOnes _ i rfl]
    simp [hi]

theorem oneFree_consistent {k : ℕ} (hk : k < 64) : (oneFree k).InodesConsistent where
  reserved := show 2 < 11 ∧ 11 ≤ 64 by decide
  addressed := show 1 * 64 < 2 ^ 32 by decide
  padding := by
    intro g hg i _ hpad
    obtain rfl : g = 0 := Nat.lt_one_iff.mp hg
    have hi : 64 ≤ i := hpad
    rw [oneFree_get, decide_eq_true_eq]
    omega
  covered := show 64 ≤ 8 * 1024 by decide
  groups := by
    intro g hg
    obtain rfl : g = 0 := Nat.lt_one_iff.mp hg
    have hzero : (oneFree k).zeroInodes 0 = {k} := by
      ext i
      rw [zeroInodes, Finset.mem_filter, Finset.mem_range, Finset.mem_singleton, oneFree_get]
      change i < 8 * 1024 ∧ _ ↔ _
      simp only [ne_eq, decide_not, Bool.not_eq_eq_eq_not, Bool.not_false, decide_eq_true_eq]
      omega
    rw [hzero]
    rfl
  total := rfl
  groupField := fun _ _ => show 1 < 2 ^ 16 by decide
  superField := show 1 < 2 ^ 32 by decide

/-- Inode 13 is allocated. -/
theorem allocatesInode_sample : (oneFree 12).AllocatesInode 0 := by
  have hnext : (oneFree 12).NextInode 0 12 := by
    refine ⟨⟨by decide, by decide, by rw [oneFree_get]; decide⟩, fun i hi => ?_⟩
    have hclear := hi.2.2
    rw [oneFree_get] at hclear
    have : i = 12 := by simpa using hclear
    exact this.ge
  exact (allocatesInode_iff (oneFree_consistent (by decide)) (by decide)).mpr
    (fun _ => ⟨0, by decide, 12, by decide, hnext⟩) ⟨0, by decide, 12, by decide, by rw [oneFree_get]; decide, by decide⟩

/-- Inode 11, the first that is not reserved, is free, and the search halts. -/
theorem first_inode_not_found :
    (oneFree 10).InodesConsistent ∧ (oneFree 10).FreeInode 0 10 ∧ ¬(oneFree 10).AllocatesInode 0 ∧
      (oneFree 10).ext2InodeFind 0 = .error .halt := by
  have hhalt : (oneFree 10).ext2InodeFind 0 = .error .halt := by
    have hzero : ((oneFree 10).ext2InodeFindL 0).2 = 0 := by decide +kernel
    rw [ext2InodeFind, if_neg (by decide), if_neg (by decide), if_neg (not_not.mpr hzero)]
    rfl
  refine ⟨oneFree_consistent (by decide), ⟨by decide, by rw [oneFree_get]; decide, by decide⟩, ?_, hhalt⟩
  rintro ⟨g, hg, i, n, -, hfind, -⟩
  rw [hhalt] at hfind
  cases hfind

end Ext2Names

end DualFuse.Filesystems
