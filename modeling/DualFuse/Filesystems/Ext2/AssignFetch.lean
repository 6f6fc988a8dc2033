import DualFuse.Filesystems.Ext2.BlockMap

/-! One assignment in the map of blocks, as later lookups see it (`ext2BlockAssign` against
`ext2BlockFetch` of `filesystems/ext2/ext2_util.c`), for any inode and any indirect blocks
that were read before. The indirect block of the first level is written, and a new one is
taken as the allocator gives it: where this block is also one on the way to the second
level, or the other one that was read, lookups change that have nothing to do with it. -/

namespace DualFuse.Filesystems

open Library Utility

namespace Ext2

section Ranges
variable {e e' : Ext2} {ino ino' : FileInode} {curr place root : ℕ} {b : Block}

theorem fetched_direct (h : curr < 12) : e.fetched ino curr = .ok (ino.blocks curr) := by
  unfold fetched fileBlock
  dsimp only
  rw [if_pos (by omega), if_pos h]

theorem fetched_singly (h : place < e.itemsPerBlock) :
    e.fetched ino (12 + place) = .ok (e.pointed 1 (ino.blocks 12) place) := by
  unfold fetched fileBlock
  dsimp only
  rw [if_pos (by omega), if_neg (by omega), if_pos (by omega), Nat.add_sub_cancel_left]

theorem fetched_doubly (e : Ext2) (ino : FileInode) (h : place < e.itemsPerBlock ^ 2) :
    e.fetched ino (12 + e.itemsPerBlock + place) = .ok (e.pointed 2 (ino.blocks 13) place) := by
  unfold fetched fileBlock
  dsimp only
  rw [if_pos (by omega), if_neg (by omega), if_neg (by omega), if_pos (by omega), Nat.add_sub_cancel_left]

/-- Behind the first level, lookups depend on the indirect blocks of the second. -/
theorem fetched_congr_doubly (hsize : e'.blockSize = e.blockSize) (hroot : ino'.blocks 13 = ino.blocks 13)
    (h : ∀ b ∈ e.leads 2 (ino.blocks 13), e'.disk b = e.disk b) (hcurr : 12 + e.itemsPerBlock ≤ curr) :
    e'.fetched ino' curr = e.fetched ino curr := by
  have hitems := itemsPerBlock_congr hsize
  obtain ⟨place, rfl⟩ := Nat.exists_eq_add_of_le hcurr
  by_cases hplace : place < e.itemsPerBlock ^ 2
  · rw [fetched_doubly e ino hplace, ← hitems, fetched_doubly e' ino' (by rw [hitems]; exact hplace), hroot,
      pointed_congr hsize hplace h]
  · unfold fetched
    dsimp only
    have hout : ¬12 + e.itemsPerBlock + place < 12 + e.itemsPerBlock + e.itemsPerBlock ^ 2 := by omega
    rw [hitems, hsize, hroot, if_neg hout, if_neg hout]

/-- The first entry of each block of items. -/
theorem pointed_two (hroot : root ≠ 0) (hpos : 0 < e.itemsPerBlock) (i : ℕ) :
    e.pointed 2 root (i * e.itemsPerBlock) =
      if item (e.disk root) i = 0 then 0 else item (e.disk (item (e.disk root) i)) 0 := by
  rw [pointed, if_neg hroot, pow_one, Nat.mul_div_cancel _ hpos, Nat.mul_mod_left]
  split_ifs with hitem
  · rw [hitem, pointed_zero]
  · exact pointed_one e hitem 0

/-- An indirect block that also leads to the second level cannot be written without changing some
lookup there, whatever the lookups gave before. -/
theorem exists_changed (hpos : 0 < e.itemsPerBlock) (hroot : root ∈ e.leads 2 (ino.blocks 13)) (hword : root < 2 ^ 32)
    (before : ℕ → Exec ℕ) : ∃ v < 2 ^ 32, ∃ curr, 12 + e.itemsPerBlock ≤ curr ∧
      ∀ b, item b 0 = v → (e.setBlock root b).fetched ino curr ≠ before curr := by
  obtain ⟨hne, hway⟩ := hroot
  by_cases heq : root = ino.blocks 13
  · -- the block that leads to all of the second level
    have hzero : 0 < e.itemsPerBlock ^ 2 := Nat.pow_pos hpos
    have hafter : ∀ b, (e.setBlock root b).fetched ino (12 + e.itemsPerBlock) =
        .ok (if item b 0 = 0 then 0 else item ((e.setBlock root b).disk (item b 0)) 0) := by
      intro b
      have hfetched := fetched_doubly (e.setBlock root b) ino hzero
      have hfirst := pointed_two (e := e.setBlock root b) hne hpos 0
      rw [Nat.zero_mul, ← heq, disk_setBlock] at hfirst
      rw [← heq, hfirst] at hfetched
      exact hfetched
    by_cases hbefore : before (12 + e.itemsPerBlock) = .ok 0
    · refine ⟨root, hword, 12 + e.itemsPerBlock, le_rfl, fun b hb => ?_⟩
      have hne' : root ≠ 0 := heq ▸ hne
      rw [hafter, hb, if_neg hne', disk_setBlock, hb, hbefore]
      exact fun h => hne' (Except.ok.inj h)
    · refine ⟨0, by norm_num, 12 + e.itemsPerBlock, le_rfl, fun b hb => ?_⟩
      rw [hafter, hb, if_pos rfl]
      exact Ne.symm hbefore
  · -- a block of items of the second level
    obtain ⟨i, hi, hitem⟩ := hway.resolve_left heq
    rw [leads_one] at hitem
    obtain ⟨hitem, rfl⟩ := hitem
    have hplace : i * e.itemsPerBlock < e.itemsPerBlock ^ 2 := by
      rw [pow_two]
      exact Nat.mul_lt_mul_of_pos_right hi hpos
    have hafter : ∀ b, (e.setBlock (item (e.disk (ino.blocks 13)) i) b).fetched ino
        (12 + e.itemsPerBlock + i * e.itemsPerBlock) = .ok (item b 0) := by
      intro b
      have hsame := sameBut_setBlock e (item (e.disk (ino.blocks 13)) i) b
      have hfetched := fetched_doubly (e.setBlock (item (e.disk (ino.blocks 13)) i) b) ino hplace
      have hfirst := pointed_two (e := e.setBlock (item (e.disk (ino.blocks 13)) i) b) hne hpos i
      rw [hsame.disk _ (Ne.symm heq), if_neg hitem, disk_setBlock] at hfirst
      rw [← hfirst]
      exact hfetched
    by_cases hbefore : before (12 + e.itemsPerBlock + i * e.itemsPerBlock) = .ok 0
    · refine ⟨1, by norm_num, 12 + e.itemsPerBlock + i * e.itemsPerBlock, Nat.le_add_right _ _, fun b hb => ?_⟩
      rw [hafter, hb, hbefore]
      exact fun h => one_ne_zero (Except.ok.inj h)
    · refine ⟨0, by norm_num, 12 + e.itemsPerBlock + i * e.itemsPerBlock, Nat.le_add_right _ _, fun b hb => ?_⟩
      rw [hafter, hb]
      exact Ne.symm hbefore

end Ranges

/-- Entries of a block that differ in one place. -/
theorem exists_setItem_ne (b c : Block) : ∃ v < 2 ^ 32, setItem b 0 v ≠ c := by
  by_cases hzero : item c 0 = 0
  · refine ⟨1, by norm_num, fun heq => ?_⟩
    have hitem := item_setItem (b := b) (i := 0) (v := 1) (by norm_num) 0
    rw [heq, if_pos rfl, hzero] at hitem
    cases hitem
  · refine ⟨0, by norm_num, fun heq => hzero ?_⟩
    have hitem := item_setItem (b := b) (i := 0) (v := 0) (by norm_num) 0
    rw [heq, if_pos rfl] at hitem
    exact hitem

theorem ext2BlockFind_lt {e : Ext2} {hint amnt : ℕ} {r : Ext2 × ℕ} (hr : e.ext2BlockFind hint amnt = .ok r) :
    r.2 < 2 ^ 32 := by
  obtain ⟨g, -, rfl, hne, -⟩ := (Exec.meets_iff.mp (ext2BlockFind_meets (lt_of_ext2BlockFind hr))).1 r hr
  unfold ext2BlockFindL at hne ⊢
  by_cases henough : (e.bgdts g).freeBlocks < amnt
  · rw [if_pos henough] at hne
    exact absurd rfl hne
  rw [if_neg henough] at hne ⊢
  split
  · norm_num
  · norm_num
  · exact Nat.mod_lt _ (by norm_num)

end Ext2

namespace Ext2File

/-- What a lookup returns. -/
def fetch (f : Ext2File) (curr : ℕ) : Exec ℕ := Prod.fst <$> f.ext2.ext2BlockFetch f.inode f.lookup curr

/-- What an assignment should come to. -/
structure AssignMeets (f f' : Ext2File) (curr v : ℕ) : Prop where
  assigned : f'.fetch curr = .ok v
  others : ∀ other, other ≠ curr → f'.fetch other = f.fetch other
  coherent : f'.ext2.Fresh f'.lookup
  stored : f'.stored = f'.inode

/-- Every assignment in the direct and singly indirect range that returns is one as it should be. -/
def Assigns (f : Ext2File) : Prop :=
  ∀ curr < 12 + f.ext2.itemsPerBlock, ∀ v < 2 ^ 32, ∀ f', f.ext2BlockAssign curr v = .ok f' → AssignMeets f f' curr v

/-- The indirect block of the first level, or the one that the allocator gives, serves no other
purpose; the bitmap that is written for it is no block of the map. -/
structure AssignSafe (f : Ext2File) : Prop where
  held : f.inode.blocks 12 ≠ 0 → f.stored = f.inode ∧
    f.inode.blocks 12 ∉ f.ext2.leads 2 (f.inode.blocks 13) ∧ f.lookup.tmp2Block ≠ f.inode.blocks 12
  new : f.inode.blocks 12 = 0 → ∀ e block, f.ext2.ext2BlockFind f.group 1 = .ok (e, block) →
    block ∉ e.leads 2 (f.inode.blocks 13) ∧ f.lookup.tmp2Block ≠ block ∧
      (f.lookup.tmp2Block ≠ 0 → e.disk f.lookup.tmp2Block = f.ext2.disk f.lookup.tmp2Block) ∧
      ∀ other, e.fetched f.inode other = f.ext2.fetched f.inode other

section Assign
variable {f f' : Ext2File} {curr v place : ℕ} {e : Ext2} {root : ℕ} {b : Block}

theorem fetch_eq_fetched (h : f.ext2.Fresh f.lookup) (curr : ℕ) : f.fetch curr = f.ext2.fetched f.inode curr := by
  obtain ⟨control, -, hfetch⟩ := h.fetch f.inode curr
  rw [fetch, hfetch]
  cases f.ext2.fetched f.inode curr with
  | error stop => rfl
  | ok block => rfl

/-- With coherent blocks an assignment is judged by the map. -/
theorem assignMeets_iff (h : f.ext2.Fresh f.lookup) : AssignMeets f f' curr v ↔
    f'.ext2.Fresh f'.lookup ∧ f'.stored = f'.inode ∧ f'.ext2.fetched f'.inode curr = .ok v ∧
      ∀ other, other ≠ curr → f'.ext2.fetched f'.inode other = f.ext2.fetched f.inode other := by
  constructor
  · rintro ⟨hassigned, hothers, hcoherent, hstored⟩
    refine ⟨hcoherent, hstored, ?_, fun other hne => ?_⟩
    · rw [← fetch_eq_fetched hcoherent]
      exact hassigned
    · rw [← fetch_eq_fetched hcoherent, ← fetch_eq_fetched h]
      exact hothers other hne
  · rintro ⟨hcoherent, hstored, hassigned, hothers⟩
    refine ⟨?_, fun other hne => ?_, hcoherent, hstored⟩
    · rw [fetch_eq_fetched hcoherent]
      exact hassigned
    · rw [fetch_eq_fetched hcoherent, fetch_eq_fetched h]
      exact hothers other hne

/-- One of the blocks that the inode names is set. -/
theorem assignMeets_direct (h : f.ext2.Fresh f.lookup) (hcurr : curr < 12) :
    AssignMeets f (f.setPointer curr v) curr v := by
  have hext2 : (f.setPointer curr v).ext2 = f.ext2 := rfl
  refine (assignMeets_iff h).mpr ⟨h, rfl, ?_, fun other hne => ?_⟩
  · rw [Ext2.fetched_direct hcurr, blocks_setPointer, if_pos rfl]
  · rcases Nat.lt_or_ge other 12 with hlt | hge
    · rw [Ext2.fetched_direct hlt, Ext2.fetched_direct hlt, blocks_setPointer, if_neg hne]
    · rw [hext2]
      rcases Nat.lt_or_ge other (12 + f.ext2.itemsPerBlock) with hsingly | hdoubly
      · obtain ⟨place, rfl⟩ := Nat.exists_eq_add_of_le hge
        rw [Ext2.fetched_singly (by omega), Ext2.fetched_singly (by omega), blocks_setPointer, if_neg (by omega)]
      · refine Ext2.fetched_congr_doubly rfl ?_ (fun _ _ => rfl) hdoubly
        rw [blocks_setPointer, if_neg (by omega)]

/-- What an assignment stores in the indirect block. -/
def assignedBlock (f : Ext2File) (noninit : Bool) (place v : ℕ) : Block :=
  Ext2.setItem (if noninit then fun _ => 0 else (f.ext2.loadTmp1 f.lookup (f.inode.blocks 12)).tmp1) place v

theorem ext2_assignItem (f : Ext2File) (noninit : Bool) (place v : ℕ) : (f.assignItem noninit place v).ext2 =
    f.ext2.setBlock (f.inode.blocks 12) (f.assignedBlock noninit place v) := rfl

theorem inode_assignItem (f : Ext2File) (noninit : Bool) (place v : ℕ) :
    (f.assignItem noninit place v).inode = f.inode := rfl

/-- The block that was read of the first level is the one that was written; the other one has to
be what is on disk. -/
theorem fresh_assignItem (noninit : Bool) : (f.assignItem noninit place v).ext2.Fresh (f.assignItem noninit place v).lookup ↔
    (f.lookup.tmp2Block ≠ 0 →
      f.lookup.tmp2 = (f.assignItem noninit place v).ext2.disk f.lookup.tmp2Block) := by
  have hblock : (f.ext2.loadTmp1 f.lookup (f.inode.blocks 12)).tmp1Block = f.inode.blocks 12 := by
    unfold Ext2.loadTmp1
    split_ifs with heq
    · rfl
    · exact not_not.mp heq
  have htmp2 : (f.ext2.loadTmp1 f.lookup (f.inode.blocks 12)).tmp2Block = f.lookup.tmp2Block ∧
      (f.ext2.loadTmp1 f.lookup (f.inode.blocks 12)).tmp2 = f.lookup.tmp2 := by
    unfold Ext2.loadTmp1
    split_ifs <;> exact ⟨rfl, rfl⟩
  constructor
  · intro h hne
    have hread := h.tmp2
    change (f.ext2.loadTmp1 f.lookup (f.inode.blocks 12)).tmp2Block ≠ 0 →
      (f.ext2.loadTmp1 f.lookup (f.inode.blocks 12)).tmp2 = _ at hread
    rw [htmp2.1, htmp2.2] at hread
    exact (hread hne).trans (congrArg _ htmp2.1)
  · intro h
    refine ⟨fun _ => ?_, fun hne => ?_⟩
    · change f.assignedBlock noninit place v = (f.assignItem noninit place v).ext2.disk
        (f.ext2.loadTmp1 f.lookup (f.inode.blocks 12)).tmp1Block
      rw [hblock, ext2_assignItem, Ext2.disk_setBlock]
    · change (f.ext2.loadTmp1 f.lookup (f.inode.blocks 12)).tmp2Block ≠ 0 at hne
      change (f.ext2.loadTmp1 f.lookup (f.inode.blocks 12)).tmp2 = (f.assignItem noninit place v).ext2.disk
        (f.ext2.loadTmp1 f.lookup (f.inode.blocks 12)).tmp2Block
      rw [htmp2.1] at hne ⊢
      rw [htmp2.2]
      exact h hne

/-- Lookups after an entry was stored. -/
theorem fetched_assignItem (hroot : f.inode.blocks 12 ≠ 0) (noninit : Bool)
    (hv : v < 2 ^ 32) (other : ℕ) (hother : other < f.ext2.itemsPerBlock) :
    (f.assignItem noninit place v).ext2.fetched (f.assignItem noninit place v).inode (12 + other) =
      .ok (if other = place then v else if noninit then 0
        else Ext2.item (f.ext2.loadTmp1 f.lookup (f.inode.blocks 12)).tmp1 other) := by
  have hitems : other < (f.ext2.setBlock (f.inode.blocks 12) (f.assignedBlock noninit place v)).itemsPerBlock := hother
  rw [ext2_assignItem, inode_assignItem, Ext2.fetched_singly hitems, Ext2.pointed_one _ hroot, Ext2.disk_setBlock,
    assignedBlock, Ext2.item_setItem hv]
  cases noninit with
  | true => rw [if_pos rfl, if_pos rfl, Ext2.item_zero]
  | false => rfl

theorem fetched_assignItem_direct (noninit : Bool) {other : ℕ} (hother : other < 12) :
    (f.assignItem noninit place v).ext2.fetched (f.assignItem noninit place v).inode other = .ok (f.inode.blocks other) := by
  rw [inode_assignItem, Ext2.fetched_direct hother]

theorem fetched_assignItem_doubly (noninit : Bool)
    (hroot : f.inode.blocks 12 ∉ f.ext2.leads 2 (f.inode.blocks 13)) {other : ℕ}
    (hother : 12 + f.ext2.itemsPerBlock ≤ other) :
    (f.assignItem noninit place v).ext2.fetched (f.assignItem noninit place v).inode other =
      f.ext2.fetched f.inode other := by
  rw [ext2_assignItem, inode_assignItem]
  have hsame := Ext2.sameBut_setBlock f.ext2 (f.inode.blocks 12) (f.assignedBlock noninit place v)
  refine Ext2.fetched_congr_doubly hsame.blockSize rfl (fun b hb => hsame.disk b ?_) hother
  rintro rfl
  exact hroot hb

/-- An entry is stored in the indirect block that is there. -/
theorem assignMeets_held (h : f.ext2.Fresh f.lookup) (hroot : f.inode.blocks 12 ≠ 0) (hstored : f.stored = f.inode)
    (hleads : f.inode.blocks 12 ∉ f.ext2.leads 2 (f.inode.blocks 13)) (htmp2 : f.lookup.tmp2Block ≠ f.inode.blocks 12)
    (hplace : place < f.ext2.itemsPerBlock) (hv : v < 2 ^ 32) :
    AssignMeets f (f.assignItem false place v) (12 + place) v := by
  obtain ⟨-, htmp⟩ := h.loadTmp1 hroot
  refine (assignMeets_iff h).mpr ⟨(fresh_assignItem false).mpr fun hne => ?_, hstored, ?_, fun other hne => ?_⟩
  · rw [ext2_assignItem, (Ext2.sameBut_setBlock _ _ _).disk _ htmp2]
    exact h.tmp2 hne
  · rw [fetched_assignItem hroot false hv place hplace, if_pos rfl]
  · rcases Nat.lt_or_ge other 12 with hlt | hge
    · rw [fetched_assignItem_direct false hlt, Ext2.fetched_direct hlt]
    rcases Nat.lt_or_ge other (12 + f.ext2.itemsPerBlock) with hsingly | hdoubly
    · obtain ⟨place', rfl⟩ := Nat.exists_eq_add_of_le hge
      have hplace' : place' < f.ext2.itemsPerBlock := by omega
      rw [fetched_assignItem hroot false hv place' hplace', if_neg (by omega), if_neg Bool.false_ne_true, htmp,
        Ext2.fetched_singly hplace', Ext2.pointed_one _ hroot]
    · exact fetched_assignItem_doubly false hleads hdoubly

/-- The file with a new indirect block of the first level, before an entry is stored in it. -/
def withRoot (f : Ext2File) (e : Ext2) (block : ℕ) : Ext2File := { f with ext2 := e }.setPointer 12 block

theorem blocks_withRoot (f : Ext2File) (e : Ext2) (block i : ℕ) :
    (f.withRoot e block).inode.blocks i = if i = 12 then block else f.inode.blocks i :=
  blocks_setPointer _ _ _ _

theorem root_withRoot (f : Ext2File) (e : Ext2) (block : ℕ) : (f.withRoot e block).inode.blocks 12 = block := by
  rw [blocks_withRoot, if_pos rfl]

/-- Behind the first level, the new indirect block is not seen in the map. -/
theorem fetched_withRoot (f : Ext2File) (e : Ext2) (block : ℕ) {other : ℕ} (hother : 12 + e.itemsPerBlock ≤ other) :
    (f.withRoot e block).ext2.fetched (f.withRoot e block).inode other = e.fetched f.inode other := by
  refine Ext2.fetched_congr_doubly rfl ?_ (fun _ _ => rfl) hother
  rw [blocks_withRoot, if_neg (by omega)]

/-- An entry is stored in a new indirect block. -/
theorem assignMeets_new (h : f.ext2.Fresh f.lookup) (hnone : f.inode.blocks 12 = 0) (hsize : e.blockSize = f.ext2.blockSize)
    (hblock : root ≠ 0) (hleads : root ∉ e.leads 2 (f.inode.blocks 13)) (htmp2 : f.lookup.tmp2Block ≠ root)
    (hread : f.lookup.tmp2Block ≠ 0 → e.disk f.lookup.tmp2Block = f.ext2.disk f.lookup.tmp2Block)
    (hmap : ∀ other, e.fetched f.inode other = f.ext2.fetched f.inode other)
    (hplace : place < f.ext2.itemsPerBlock) (hv : v < 2 ^ 32) :
    AssignMeets f ((f.withRoot e root).assignItem true place v) (12 + place) v := by
  have hroot := root_withRoot f e root
  have hne : (f.withRoot e root).inode.blocks 12 ≠ 0 := hroot.symm ▸ hblock
  have hitems : (f.withRoot e root).ext2.itemsPerBlock = f.ext2.itemsPerBlock := Ext2.itemsPerBlock_congr hsize
  have hleads' : (f.withRoot e root).inode.blocks 12 ∉
      (f.withRoot e root).ext2.leads 2 ((f.withRoot e root).inode.blocks 13) := by
    rw [hroot, blocks_withRoot, if_neg (by omega)]
    exact hleads
  refine (assignMeets_iff h).mpr ⟨(fresh_assignItem true).mpr fun hread' => ?_, rfl, ?_, fun other hother => ?_⟩
  · have hdisk := (Ext2.sameBut_setBlock e root ((f.withRoot e root).assignedBlock true place v)).disk _ htmp2
    rw [ext2_assignItem, hroot]
    exact (h.tmp2 hread').trans ((hread hread').symm.trans hdisk.symm)
  · rw [fetched_assignItem hne true hv place (hitems.symm ▸ hplace), if_pos rfl]
  · rcases Nat.lt_or_ge other 12 with hlt | hge
    · rw [fetched_assignItem_direct true hlt, Ext2.fetched_direct hlt, blocks_withRoot, if_neg (by omega)]
    rcases Nat.lt_or_ge other (12 + f.ext2.itemsPerBlock) with hsingly | hdoubly
    · obtain ⟨place', rfl⟩ := Nat.exists_eq_add_of_le hge
      have hplace' : place' < f.ext2.itemsPerBlock := by omega
      rw [fetched_assignItem hne true hv place' (hitems.symm ▸ hplace'), if_neg (by omega), if_pos rfl,
        Ext2.fetched_singly hplace', hnone, Ext2.pointed_zero]
    · rw [← hitems] at hdoubly
      exact (fetched_assignItem_doubly true hleads' hdoubly).trans ((fetched_withRoot f e root hdoubly).trans (hmap other))

theorem ext2BlockAssign_singly (hplace : place < f.ext2.itemsPerBlock) : f.ext2BlockAssign (12 + place) v =
    (f.singlyIndirect >>= fun r => .ok (r.1.assignItem r.2 place v)) := by
  unfold ext2BlockAssign
  rw [if_neg (by omega), if_pos (by omega), Nat.add_sub_cancel_left]

theorem ext2BlockAssign_held (hroot : f.inode.blocks 12 ≠ 0) (hplace : place < f.ext2.itemsPerBlock) :
    f.ext2BlockAssign (12 + place) v = .ok (f.assignItem false place v) := by
  rw [ext2BlockAssign_singly hplace, singlyIndirect, if_neg hroot, Exec.ok_bind]

theorem ext2BlockAssign_new (hnone : f.inode.blocks 12 = 0) (hfind : f.ext2.ext2BlockFind f.group 1 = .ok (e, root))
    (hplace : place < f.ext2.itemsPerBlock) :
    f.ext2BlockAssign (12 + place) v = .ok ((f.withRoot e root).assignItem true place v) := by
  rw [ext2BlockAssign_singly hplace, singlyIndirect, if_pos hnone, hfind, Exec.ok_bind, Exec.ok_bind]
  rfl

theorem AssignSafe.assigns (hsafe : f.AssignSafe) (h : f.ext2.Fresh f.lookup) : f.Assigns := by
  intro curr hcurr v hv f' hok
  rcases Nat.lt_or_ge curr 12 with hlt | hge
  · unfold ext2BlockAssign at hok
    rw [if_pos hlt] at hok
    cases hok
    exact assignMeets_direct h hlt
  obtain ⟨place, rfl⟩ := Nat.exists_eq_add_of_le hge
  have hplace : place < f.ext2.itemsPerBlock := by omega
  by_cases hnone : f.inode.blocks 12 = 0
  · cases hfind : f.ext2.ext2BlockFind f.group 1 with
    | error stop =>
      rw [ext2BlockAssign_singly hplace, singlyIndirect, if_pos hnone, hfind] at hok
      cases hok
    | ok r =>
      obtain ⟨e, block⟩ := r
      rw [ext2BlockAssign_new hnone hfind hplace] at hok
      cases hok
      obtain ⟨hleads, htmp2, hread, hmap⟩ := hsafe.new hnone e block hfind
      exact assignMeets_new h hnone (Ext2.ext2BlockFind_sameBut hfind).blockSize (Ext2.ext2BlockFind_ne_zero hfind)
        hleads htmp2 hread hmap hplace hv
  · rw [ext2BlockAssign_held hnone hplace] at hok
    cases hok
    obtain ⟨hstored, hleads, htmp2⟩ := hsafe.held hnone
    exact assignMeets_held h hnone hstored hleads htmp2 hplace hv

/-- Where an assignment of every value at the first entry is as it should be, the indirect block
serves no other purpose. -/
theorem root_alone {g : Ext2File} {noninit : Bool} (h : f.ext2.Fresh f.lookup) (hpos : 0 < g.ext2.itemsPerBlock)
    (hword : g.inode.blocks 12 < 2 ^ 32)
    (hall : ∀ v < 2 ^ 32, AssignMeets f (g.assignItem noninit 0 v) 12 v) :
    g.inode.blocks 12 ∉ g.ext2.leads 2 (g.inode.blocks 13) ∧
      (g.lookup.tmp2Block ≠ 0 → g.lookup.tmp2Block ≠ g.inode.blocks 12) := by
  constructor
  · intro hleads
    obtain ⟨v, hv, curr, hcurr, hchanged⟩ := Ext2.exists_changed hpos hleads hword (f.ext2.fetched f.inode)
    obtain ⟨-, -, -, hothers⟩ := (assignMeets_iff h).mp (hall v hv)
    refine hchanged (g.assignedBlock noninit 0 v) ?_ (hothers curr (by omega))
    rw [assignedBlock, Ext2.item_setItem hv, if_pos rfl]
  · intro hread heq
    obtain ⟨v, hv, hchanged⟩ := Ext2.exists_setItem_ne
      (if noninit then fun _ => 0 else (g.ext2.loadTmp1 g.lookup (g.inode.blocks 12)).tmp1) g.lookup.tmp2
    obtain ⟨hfresh, -⟩ := (assignMeets_iff h).mp (hall v hv)
    have htmp2 := (fresh_assignItem noninit).mp hfresh hread
    rw [ext2_assignItem, heq, Ext2.disk_setBlock] at htmp2
    exact hchanged htmp2.symm

theorem AssignSafe.of_assigns (h : f.ext2.Fresh f.lookup) (hpos : 0 < f.ext2.itemsPerBlock)
    (hword : f.inode.blocks 12 < 2 ^ 32) (hall : f.Assigns) : f.AssignSafe where
  held := by
    intro hroot
    have hfirst : ∀ v < 2 ^ 32, AssignMeets f (f.assignItem false 0 v) 12 v := fun v hv =>
      hall 12 (by omega) v hv _ (ext2BlockAssign_held hroot hpos)
    obtain ⟨hleads, htmp2⟩ := root_alone h hpos hword hfirst
    refine ⟨(hfirst 0 (by norm_num)).stored, hleads, fun heq => htmp2 (heq ▸ hroot) heq⟩
  new := by
    intro hnone e block hfind
    have hne : block ≠ 0 := Ext2.ext2BlockFind_ne_zero hfind
    have hsame := Ext2.ext2BlockFind_sameBut hfind
    have hfirst : ∀ v < 2 ^ 32, AssignMeets f ((f.withRoot e block).assignItem true 0 v) 12 v := fun v hv =>
      hall 12 (by omega) v hv _ (ext2BlockAssign_new hnone hfind hpos)
    have hitems : (f.withRoot e block).ext2.itemsPerBlock = f.ext2.itemsPerBlock :=
      Ext2.itemsPerBlock_congr hsame.blockSize
    have hblock := root_withRoot f e block
    obtain ⟨hleads, htmp2⟩ := root_alone h (hitems.symm ▸ hpos) (hblock.symm ▸ Ext2.ext2BlockFind_lt hfind) hfirst
    have hleads' := hleads
    rw [hblock, blocks_withRoot, if_neg (by omega)] at hleads'
    rw [hblock] at htmp2
    have htmp2' : f.lookup.tmp2Block ≠ block := fun heq => htmp2 (show f.lookup.tmp2Block ≠ 0 from heq ▸ hne) heq
    obtain ⟨hfresh, -, -, hothers⟩ := (assignMeets_iff h).mp (hfirst 0 (by norm_num))
    refine ⟨hleads', htmp2', fun hread => ?_, fun other => ?_⟩
    · have hnow := (fresh_assignItem true).mp hfresh hread
      have hdisk := (Ext2.sameBut_setBlock e block ((f.withRoot e block).assignedBlock true 0 0)).disk _ htmp2'
      rw [ext2_assignItem, hblock] at hnow
      exact hdisk.symm.trans (hnow.symm.trans (h.tmp2 hread))
    · rcases Nat.lt_or_ge other 12 with hlt | hge
      · rw [Ext2.fetched_direct hlt, Ext2.fetched_direct hlt]
      rcases Nat.lt_or_ge other (12 + f.ext2.itemsPerBlock) with hsingly | hdoubly
      · obtain ⟨place, rfl⟩ := Nat.exists_eq_add_of_le hge
        have hplace : place < e.itemsPerBlock := by
          rw [Ext2.itemsPerBlock_congr hsame.blockSize]
          omega
        rw [Ext2.fetched_singly hplace, Ext2.fetched_singly (by omega), hnone, Ext2.pointed_zero, Ext2.pointed_zero]
      · have hother := hothers other (by omega)
        rw [← hitems] at hdoubly
        rw [fetched_assignItem_doubly true hleads hdoubly] at hother
        exact (fetched_withRoot f e block hdoubly).symm.trans hother

end Assign

/-- A sparse file that nothing was read of, on an image of 64 blocks with some of them filled. -/
def sparseFile (blockSize superblockIdx singly doubly : ℕ) (disk : ℕ → Block) : Ext2File where
  ext2 := { BlockUse.sampleImage blockSize superblockIdx with disk := disk }
  group := 0
  stored := ⟨0x81A4, 0, 0, 0, fun i => if i = 12 then singly else if i = 13 then doubly else 0⟩
  inode := ⟨0x81A4, 0, 0, 0, fun i => if i = 12 then singly else if i = 13 then doubly else 0⟩
  lookup := Ext2.noLookup
  ptr := 0

end Ext2File

end DualFuse.Filesystems
