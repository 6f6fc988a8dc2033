import DualFuse.Filesystems.Ext2.BlockSearch
import DualFuse.Filesystems.Ext2.Write

/-! The map of blocks of a file while it is changed. It depends on the indirect blocks only,
so it stays when other blocks are written; an assignment changes one entry of it. The set
`data` in these lemmas holds blocks that are no part of the map and no bitmaps. -/

namespace DualFuse.Filesystems

open Library Utility

namespace Ext2

/-- The indirect blocks on the ways from a block to data, so many levels down. -/
def leads (e : Ext2) : (level block : ℕ) → Set ℕ
  | 0, _ => ∅
  | level + 1, block =>
    { b | block ≠ 0 ∧ (b = block ∨ ∃ i < e.itemsPerBlock, b ∈ e.leads level (item (e.disk block) i)) }

/-- The indirect blocks of a file. -/
def indirect (e : Ext2) (ino : FileInode) : Set ℕ :=
  e.leads 1 (ino.blocks 12) ∪ e.leads 2 (ino.blocks 13) ∪ e.leads 3 (ino.blocks 14)

section Congr
variable {e e' : Ext2} {ino : FileInode} {level block place : ℕ}

theorem itemsPerBlock_congr (hsize : e'.blockSize = e.blockSize) : e'.itemsPerBlock = e.itemsPerBlock := by
  rw [itemsPerBlock, itemsPerBlock, hsize]

theorem mem_leads_self (level : ℕ) (h : block ≠ 0) : block ∈ e.leads (level + 1) block := ⟨h, .inl rfl⟩

theorem leads_item (h : block ≠ 0) {i : ℕ} (hi : i < e.itemsPerBlock) :
    e.leads level (item (e.disk block) i) ⊆ e.leads (level + 1) block := fun _ hb => ⟨h, .inr ⟨i, hi, hb⟩⟩

theorem leads_congr (hsize : e'.blockSize = e.blockSize) (h : ∀ b ∈ e.leads level block, e'.disk b = e.disk b) :
    e'.leads level block = e.leads level block := by
  induction level generalizing block with
  | zero => rfl
  | succ level ih =>
    ext b
    by_cases hblock : block = 0
    · exact iff_of_false (fun hb => hb.1 hblock) fun hb => hb.1 hblock
    · have hdisk := h block (mem_leads_self level hblock)
      have hnext : ∀ i < e.itemsPerBlock, e'.leads level (item (e.disk block) i) = e.leads level (item (e.disk block) i) :=
        fun i hi => ih fun b hb => h b (leads_item hblock hi hb)
      change (block ≠ 0 ∧ (b = block ∨ ∃ i < e'.itemsPerBlock, b ∈ e'.leads level (item (e'.disk block) i))) ↔
        (block ≠ 0 ∧ (b = block ∨ ∃ i < e.itemsPerBlock, b ∈ e.leads level (item (e.disk block) i)))
      rw [hdisk, itemsPerBlock_congr hsize]
      refine and_congr_right fun _ => or_congr_right (exists_congr fun i => and_congr_right fun hi => ?_)
      rw [hnext i hi]

theorem pointed_congr (hsize : e'.blockSize = e.blockSize) (hplace : place < e.itemsPerBlock ^ level)
    (h : ∀ b ∈ e.leads level block, e'.disk b = e.disk b) :
    e'.pointed level block place = e.pointed level block place := by
  induction level generalizing block place with
  | zero => rfl
  | succ level ih =>
    rw [pointed, pointed]
    by_cases hblock : block = 0
    · rw [if_pos hblock, if_pos hblock]
    · have hindex : place / e.itemsPerBlock ^ level < e.itemsPerBlock := by
        rw [pow_succ] at hplace
        exact Nat.div_lt_of_lt_mul hplace
      have hpos : 0 < e.itemsPerBlock ^ level := Nat.pow_pos ((Nat.zero_le _).trans_lt hindex)
      rw [if_neg hblock, if_neg hblock, h block (mem_leads_self level hblock), itemsPerBlock_congr hsize]
      exact ih (Nat.mod_lt _ hpos) fun b hb => h b (leads_item hblock hindex hb)

theorem indirect_congr (hsize : e'.blockSize = e.blockSize) (h : ∀ b ∈ e.indirect ino, e'.disk b = e.disk b) :
    e'.indirect ino = e.indirect ino := by
  unfold indirect
  rw [leads_congr hsize fun b hb => h b (.inl (.inl hb)), leads_congr hsize fun b hb => h b (.inl (.inr hb)),
    leads_congr hsize fun b hb => h b (.inr hb)]

/-- The map depends on the indirect blocks. -/
theorem fileBlock_congr (hsize : e'.blockSize = e.blockSize) (h : ∀ b ∈ e.indirect ino, e'.disk b = e.disk b)
    (curr : ℕ) : e'.fileBlock ino curr = e.fileBlock ino curr := by
  unfold fileBlock
  dsimp only
  rw [itemsPerBlock_congr hsize]
  by_cases hdirect : curr < 12
  · rw [if_pos hdirect, if_pos hdirect]
  rw [if_neg hdirect, if_neg hdirect]
  by_cases hsingly : curr < 12 + e.itemsPerBlock
  · rw [if_pos hsingly, if_pos hsingly]
    refine pointed_congr hsize ?_ fun b hb => h b (.inl (.inl hb))
    rw [pow_one]
    omega
  rw [if_neg hsingly, if_neg hsingly]
  by_cases hdoubly : curr < 12 + e.itemsPerBlock + e.itemsPerBlock ^ 2
  · rw [if_pos hdoubly, if_pos hdoubly]
    exact pointed_congr hsize (by omega) fun b hb => h b (.inl (.inr hb))
  rw [if_neg hdoubly, if_neg hdoubly]
  by_cases htriply : curr < 12 + e.itemsPerBlock + e.itemsPerBlock ^ 2 + e.itemsPerBlock ^ 3
  · rw [if_pos htriply, if_pos htriply]
    exact pointed_congr hsize (by omega) fun b hb => h b (.inr hb)
  · rw [if_neg htriply, if_neg htriply]

end Congr

/-! ### The indirect blocks that were read -/

/-- The indirect blocks that were read are those of the file, the second one below the second level. -/
structure Loaded (e : Ext2) (ino : FileInode) (control : Ext2LookupControl) : Prop where
  tmp1 : control.tmp1Block ≠ 0 → control.tmp1Block ∈ e.indirect ino
  tmp2 : control.tmp2Block ≠ 0 → control.tmp2Block ∈ e.leads 2 (ino.blocks 13)

section Loading
variable {e e' : Ext2} {ino : FileInode} {control : Ext2LookupControl} {block curr : ℕ}

theorem Loaded.loadTmp1 (h : e.Loaded ino control) (hblock : block ∈ e.indirect ino) :
    e.Loaded ino (e'.loadTmp1 control block) := by
  unfold Ext2.loadTmp1
  split_ifs
  · exact ⟨fun _ => hblock, h.tmp2⟩
  · exact h

theorem Loaded.loadTmp2 (h : e.Loaded ino control) (hblock : block ∈ e.leads 2 (ino.blocks 13)) :
    e.Loaded ino (e'.loadTmp2 control block) := by
  unfold Ext2.loadTmp2
  split_ifs
  · exact ⟨h.tmp1, fun _ => hblock⟩
  · exact h

theorem Loaded.fetch (h : e.Loaded ino control) (hfresh : e.Fresh control)
    {r : ℕ × Ext2LookupControl} (hr : e.ext2BlockFetch ino control curr = .ok r) : e.Loaded ino r.2 := by
  unfold ext2BlockFetch at hr
  dsimp only at hr
  split_ifs at hr with hdirect hsingly hroot hdoubly hroot
  · cases hr
    exact h
  · cases hr
    exact h.loadTmp1 (.inl (.inl (mem_leads_self 0 hroot)))
  · cases hr
    exact h
  · have hmem : ino.blocks 13 ∈ e.indirect ino := .inl (.inr (mem_leads_self 1 hroot))
    obtain ⟨-, htmp⟩ := hfresh.loadTmp1 hroot
    unfold fetchDoubly at hr
    split_ifs at hr with hindex hitem
    · cases hr
      refine (h.loadTmp1 hmem).loadTmp2 ?_
      rw [htmp] at hitem ⊢
      exact leads_item hroot (not_le.mp hindex) (mem_leads_self 0 hitem)
    · cases hr
      exact h.loadTmp1 hmem
  · cases hr
    exact h

theorem Loaded.chain (h : e.Loaded ino control) (hfresh : e.Fresh control) {n : ℕ}
    {r : List ℕ × Ext2LookupControl} (hr : e.ext2BlockChain ino n curr control = .ok r) : e.Loaded ino r.2 := by
  induction n generalizing curr control r with
  | zero =>
    cases hr
    exact h
  | succ n ih =>
    rw [ext2BlockChain] at hr
    obtain ⟨⟨block, control₁⟩, hfetch, hr⟩ := Exec.bind_ok_iff.mp hr
    obtain ⟨⟨blocks, control₂⟩, hchain, hr⟩ := Exec.bind_ok_iff.mp hr
    cases hr
    have hloaded : e.Loaded ino control₁ := h.fetch hfresh hfetch
    obtain ⟨control', hfresh', heq⟩ := hfresh.fetch ino curr
    rw [heq] at hfetch
    obtain rfl : control' = control₁ := by
      cases hf : e.fetched ino curr with
      | error stop =>
        rw [hf] at hfetch
        cases hfetch
      | ok b =>
        rw [hf] at hfetch
        cases hfetch
        rfl
    have hrest := ih hloaded hfresh' hchain
    exact hrest

theorem Loaded.mem_indirect (h : e.Loaded ino control) (hne : control.tmp2Block ≠ 0) :
    control.tmp2Block ∈ e.indirect ino := .inl (.inr (h.tmp2 hne))

/-- Other blocks may change. -/
theorem Fresh.congr (h : e.Fresh control) (hloaded : e.Loaded ino control)
    (hdisk : ∀ b ∈ e.indirect ino, e'.disk b = e.disk b) : e'.Fresh control where
  tmp1 := fun hne => by rw [hdisk _ (hloaded.tmp1 hne), h.tmp1 hne]
  tmp2 := fun hne => by rw [hdisk _ (hloaded.mem_indirect hne), h.tmp2 hne]

theorem Loaded.congr (h : e.Loaded ino control) (hsize : e'.blockSize = e.blockSize)
    (hdisk : ∀ b ∈ e.indirect ino, e'.disk b = e.disk b) : e'.Loaded ino control where
  tmp1 := fun hne => by
    rw [indirect_congr hsize hdisk]
    exact h.tmp1 hne
  tmp2 := fun hne => by
    rw [leads_congr hsize fun b hb => hdisk b (.inl (.inr hb))]
    exact h.tmp2 hne

end Loading

/-! ### What an allocation changes -/

/-- Two file systems with the same geometry, and with the same blocks outside a set. -/
structure SameBut (changed : Set ℕ) (e e' : Ext2) : Prop where
  blockSize : e'.blockSize = e.blockSize
  groups : e'.blockGroups = e.blockGroups
  bitmaps : ∀ g, (e'.bgdts g).blockBitmap = (e.bgdts g).blockBitmap
  disk : ∀ b, b ∉ changed → e'.disk b = e.disk b

/-- The bitmaps of the groups. -/
def bitmapBlocks (e : Ext2) : Set ℕ := { b | ∃ g < e.blockGroups, b = (e.bgdts g).blockBitmap }

section Changes
variable {e e' e'' : Ext2} {changed : Set ℕ}

theorem SameBut.rfl : SameBut changed e e := ⟨Eq.refl _, Eq.refl _, fun _ => Eq.refl _, fun _ _ => Eq.refl _⟩

theorem SameBut.trans (h : SameBut changed e e') (h' : SameBut changed e' e'') : SameBut changed e e'' where
  blockSize := h'.blockSize.trans h.blockSize
  groups := h'.groups.trans h.groups
  bitmaps := fun g => (h'.bitmaps g).trans (h.bitmaps g)
  disk := fun b hb => (h'.disk b hb).trans (h.disk b hb)

theorem SameBut.mono {changed' : Set ℕ} (h : SameBut changed e e') (hsub : changed ⊆ changed') : SameBut changed' e e' :=
  ⟨h.blockSize, h.groups, h.bitmaps, fun b hb => h.disk b fun hmem => hb (hsub hmem)⟩

theorem SameBut.bitmapBlocks_eq (h : SameBut changed e e') : e'.bitmapBlocks = e.bitmapBlocks := by
  unfold bitmapBlocks
  rw [h.groups]
  ext b
  exact exists_congr fun g => and_congr_right fun _ => by rw [h.bitmaps]

theorem sameBut_setBlock (e : Ext2) (block : ℕ) (b : Block) : SameBut {block} e (e.setBlock block b) :=
  ⟨rfl, rfl, fun _ => rfl, fun _ hb => Function.update_of_ne hb _ _⟩

theorem sameBut_change {g : ℕ} (hg : g < e.blockGroups) (buff : Block) (groupFree superFree : ℕ) :
    SameBut e.bitmapBlocks e (e.change g buff groupFree superFree) :=
  ⟨rfl, rfl, blockBitmap_change, fun _ hb => Function.update_of_ne (fun heq => hb ⟨g, hg, heq⟩) _ _⟩

@[simp] theorem disk_setBlock (e : Ext2) (block : ℕ) (b : Block) : (e.setBlock block b).disk block = b :=
  Function.update_self _ _ _

theorem sameBut_findL {g : ℕ} (hg : g < e.blockGroups) (amnt : ℕ) :
    SameBut e.bitmapBlocks e (e.ext2BlockFindL g amnt).1 := by
  unfold ext2BlockFindL
  by_cases henough : (e.bgdts g).freeBlocks < amnt
  · rw [if_pos henough]
    exact .rfl
  rw [if_neg henough]
  split
  · exact .rfl
  · exact .rfl
  · dsimp only
    exact sameBut_change hg _ _ _

theorem lt_of_ext2BlockFind {hint amnt : ℕ} {r : Ext2 × ℕ} (hr : e.ext2BlockFind hint amnt = .ok r) :
    hint < e.blockGroups := by
  by_contra hge
  unfold ext2BlockFind at hr
  rw [if_pos (not_lt.mp hge)] at hr
  split_ifs at hr

/-- A search changes bitmaps only. -/
theorem ext2BlockFind_sameBut {hint amnt : ℕ} {r : Ext2 × ℕ} (hr : e.ext2BlockFind hint amnt = .ok r) :
    SameBut e.bitmapBlocks e r.1 := by
  obtain ⟨g, hg, rfl, -⟩ := (Exec.meets_iff.mp (ext2BlockFind_meets (lt_of_ext2BlockFind hr))).1 r hr
  exact sameBut_findL hg amnt

theorem ext2BlockFind_ne_zero {hint amnt : ℕ} {r : Ext2 × ℕ} (hr : e.ext2BlockFind hint amnt = .ok r) : r.2 ≠ 0 := by
  obtain ⟨g, -, -, hne, -⟩ := (Exec.meets_iff.mp (ext2BlockFind_meets (lt_of_ext2BlockFind hr))).1 r hr
  exact hne

end Changes

/-! ### Entries -/

theorem item_setItem {b : Block} {i v : ℕ} (hv : v < 2 ^ 32) (j : ℕ) :
    item (setItem b i v) j = if j = i then v else item b j := by
  unfold item setItem
  split_ifs with heq
  · rw [heq, Bytes.readNat_writeNat]
    exact Nat.mod_eq_of_lt hv
  · exact Bytes.readNat_congr fun k hlo hhi => Bytes.writeNat_of_outside (by omega)

theorem pointed_one (e : Ext2) {block : ℕ} (h : block ≠ 0) (place : ℕ) :
    e.pointed 1 block place = item (e.disk block) place := by
  rw [pointed, if_neg h, pointed, pow_zero, Nat.div_one]

theorem leads_one (e : Ext2) (block : ℕ) : e.leads 1 block = { b | block ≠ 0 ∧ b = block } := by
  ext b
  refine and_congr_right fun _ => or_iff_left ?_
  rintro ⟨i, -, hb⟩
  exact hb

theorem item_zero (i : ℕ) : item (fun _ => 0) i = 0 := by
  unfold item Bytes.readNat Bytes.read
  rfl

end Ext2

namespace Ext2File

/-- The block at a place of the file. -/
def blockAt (f : Ext2File) (place : ℕ) : ℕ := f.ext2.fileBlock f.inode place

/-- What holds while a file is changed. -/
structure Kept (data : Set ℕ) (f : Ext2File) : Prop where
  fresh : f.ext2.Fresh f.lookup
  loaded : f.ext2.Loaded f.inode f.lookup
  apart : f.inode.blocks 12 ∉ f.ext2.leads 2 (f.inode.blocks 13) ∪ f.ext2.leads 3 (f.inode.blocks 14)
  mapped : ∀ b ∈ f.ext2.indirect f.inode, b ∉ data ∧ b ∉ f.ext2.bitmapBlocks
  bitmaps : ∀ b ∈ f.ext2.bitmapBlocks, b ∉ data

section Steps
variable {data : Set ℕ} {f f' : Ext2File} {curr val : ℕ}

/-- Data and bitmaps may be written. -/
theorem Kept.write (h : Kept data f) {e : Ext2} (he : Ext2.SameBut (data ∪ f.ext2.bitmapBlocks) f.ext2 e) :
    Kept data { f with ext2 := e } ∧ ∀ place, e.fileBlock f.inode place = f.blockAt place := by
  have hdisk : ∀ b ∈ f.ext2.indirect f.inode, e.disk b = f.ext2.disk b := fun b hb =>
    he.disk b fun hmem => hmem.elim (h.mapped b hb).1 (h.mapped b hb).2
  have hindirect := Ext2.indirect_congr he.blockSize hdisk
  refine ⟨⟨h.fresh.congr h.loaded hdisk, h.loaded.congr he.blockSize hdisk, ?_, ?_, ?_⟩,
    Ext2.fileBlock_congr he.blockSize hdisk⟩
  · change f.inode.blocks 12 ∉ e.leads 2 (f.inode.blocks 13) ∪ e.leads 3 (f.inode.blocks 14)
    rw [Ext2.leads_congr he.blockSize fun b hb => hdisk b (.inl (.inr hb)),
      Ext2.leads_congr he.blockSize fun b hb => hdisk b (.inr hb)]
    exact h.apart
  · change ∀ b ∈ e.indirect f.inode, b ∉ data ∧ b ∉ e.bitmapBlocks
    rw [hindirect, he.bitmapBlocks_eq]
    exact h.mapped
  · change ∀ b ∈ e.bitmapBlocks, b ∉ data
    rw [he.bitmapBlocks_eq]
    exact h.bitmaps

theorem blocks_setPointer (f : Ext2File) (i block j : ℕ) :
    (f.setPointer i block).inode.blocks j = if j = i then block else f.inode.blocks j :=
  Function.update_apply _ _ _ _

theorem Kept.setPointer (h : Kept data f) (hcurr : curr < 12) (val : ℕ) : Kept data (f.setPointer curr val) ∧
    ∀ place, (f.setPointer curr val).blockAt place = if place = curr then val else f.blockAt place := by
  have hroot : ∀ i, 12 ≤ i → (f.setPointer curr val).inode.blocks i = f.inode.blocks i := fun i hi => by
    rw [blocks_setPointer, if_neg (by omega)]
  have hindirect : f.ext2.indirect (f.setPointer curr val).inode = f.ext2.indirect f.inode := by
    unfold Ext2.indirect
    rw [hroot 12 le_rfl, hroot 13 (by omega), hroot 14 (by omega)]
  refine ⟨⟨h.fresh, ⟨?_, ?_⟩, ?_, ?_, h.bitmaps⟩, fun place => ?_⟩
  · rw [show (f.setPointer curr val).ext2 = f.ext2 from rfl, hindirect]
    exact h.loaded.tmp1
  · rw [hroot 13 (by omega)]
    exact h.loaded.tmp2
  · rw [hroot 12 le_rfl, hroot 13 (by omega), hroot 14 (by omega)]
    exact h.apart
  · rw [show (f.setPointer curr val).ext2 = f.ext2 from rfl, hindirect]
    exact h.mapped
  · unfold blockAt Ext2.fileBlock
    dsimp only
    rw [hroot 12 le_rfl, hroot 13 (by omega), hroot 14 (by omega), show (f.setPointer curr val).ext2 = f.ext2 from rfl,
      blocks_setPointer]
    by_cases heq : place = curr
    · rw [if_pos heq, if_pos (by omega), if_pos heq]
    · rw [if_neg heq, if_neg heq]

/-- The other levels do not lead through the indirect block of the first. -/
theorem Kept.other_levels (h : Kept data f) (b : Block) :
    (∀ c ∈ f.ext2.leads 2 (f.inode.blocks 13), (f.ext2.setBlock (f.inode.blocks 12) b).disk c = f.ext2.disk c) ∧
      ∀ c ∈ f.ext2.leads 3 (f.inode.blocks 14), (f.ext2.setBlock (f.inode.blocks 12) b).disk c = f.ext2.disk c := by
  have hsame := Ext2.sameBut_setBlock f.ext2 (f.inode.blocks 12) b
  refine ⟨fun c hc => hsame.disk c ?_, fun c hc => hsame.disk c ?_⟩
  · rintro rfl
    exact h.apart (.inl hc)
  · rintro rfl
    exact h.apart (.inr hc)

/-- The map after the indirect block of the first level was written. -/
theorem Kept.fileBlock_setBlock (h : Kept data f) (hroot : f.inode.blocks 12 ≠ 0) (b : Block) (curr : ℕ) :
    (f.ext2.setBlock (f.inode.blocks 12) b).fileBlock f.inode curr =
      if 12 ≤ curr ∧ curr < 12 + f.ext2.itemsPerBlock then Ext2.item b (curr - 12) else f.blockAt curr := by
  obtain ⟨htwo, hthree⟩ := h.other_levels b
  have hitems : (f.ext2.setBlock (f.inode.blocks 12) b).itemsPerBlock = f.ext2.itemsPerBlock := rfl
  unfold blockAt Ext2.fileBlock
  dsimp only
  rw [hitems]
  by_cases hdirect : curr < 12
  · rw [if_pos hdirect, if_pos hdirect, if_neg (by omega)]
  rw [if_neg hdirect, if_neg hdirect]
  by_cases hsingly : curr < 12 + f.ext2.itemsPerBlock
  · rw [if_pos hsingly, if_pos ⟨by omega, hsingly⟩, Ext2.pointed_one _ hroot, Ext2.disk_setBlock]
  have hout : ¬(12 ≤ curr ∧ curr < 12 + f.ext2.itemsPerBlock) := fun hin => hsingly hin.2
  rw [if_neg hsingly, if_neg hout, if_neg hsingly]
  by_cases hdoubly : curr < 12 + f.ext2.itemsPerBlock + f.ext2.itemsPerBlock ^ 2
  · rw [if_pos hdoubly, if_pos hdoubly]
    exact Ext2.pointed_congr rfl (by omega) htwo
  rw [if_neg hdoubly, if_neg hdoubly]
  by_cases htriply : curr < 12 + f.ext2.itemsPerBlock + f.ext2.itemsPerBlock ^ 2 + f.ext2.itemsPerBlock ^ 3
  · rw [if_pos htriply, if_pos htriply]
    exact Ext2.pointed_congr rfl (by omega) hthree
  · rw [if_neg htriply, if_neg htriply]

theorem blockAt_singly (hroot : f.inode.blocks 12 ≠ 0) {place : ℕ} (hplace : place < f.ext2.itemsPerBlock) :
    f.blockAt (12 + place) = Ext2.item (f.ext2.disk (f.inode.blocks 12)) place := by
  unfold blockAt Ext2.fileBlock
  dsimp only
  rw [if_neg (by omega), if_pos (by omega), Ext2.pointed_one _ hroot, Nat.add_sub_cancel_left]

theorem Kept.assignItem (h : Kept data f) (hroot : f.inode.blocks 12 ≠ 0) (noninit : Bool) (place : ℕ)
    (hval : val < 2 ^ 32) : Kept data (f.assignItem noninit place val) ∧
      ∀ curr, (f.assignItem noninit place val).blockAt curr = if 12 ≤ curr ∧ curr < 12 + f.ext2.itemsPerBlock then
        (if curr = 12 + place then val else if noninit then 0 else f.blockAt curr) else f.blockAt curr := by
  obtain ⟨hfresh, htmp⟩ := h.fresh.loadTmp1 hroot
  have hmem : f.inode.blocks 12 ∈ f.ext2.indirect f.inode := .inl (.inl (Ext2.mem_leads_self 0 hroot))
  have hloaded : f.ext2.Loaded f.inode (f.ext2.loadTmp1 f.lookup (f.inode.blocks 12)) := h.loaded.loadTmp1 hmem
  have hblock : (f.ext2.loadTmp1 f.lookup (f.inode.blocks 12)).tmp1Block = f.inode.blocks 12 := by
    unfold Ext2.loadTmp1
    split_ifs with heq
    · rfl
    · exact not_not.mp heq
  unfold Ext2File.assignItem
  dsimp only
  generalize hnew : Ext2.setItem (if noninit then fun _ => 0 else (f.ext2.loadTmp1 f.lookup (f.inode.blocks 12)).tmp1)
    place val = b
  obtain ⟨htwo, hthree⟩ := h.other_levels b
  have hleads₂ := Ext2.leads_congr (Ext2.sameBut_setBlock f.ext2 (f.inode.blocks 12) b).blockSize htwo
  have hleads₃ := Ext2.leads_congr (Ext2.sameBut_setBlock f.ext2 (f.inode.blocks 12) b).blockSize hthree
  have hindirect : (f.ext2.setBlock (f.inode.blocks 12) b).indirect f.inode = f.ext2.indirect f.inode := by
    unfold Ext2.indirect
    rw [hleads₂, hleads₃, Ext2.leads_one, Ext2.leads_one]
  refine ⟨⟨⟨fun _ => ?_, fun hne => ?_⟩, ⟨fun hne => ?_, fun hne => ?_⟩, ?_, ?_, h.bitmaps⟩, fun curr => ?_⟩
  · dsimp only
    rw [hblock, Ext2.disk_setBlock]
  · dsimp only at hne ⊢
    rw [htwo _ (hloaded.tmp2 hne)]
    exact hfresh.tmp2 hne
  · dsimp only
    rw [hindirect]
    exact hloaded.tmp1 hne
  · dsimp only
    rw [hleads₂]
    exact hloaded.tmp2 hne
  · dsimp only
    rw [hleads₂, hleads₃]
    exact h.apart
  · dsimp only
    rw [hindirect]
    exact h.mapped
  · refine (h.fileBlock_setBlock hroot b curr).trans ?_
    split_ifs with hin heq hclear
    · rw [← hnew, Ext2.item_setItem hval, if_pos (by omega)]
    · rw [← hnew, Ext2.item_setItem hval, if_neg (by omega), if_pos hclear, Ext2.item_zero]
    · rw [← hnew, Ext2.item_setItem hval, if_neg (by omega), if_neg hclear, htmp]
      rw [← blockAt_singly hroot (by omega), Nat.add_sub_cancel' hin.1]
    · rfl

/-- A block is taken for the indirect block of the first level. -/
theorem Kept.setRoot (h : Kept data f) {block : ℕ} (hdata : block ∉ data) (hbitmap : block ∉ f.ext2.bitmapBlocks)
    (hnew : block ∉ f.ext2.indirect f.inode) (hnone : f.inode.blocks 12 = 0) : Kept data (f.setPointer 12 block) ∧
      ∀ curr, ¬(12 ≤ curr ∧ curr < 12 + f.ext2.itemsPerBlock) →
        (f.setPointer 12 block).blockAt curr = f.blockAt curr := by
  have hother : ∀ i, i ≠ 12 → (f.setPointer 12 block).inode.blocks i = f.inode.blocks i := fun i hi => by
    rw [blocks_setPointer, if_neg hi]
  have hroot : (f.setPointer 12 block).inode.blocks 12 = block := by rw [blocks_setPointer, if_pos rfl]
  have hsub : f.ext2.indirect f.inode ⊆ f.ext2.indirect (f.setPointer 12 block).inode := by
    unfold Ext2.indirect
    rw [hnone, Ext2.leads_one, hother 13 (by decide), hother 14 (by decide)]
    rintro b ((⟨hne, -⟩ | hb) | hb)
    · exact absurd rfl hne
    · exact .inl (.inr hb)
    · exact .inr hb
  have hmem : ∀ b ∈ f.ext2.indirect (f.setPointer 12 block).inode, b = block ∨ b ∈ f.ext2.indirect f.inode := by
    unfold Ext2.indirect
    rw [hroot, Ext2.leads_one, hother 13 (by decide), hother 14 (by decide)]
    rintro b ((⟨-, rfl⟩ | hb) | hb)
    · exact .inl rfl
    · exact .inr (.inl (.inr hb))
    · exact .inr (.inr hb)
  refine ⟨⟨h.fresh, ⟨fun hne => hsub (h.loaded.tmp1 hne), ?_⟩, ?_, ?_, h.bitmaps⟩, fun curr hcurr => ?_⟩
  · rw [hother 13 (by decide)]
    exact h.loaded.tmp2
  · rw [hroot, hother 13 (by decide), hother 14 (by decide)]
    rintro (hb | hb)
    · exact hnew (.inl (.inr hb))
    · exact hnew (.inr hb)
  · intro b hb
    rcases hmem b hb with rfl | hb
    · exact ⟨hdata, hbitmap⟩
    · exact h.mapped b hb
  · unfold blockAt Ext2.fileBlock
    dsimp only
    rw [hother 13 (by decide), hother 14 (by decide), show (f.setPointer 12 block).ext2 = f.ext2 from rfl]
    by_cases hdirect : curr < 12
    · rw [if_pos hdirect, if_pos hdirect, hother curr (by omega)]
    · have hsingly : ¬curr < 12 + f.ext2.itemsPerBlock := by omega
      rw [if_neg hdirect, if_neg hdirect, if_neg hsingly, if_neg hsingly]

theorem blockAt_of_noRoot (hnone : f.inode.blocks 12 = 0) (hlow : 12 ≤ curr)
    (hhigh : curr < 12 + f.ext2.itemsPerBlock) : f.blockAt curr = 0 := by
  unfold blockAt Ext2.fileBlock
  dsimp only
  rw [if_neg (by omega), if_pos hhigh, hnone, Ext2.pointed_zero]

/-- What an assignment leaves as it was. -/
structure Stays (data : Set ℕ) (f f' : Ext2File) : Prop where
  ext2 : Ext2.SameBut dataᶜ f.ext2 f'.ext2
  group : f'.group = f.group
  ptr : f'.ptr = f.ptr
  size : f'.inode.size = f.inode.size
  sizeHigh : f'.inode.sizeHigh = f.inode.sizeHigh

theorem Stays.trans {f'' : Ext2File} (h : Stays data f f') (h' : Stays data f' f'') : Stays data f f'' where
  ext2 := h.ext2.trans h'.ext2
  group := h'.group.trans h.group
  ptr := h'.ptr.trans h.ptr
  size := h'.size.trans h.size
  sizeHigh := h'.sizeHigh.trans h.sizeHigh

/-- A block that is allocated for the first level is a new one. -/
def FreshRoot (data : Set ℕ) (f : Ext2File) : Prop :=
  f.inode.blocks 12 = 0 → ∀ r, f.ext2.ext2BlockFind f.group 1 = .ok r →
    r.2 ∉ data ∧ r.2 ∉ f.ext2.bitmapBlocks ∧ r.2 ∉ f.ext2.indirect f.inode

theorem Kept.sameBut_assignItem (h : Kept data f) (hroot : f.inode.blocks 12 ≠ 0) (noninit : Bool) (place val : ℕ) :
    Ext2.SameBut dataᶜ f.ext2 (f.assignItem noninit place val).ext2 := by
  refine (Ext2.sameBut_setBlock _ _ _).mono ?_
  rintro b rfl
  exact (h.mapped _ (.inl (.inl (Ext2.mem_leads_self 0 hroot)))).1

/-- What the assignment of blocks in a row to places in a row comes to. -/
structure Assigned (data : Set ℕ) (n curr val : ℕ) (f f' : Ext2File) : Prop where
  kept : Kept data f'
  stays : Stays data f f'
  root : FreshRoot data f'
  map : ∀ place, f'.blockAt place =
    if curr ≤ place ∧ place < curr + n then val + (place - curr) else f.blockAt place

theorem ite_single {α : Type} {place curr : ℕ} {x : ℕ → α} {y : α} :
    (if place = curr then x 0 else y) = if curr ≤ place ∧ place < curr + 1 then x (place - curr) else y := by
  by_cases heq : place = curr
  · rw [if_pos heq, if_pos (by omega), heq, Nat.sub_self]
  · rw [if_neg heq, if_neg (by omega)]

/-- There is an indirect block of the first level; a new one counts as empty. -/
theorem Kept.singlyIndirect (h : Kept data f) (hfresh : FreshRoot data f) {noninit : Bool}
    (hok : f.singlyIndirect = .ok (f', noninit)) : Kept data f' ∧ Stays data f f' ∧ f'.inode.blocks 12 ≠ 0 ∧
      ∀ curr, (if (12 ≤ curr ∧ curr < 12 + f.ext2.itemsPerBlock) ∧ noninit = true then 0 else f'.blockAt curr) =
        f.blockAt curr := by
  unfold Ext2File.singlyIndirect at hok
  by_cases hnone : f.inode.blocks 12 = 0
  · rw [if_pos hnone] at hok
    obtain ⟨⟨e, block⟩, hfind, hok⟩ := Exec.bind_ok_iff.mp hok
    cases hok
    obtain ⟨hdata, hbitmap, hindirect⟩ := hfresh hnone _ hfind
    have hsame := Ext2.ext2BlockFind_sameBut hfind
    obtain ⟨hkept, hmap⟩ := h.write (hsame.mono Set.subset_union_right)
    have hagree : ∀ b ∈ f.ext2.indirect f.inode, e.disk b = f.ext2.disk b := fun b hb =>
      hsame.disk b (h.mapped b hb).2
    rw [← Ext2.indirect_congr hsame.blockSize hagree] at hindirect
    rw [← hsame.bitmapBlocks_eq] at hbitmap
    obtain ⟨hkept', hmap'⟩ := hkept.setRoot hdata hbitmap hindirect hnone
    refine ⟨hkept', ⟨hsame.mono fun b hb => h.bitmaps b hb, rfl, rfl, rfl, rfl⟩, ?_, fun curr => ?_⟩
    · rw [blocks_setPointer, if_pos rfl]
      exact Ext2.ext2BlockFind_ne_zero hfind
    · split_ifs with hin
      · exact (blockAt_of_noRoot hnone hin.1.1 hin.1.2).symm
      · refine (hmap' curr fun hrange => hin ⟨?_, rfl⟩).trans (hmap curr)
        rw [← Ext2.itemsPerBlock_congr hsame.blockSize]
        exact hrange
  · rw [if_neg hnone] at hok
    cases hok
    exact ⟨h, ⟨.rfl, rfl, rfl, rfl, rfl⟩, hnone, fun curr => if_neg fun hin => Bool.false_ne_true hin.2⟩

theorem Kept.assign (h : Kept data f) (hval : val < 2 ^ 32) (hfresh : FreshRoot data f)
    (hok : f.ext2BlockAssign curr val = .ok f') : Assigned data 1 curr val f f' := by
  unfold ext2BlockAssign at hok
  split_ifs at hok with hdirect hsingly
  · -- one of the twelve blocks that the inode names
    cases hok
    obtain ⟨hkept, hmap⟩ := h.setPointer hdirect val
    refine ⟨hkept, ⟨.rfl, rfl, rfl, rfl, rfl⟩, fun hnone r hr => ?_, fun place => ?_⟩
    · rw [blocks_setPointer, if_neg (by omega)] at hnone
      have hindirect : f.ext2.indirect (f.setPointer curr val).inode = f.ext2.indirect f.inode := by
        unfold Ext2.indirect
        rw [blocks_setPointer, blocks_setPointer, blocks_setPointer, if_neg (by omega), if_neg (by omega),
          if_neg (by omega)]
      rw [show (f.setPointer curr val).ext2 = f.ext2 from rfl, hindirect]
      exact hfresh hnone r hr
    · rw [hmap]
      exact ite_single (x := (val + ·))
  · obtain ⟨place, rfl⟩ := Nat.exists_eq_add_of_le (not_lt.mp hdirect)
    rw [Nat.add_sub_cancel_left] at hok
    obtain ⟨⟨f₁, noninit⟩, hroot, hok⟩ := Exec.bind_ok_iff.mp hok
    cases hok
    obtain ⟨hkept₁, hstays, hne, hmap₁⟩ := h.singlyIndirect hfresh hroot
    obtain ⟨hkept, hmap⟩ := hkept₁.assignItem hne noninit place hval
    refine ⟨hkept, ⟨hstays.ext2.trans (hkept₁.sameBut_assignItem hne noninit place val), hstays.group, hstays.ptr,
      hstays.size, hstays.sizeHigh⟩, fun hzero => absurd hzero hne, fun curr => ?_⟩
    rw [hmap, ← ite_single (x := (val + ·)), ← hmap₁ curr, Ext2.itemsPerBlock_congr hstays.ext2.blockSize]
    by_cases hin : 12 ≤ curr ∧ curr < 12 + f.ext2.itemsPerBlock
    · rw [if_pos hin]
      by_cases heq : curr = 12 + place
      · rw [if_pos heq, if_pos heq, Nat.add_zero]
      · rw [if_neg heq, if_neg heq]
        cases noninit with
        | true => rw [if_pos rfl, if_pos ⟨hin, rfl⟩]
        | false => rw [if_neg Bool.false_ne_true, if_neg fun hboth => Bool.false_ne_true hboth.2]
    · rw [if_neg hin, if_neg (show ¬curr = 12 + place by omega), if_neg fun hboth => hin hboth.1]

theorem Kept.assignRun (h : Kept data f) {n : ℕ} (hval : val + n < 2 ^ 32) (hfresh : FreshRoot data f)
    (hok : assignRun n curr val f = .ok f') : Assigned data n curr val f f' := by
  induction n generalizing curr val f with
  | zero =>
    cases hok
    exact ⟨h, ⟨.rfl, rfl, rfl, rfl, rfl⟩, hfresh, fun place => (if_neg (by omega)).symm⟩
  | succ n ih =>
    rw [Ext2File.assignRun] at hok
    obtain ⟨f₁, hfirst, hrest⟩ := Exec.bind_ok_iff.mp hok
    have hone := h.assign (by omega) hfresh hfirst
    have hnext : Ext2.nextBlock val = val + 1 := Nat.mod_eq_of_lt (by omega)
    rw [hnext] at hrest
    have hall := ih hone.kept (by omega) hone.root hrest
    refine ⟨hall.kept, hone.stays.trans hall.stays, hall.root, fun place => ?_⟩
    rw [hall.map, hone.map]
    split_ifs <;> first | rfl | omega

end Steps

end Ext2File

end DualFuse.Filesystems
