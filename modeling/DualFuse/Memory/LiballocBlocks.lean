import DualFuse.Library.Blocks
import DualFuse.Memory.Liballoc

/-! The tags of `malloc` as linked blocks. `melt_left` and `absorb_right` join two blocks,
`split_tag` splits one; each of them keeps the blocks apart and the lists of free tags
true. -/

namespace DualFuse.Memory

open Library Utility

namespace Liballoc

/-- Sizes and links, as the tags have them. -/
def blocks (h : Liballoc) : Blocks where
  size t := (h.tags t).realSize
  left t := (h.tags t).splitLeft
  right t := (h.tags t).splitRight

/-- Whole pages of the direct map, as many as `allocate_new_tag` asks for. -/
structure Region (hhdmOffset : ℕ) (r : ℕ × ℕ) : Prop where
  low : hhdmOffset ≤ r.1
  first : (r.1 - hhdmOffset) % liballocPageSize = 0
  length : (r.2 - r.1) % liballocPageSize = 0
  least : liballocPageCount * liballocPageSize ≤ r.2 - r.1

/-- The address lies in the direct map of the first 4 GiB, in a frame that is in use. -/
structure Covered (hhdmOffset : ℕ) (frames : Bitmap) (a : ℕ) : Prop where
  low : hhdmOffset + liballocPageSize ≤ a
  high : a < hhdmOffset + 2 ^ 32
  inside : (a - hhdmOffset) / liballocPageSize < frames.sizeInBlocks
  used : frames.get ((a - hhdmOffset) / liballocPageSize) = true

/-- The index that `insert_tag` gives to a tag. -/
def realIndex (h : Liballoc) (t : ℕ) (index : ℤ) : ℤ :=
  if index < 0 then max (getexp (sub32 (h.tags t).realSize tagSize)) minExp else index

/-- The lists hold exactly the tags that are not held, each in the list of its size. -/
structure FreeLists (h : Liballoc) (T held : Set ℕ) : Prop where
  mem_iff : ∀ t i, t ∈ h.freePages i ↔ t ∈ T ∧ t ∉ held ∧ (h.tags t).index = i
  index_eq : ∀ t ∈ T, t ∉ held → (h.tags t).index = h.realIndex t (-1)
  nodup : ∀ i, (h.freePages i).Nodup

structure Inv (hhdmOffset : ℕ) (h : Liballoc) (region : ℕ → ℕ × ℕ) (T held : Set ℕ) : Prop where
  linked : h.blocks.Linked tagSize region (Covered hhdmOffset h.frames) T
  regions : ∀ t ∈ T, Region hhdmOffset (region t)
  magic : ∀ t ∈ T, (h.tags t).magic = liballocMagic
  held_subset : held ⊆ T
  held_index : ∀ t ∈ held, (h.tags t).index = -1
  lists : h.FreeLists T held
  memStart : h.frames.memStart = 0
  hint : h.frames.HintSound

section Tags
variable {h : Liballoc} {t u : ℕ} {tag : BoundaryTag}

@[simp] theorem setTag_tags_self : (h.setTag t tag).tags t = tag := Function.update_self _ _ _

theorem setTag_tags_of_ne (hne : u ≠ t) : (h.setTag t tag).tags u = h.tags u := Function.update_of_ne hne _ _

@[simp] theorem setTag_freePages : (h.setTag t tag).freePages = h.freePages := rfl

@[simp] theorem setTag_frames : (h.setTag t tag).frames = h.frames := rfl

theorem setSplitLeft_freePages {p left : ℕ} : (h.setSplitLeft p left).freePages = h.freePages := by
  unfold setSplitLeft
  split_ifs <;> rfl

theorem setSplitLeft_frames {p left : ℕ} : (h.setSplitLeft p left).frames = h.frames := by
  unfold setSplitLeft
  split_ifs <;> rfl

/-- Only the link of `p` to its left changes. -/
theorem setSplitLeft_tags {p left : ℕ} :
    (h.setSplitLeft p left).tags u =
      if p ≠ 0 ∧ u = p then { h.tags u with splitLeft := left } else h.tags u := by
  unfold setSplitLeft
  by_cases hp : p = 0
  · rw [if_neg (not_not.mpr hp), if_neg fun hboth => hboth.1 hp]
  · rw [if_pos hp]
    rcases eq_or_ne u p with rfl | hne
    · rw [setTag_tags_self, if_pos ⟨hp, rfl⟩]
    · rw [setTag_tags_of_ne hne, if_neg fun hboth => hne hboth.2]

end Tags

section Lists
variable {hhdmOffset : ℕ} {h : Liballoc} {region : ℕ → ℕ × ℕ} {T held : Set ℕ} {t : ℕ}

/-- Only the index of one tag changes. -/
theorem setIndex_tags (i : ℤ) (u : ℕ) :
    (h.setTag t { h.tags t with index := i }).tags u = { h.tags u with index := if u = t then i else (h.tags u).index } := by
  rcases eq_or_ne u t with rfl | hne
  · rw [setTag_tags_self, if_pos rfl]
  · rw [setTag_tags_of_ne hne, if_neg hne]

theorem realIndex_congr {h' : Liballoc} (hsize : (h'.tags t).realSize = (h.tags t).realSize) (index : ℤ) :
    h'.realIndex t index = h.realIndex t index := by
  unfold realIndex
  rw [hsize]

theorem FreeLists.removeTag (hlists : h.FreeLists T held) (ht : t ∈ T) (hfree : t ∉ held) :
    (h.removeTag t).FreeLists T (insert t held) := by
  have hindex : ∀ u, u ≠ t → ((h.removeTag t).tags u).index = (h.tags u).index := by
    intro u hne
    exact congrArg BoundaryTag.index (setTag_tags_of_ne hne)
  have hmem : ∀ u i, u ∈ (h.removeTag t).freePages i ↔ u ≠ t ∧ u ∈ h.freePages i := by
    intro u i
    unfold Liballoc.removeTag
    dsimp only
    rcases eq_or_ne i (h.tags t).index with rfl | hne
    · rw [Function.update_self, (hlists.nodup _).mem_erase_iff]
    · rw [Function.update_of_ne hne]
      refine ⟨fun hu => ⟨?_, hu⟩, fun hu => hu.2⟩
      rintro rfl
      exact hne ((hlists.mem_iff u i).mp hu).2.2.symm
  refine ⟨fun u i => ?_, fun u hu hnot => ?_, fun i => ?_⟩
  · rw [hmem, hlists.mem_iff, Set.mem_insert_iff, not_or]
    constructor
    · rintro ⟨hne, hu, hnot, hi⟩
      exact ⟨hu, ⟨hne, hnot⟩, (hindex u hne).trans hi⟩
    · rintro ⟨hu, ⟨hne, hnot⟩, hi⟩
      exact ⟨hne, hu, hnot, (hindex u hne).symm.trans hi⟩
  · rw [Set.mem_insert_iff, not_or] at hnot
    rw [hindex u hnot.1, hlists.index_eq u hu hnot.2]
    exact (realIndex_congr (congrArg BoundaryTag.realSize (setTag_tags_of_ne hnot.1)) (-1)).symm
  · unfold Liballoc.removeTag
    dsimp only
    rcases eq_or_ne i (h.tags t).index with rfl | hne
    · rw [Function.update_self]
      exact (hlists.nodup _).erase t
    · rw [Function.update_of_ne hne]
      exact hlists.nodup i

theorem FreeLists.insertTag (hlists : h.FreeLists T held) (ht : t ∈ T) (hheld : t ∈ held) {index : ℤ}
    (hreal : h.realIndex t index = h.realIndex t (-1)) : (h.insertTag t index).FreeLists T (held \ {t}) := by
  have hself : ((h.insertTag t index).tags t).index = h.realIndex t index :=
    congrArg BoundaryTag.index setTag_tags_self
  have hindex : ∀ u, u ≠ t → ((h.insertTag t index).tags u).index = (h.tags u).index := fun u hne =>
    congrArg BoundaryTag.index (setTag_tags_of_ne hne)
  have hout : ∀ i, t ∉ h.freePages i := fun i hmem => ((hlists.mem_iff t i).mp hmem).2.1 hheld
  have hpages : ∀ i, (h.insertTag t index).freePages i =
      if i = h.realIndex t index then t :: h.freePages i else h.freePages i := by
    intro i
    rcases eq_or_ne i (h.realIndex t index) with rfl | hne
    · rw [if_pos rfl]
      exact Function.update_self _ _ _
    · rw [if_neg hne]
      exact Function.update_of_ne hne _ _
  refine ⟨fun u i => ?_, fun u hu hnot => ?_, fun i => ?_⟩
  · rw [hpages]
    rcases eq_or_ne u t with rfl | hne
    · rw [hself]
      by_cases hi : i = h.realIndex u index
      · rw [if_pos hi]
        exact iff_of_true List.mem_cons_self ⟨ht, fun hmem => hmem.2 rfl, hi.symm⟩
      · rw [if_neg hi]
        exact iff_of_false (hout i) fun hmem => hi hmem.2.2.symm
    · have hold : (u ∈ if i = h.realIndex t index then t :: h.freePages i else h.freePages i) ↔ u ∈ h.freePages i := by
        split_ifs
        · rw [List.mem_cons, or_iff_right hne]
        · exact Iff.rfl
      rw [hold, hlists.mem_iff, hindex u hne]
      refine and_congr_right fun _ => and_congr_left fun _ => not_congr ?_
      exact ⟨fun hu => ⟨hu, hne⟩, fun hu => hu.1⟩
  · rcases eq_or_ne u t with rfl | hne
    · have hsize : ((h.insertTag u index).tags u).realSize = (h.tags u).realSize :=
        (congrArg BoundaryTag.realSize (setIndex_tags (h := h) (t := u) (h.realIndex u index) u) :)
      rw [hself, hreal, realIndex_congr hsize]
    · rw [hindex u hne, hlists.index_eq u hu fun hmem => hnot ⟨hmem, hne⟩]
      exact (realIndex_congr (congrArg BoundaryTag.realSize (setTag_tags_of_ne hne)) (-1)).symm
  · rw [hpages]
    split_ifs
    · exact List.nodup_cons.mpr ⟨hout i, hlists.nodup i⟩
    · exact hlists.nodup i

/-- The lists depend on the indices and sizes of the free tags only. -/
theorem FreeLists.congr {h' : Liballoc} (hlists : h.FreeLists T held) (hpages : h'.freePages = h.freePages)
    (hindex : ∀ t ∈ T, t ∉ held → (h'.tags t).index = (h.tags t).index)
    (hsize : ∀ t ∈ T, t ∉ held → (h'.tags t).realSize = (h.tags t).realSize) : h'.FreeLists T held := by
  refine ⟨fun t i => ?_, fun t ht hnot => ?_, fun i => hpages ▸ hlists.nodup i⟩
  · rw [hpages, hlists.mem_iff]
    refine and_congr_right fun ht => and_congr_right fun hnot => ?_
    rw [hindex t ht hnot]
  · rw [hindex t ht hnot, hlists.index_eq t ht hnot]
    exact (realIndex_congr (hsize t ht hnot) (-1)).symm

/-- A held tag that is a tag no more. -/
theorem FreeLists.forget (hlists : h.FreeLists T held) (hheld : t ∈ held) : h.FreeLists (T \ {t}) (held \ {t}) := by
  refine ⟨fun u i => ?_, fun u hu hnot => hlists.index_eq u hu.1 fun hmem => hnot ⟨hmem, hu.2⟩, hlists.nodup⟩
  rw [hlists.mem_iff]
  constructor
  · rintro ⟨hu, hnot, hi⟩
    exact ⟨⟨hu, fun heq => hnot (Set.mem_singleton_iff.mp heq ▸ hheld)⟩, fun hmem => hnot hmem.1, hi⟩
  · rintro ⟨⟨hu, hne⟩, hnot, hi⟩
    exact ⟨hu, fun hmem => hnot ⟨hmem, hne⟩, hi⟩

/-- A new tag that is held. -/
theorem FreeLists.hold (hlists : h.FreeLists T held) (hnew : t ∉ T) : h.FreeLists (insert t T) (insert t held) := by
  refine ⟨fun u i => ?_, fun u hu hnot => ?_, hlists.nodup⟩
  · rw [hlists.mem_iff, Set.mem_insert_iff, Set.mem_insert_iff, not_or]
    constructor
    · rintro ⟨hu, hnot, hi⟩
      exact ⟨.inr hu, ⟨fun heq => hnew (heq ▸ hu), hnot⟩, hi⟩
    · rintro ⟨hu, ⟨hne, hnot⟩, hi⟩
      exact ⟨hu.resolve_left hne, hnot, hi⟩
  · rw [Set.mem_insert_iff, not_or] at hnot
    exact hlists.index_eq u ((Set.mem_insert_iff.mp hu).resolve_left hnot.1) hnot.2

/-- Tags that agree in all but their indices and sizes. -/
theorem Inv.of_lists {h' : Liballoc} {held' : Set ℕ} (hinv : h.Inv hhdmOffset region T held)
    (htags : ∀ u ∈ T, ∃ i size, h'.tags u = { h.tags u with index := i, size := size }) (hframes : h'.frames = h.frames)
    (hsubset : held' ⊆ T) (hindex : ∀ u ∈ held', (h'.tags u).index = -1) (hlists : h'.FreeLists T held') :
    h'.Inv hhdmOffset region T held' := by
  have hsame : ∀ u ∈ T, (h'.tags u).realSize = (h.tags u).realSize ∧ (h'.tags u).splitLeft = (h.tags u).splitLeft ∧
      (h'.tags u).splitRight = (h.tags u).splitRight ∧ (h'.tags u).magic = (h.tags u).magic := by
    intro u hu
    obtain ⟨i, size, heq⟩ := htags u hu
    rw [heq]
    exact ⟨rfl, rfl, rfl, rfl⟩
  refine ⟨?_, hinv.regions, fun u hu => ?_, hsubset, hindex, hlists, hframes ▸ hinv.memStart, hframes ▸ hinv.hint⟩
  · rw [hframes]
    exact hinv.linked.congr (fun u hu => (hsame u hu).1) (fun u hu => (hsame u hu).2.1) fun u hu => (hsame u hu).2.2.1
  · rw [(hsame u hu).2.2.2]
    exact hinv.magic u hu

/-- A tag that is taken from its list is held. -/
theorem Inv.removeTag (hinv : h.Inv hhdmOffset region T held) (ht : t ∈ T) (hfree : t ∉ held) :
    (h.removeTag t).Inv hhdmOffset region T (insert t held) := by
  refine hinv.of_lists (fun u _ => ⟨_, _, setIndex_tags (-1) u⟩) rfl (Set.insert_subset ht hinv.held_subset) ?_
    (hinv.lists.removeTag ht hfree)
  refine Set.forall_mem_insert.mpr ⟨congrArg BoundaryTag.index setTag_tags_self, fun u hu => ?_⟩
  refine (congrArg BoundaryTag.index (setTag_tags_of_ne ?_)).trans (hinv.held_index u hu)
  exact fun heq => hfree (heq ▸ hu)

/-- A held tag goes to a list. -/
theorem Inv.insertTag (hinv : h.Inv hhdmOffset region T held) (hheld : t ∈ held) {index : ℤ}
    (hreal : h.realIndex t index = h.realIndex t (-1)) :
    (h.insertTag t index).Inv hhdmOffset region T (held \ {t}) := by
  refine hinv.of_lists (fun u _ => ⟨_, _, setIndex_tags _ u⟩) rfl (Set.sdiff_subset.trans hinv.held_subset) ?_
    (hinv.lists.insertTag (hinv.held_subset hheld) hheld hreal)
  exact fun u hu => (congrArg BoundaryTag.index (setTag_tags_of_ne hu.2)).trans (hinv.held_index u hu.1)

end Lists

/-! ### Joining -/

/-- The block at `l` takes in the block at `r`. -/
def merge (h : Liballoc) (l r : ℕ) : Liballoc :=
  let h := h.setTag l { h.tags l with
    realSize := wrap32 ((h.tags l).realSize + (h.tags r).realSize)
    splitRight := (h.tags r).splitRight }
  h.setSplitLeft (h.tags r).splitRight l

theorem meltLeft_eq (h : Liballoc) (t : ℕ) :
    h.meltLeft t = (h.merge (h.tags t).splitLeft t, (h.tags t).splitLeft) := rfl

theorem absorbRight_eq (h : Liballoc) (t : ℕ) :
    h.absorbRight t = (h.removeTag (h.tags t).splitRight).merge t (h.tags t).splitRight := rfl

section Merge
variable {hhdmOffset : ℕ} {h : Liballoc} {region : ℕ → ℕ × ℕ} {T held : Set ℕ} {l r t : ℕ}

/-- Where a block lies. -/
theorem Inv.range (hinv : h.Inv hhdmOffset region T held) (ht : t ∈ T) :
    hhdmOffset + liballocPageSize ≤ t ∧ tagSize ≤ (h.tags t).realSize ∧
      t + (h.tags t).realSize ≤ hhdmOffset + 2 ^ 32 := by
  have hleast : tagSize ≤ (h.tags t).realSize := hinv.linked.least_le t ht
  have hpos : 0 < (h.tags t).realSize := lt_of_lt_of_le (by decide) hleast
  have hfirst := hinv.linked.covered t ht t le_rfl (Nat.lt_add_of_pos_right hpos)
  have hlast := hinv.linked.covered t ht (t + (h.tags t).realSize - 1) (by omega)
    (show _ < t + (h.tags t).realSize by omega)
  refine ⟨hfirst.low, hleast, ?_⟩
  have := hlast.high
  omega

theorem merge_index (hne : r ≠ l) (u : ℕ) :
    ((h.merge l r).tags u).index = (h.tags u).index ∧ ((h.merge l r).tags u).magic = (h.tags u).magic ∧
      ((h.merge l r).tags u).size = (h.tags u).size := by
  unfold merge
  dsimp only
  rw [setSplitLeft_tags]
  rcases eq_or_ne u l with rfl | hul
  · rw [setTag_tags_self]
    split_ifs <;> exact ⟨rfl, rfl, rfl⟩
  · rw [setTag_tags_of_ne hul]
    split_ifs <;> exact ⟨rfl, rfl, rfl⟩

theorem merge_freePages : (h.merge l r).freePages = h.freePages := setSplitLeft_freePages

theorem merge_frames : (h.merge l r).frames = h.frames := setSplitLeft_frames

/-- The tags become what joining makes of the blocks. -/
theorem merge_blocks (hr : r = (h.tags l).splitRight) (hne : r ≠ l) (hnext : (h.tags r).splitRight ≠ l)
    (hsize : (h.tags l).realSize + (h.tags r).realSize < 2 ^ 32) (u : ℕ) :
    ((h.merge l r).tags u).realSize = (h.blocks.join l).size u ∧
      ((h.merge l r).tags u).splitLeft = (h.blocks.join l).left u ∧
      ((h.merge l r).tags u).splitRight = (h.blocks.join l).right u := by
  have hright : h.blocks.right l = r := hr.symm
  have hnextRight : h.blocks.right (h.blocks.right l) = (h.tags r).splitRight := by
    rw [hright]
    rfl
  have hleft : (h.blocks.join l).left u =
      if (h.tags r).splitRight ≠ 0 ∧ u = (h.tags r).splitRight then l else (h.tags u).splitLeft := by
    by_cases hzero : (h.tags r).splitRight = 0
    · rw [if_neg fun hboth => hboth.1 hzero, Blocks.join_left_of_ne fun _ => hnextRight.trans hzero]
      rfl
    · by_cases hu : u = (h.tags r).splitRight
      · rw [if_pos ⟨hzero, hu⟩, hu, ← hnextRight]
        exact Blocks.join_left_right (hnextRight ▸ hzero)
      · rw [if_neg fun hboth => hu hboth.2, Blocks.join_left_of_ne fun heq => absurd (heq.trans hnextRight) hu]
        rfl
  unfold merge
  dsimp only
  rw [setTag_tags_of_ne hne, setSplitLeft_tags, hleft]
  rcases eq_or_ne u l with rfl | hul
  · rw [setTag_tags_self, if_neg fun hboth => hnext hboth.2.symm, if_neg fun hboth => hnext hboth.2.symm,
      Blocks.join_size_self, Blocks.join_right_self, hright, wrap32, Nat.mod_eq_of_lt hsize]
    exact ⟨rfl, rfl, rfl⟩
  · rw [setTag_tags_of_ne hul, Blocks.join_size_of_ne hul, Blocks.join_right_of_ne hul]
    split_ifs <;> exact ⟨rfl, rfl, rfl⟩

/-- A held block takes in its right neighbour, which is held too. -/
theorem Inv.merge (hinv : h.Inv hhdmOffset region T held) (hleft : l ∈ held) (hr : r = (h.tags l).splitRight)
    (hzero : r ≠ 0) (hheld : r ∈ held) : (h.merge l r).Inv hhdmOffset region (T \ {r}) (held \ {r}) := by
  have hpos : 0 < tagSize := by decide
  have hl := hinv.held_subset hleft
  have hright : h.blocks.right l ≠ 0 := fun hnone => hzero (hr.trans hnone)
  obtain ⟨hmem, heq, -⟩ := hinv.linked.right l hl hright
  have hadjacent : r = l + (h.tags l).realSize := by
    rw [hr]
    exact heq
  have hrT : r ∈ T := hinv.held_subset hheld
  obtain ⟨hlow, hleast, -⟩ := hinv.range hl
  obtain ⟨-, hleastRight, hhigh⟩ := hinv.range hrT
  have hne : r ≠ l := by omega
  have hnext : (h.tags r).splitRight ≠ l := by
    intro hback
    by_cases hz : (h.tags r).splitRight = 0
    · have := hinv.linked.pos l hl
      omega
    · have hnextEq : (h.tags r).splitRight = r + (h.tags r).realSize := (hinv.linked.right r hrT hz).2.1
      omega
  have hblocks := merge_blocks hr hne hnext (by unfold liballocPageSize at hlow; omega)
  have hjoin := hinv.linked.join hl hpos hright
  rw [show h.blocks.right l = r from hr.symm] at hjoin
  refine ⟨?_, fun u hu => hinv.regions u hu.1, fun u hu => ?_, fun u hu => ⟨hinv.held_subset hu.1, hu.2⟩,
    fun u hu => ?_, ?_, ?_, ?_⟩
  · rw [merge_frames]
    exact hjoin.congr (fun u _ => (hblocks u).1) (fun u _ => (hblocks u).2.1) fun u _ => (hblocks u).2.2
  · rw [(merge_index hne u).2.1]
    exact hinv.magic u hu.1
  · rw [(merge_index hne u).1]
    exact hinv.held_index u hu.1
  · refine (hinv.lists.forget hheld).congr merge_freePages (fun u _ _ => (merge_index hne u).1) fun u _ hnot => ?_
    exact (hblocks u).1.trans (Blocks.join_size_of_ne fun heq => hnot ⟨heq ▸ hleft, heq ▸ hne.symm⟩)
  · rw [merge_frames]
    exact hinv.memStart
  · rw [merge_frames]
    exact hinv.hint

end Merge

/-! ### Pointers -/

/-- Direct maps for which the lower half of an address is the physical address. -/
structure Aligned (hhdmOffset : ℕ) : Prop where
  low : hhdmOffset % 2 ^ 32 = 0
  fits : hhdmOffset + 2 ^ 32 ≤ 2 ^ 64

section Pointers
variable {hhdmOffset t n : ℕ}

theorem Aligned.wrap32_eq (hd : Aligned hhdmOffset) (hlow : hhdmOffset ≤ t) (hhigh : t < hhdmOffset + 2 ^ 32) :
    wrap32 t = t - hhdmOffset := by
  have := hd.low
  unfold wrap32
  omega

theorem Aligned.splitAddress_eq (hd : Aligned hhdmOffset) (hlow : hhdmOffset ≤ t)
    (hhigh : t + tagSize + n < hhdmOffset + 2 ^ 32) : splitAddress hhdmOffset t n = t + tagSize + n := by
  have := hd.fits
  rw [splitAddress, hd.wrap32_eq hlow (by omega), wrap_of_lt (by omega)]
  omega

end Pointers

/-! ### Splitting -/

section Split
variable {hhdmOffset : ℕ} {h : Liballoc} {region : ℕ → ℕ × ℕ} {T held : Set ℕ} {t : ℕ}

/-- The new tag is written and linked, and not yet in a list. -/
def place (h : Liballoc) (t new remainder : ℕ) : Liballoc :=
  let right := (h.tags t).splitRight
  let h := h.setTag new { h.tags new with
    magic := liballocMagic
    realSize := remainder
    splitLeft := t
    splitRight := right }
  let h := h.setSplitLeft right new
  h.setTag t { h.tags t with splitRight := new, realSize := sub32 (h.tags t).realSize remainder }

theorem splitTag_eq (h : Liballoc) (t : ℕ) :
    splitTag hhdmOffset h t =
      ((h.place t (splitAddress hhdmOffset t (h.tags t).size)
          (sub32 (sub32 (h.tags t).realSize tagSize) (h.tags t).size)).insertTag
        (splitAddress hhdmOffset t (h.tags t).size) (-1), splitAddress hhdmOffset t (h.tags t).size) := rfl

theorem place_freePages {new remainder : ℕ} : (h.place t new remainder).freePages = h.freePages :=
  setSplitLeft_freePages

theorem place_frames {new remainder : ℕ} : (h.place t new remainder).frames = h.frames := setSplitLeft_frames

/-- The tags become what splitting makes of the blocks. -/
theorem place_blocks {n : ℕ} (hn : 0 < n) (hlt : n < (h.tags t).realSize) (hsize : (h.tags t).realSize < 2 ^ 32)
    (hright : (h.tags t).splitRight ≠ t) (hnew : (h.tags t).splitRight ≠ t + n) (u : ℕ) :
    ((h.place t (t + n) ((h.tags t).realSize - n)).tags u).realSize = (h.blocks.split t n).size u ∧
      ((h.place t (t + n) ((h.tags t).realSize - n)).tags u).splitLeft = (h.blocks.split t n).left u ∧
      ((h.place t (t + n) ((h.tags t).realSize - n)).tags u).splitRight = (h.blocks.split t n).right u := by
  have hkept : sub32 (h.tags t).realSize ((h.tags t).realSize - n) = n := by
    unfold sub32 wrap32
    omega
  obtain ⟨hsizeNew, hsizeOld⟩ := Blocks.split_size_new (B := h.blocks) (t := t) hn
  obtain ⟨hrightNew, hrightOld⟩ := Blocks.split_right_new (B := h.blocks) (t := t) hn
  unfold place
  dsimp only
  rcases eq_or_ne u t with rfl | hu
  · rw [setTag_tags_self, setSplitLeft_tags, if_neg fun hboth => hright hboth.2.symm, setTag_tags_of_ne (by omega),
      hsizeOld, hrightOld, Blocks.split_left_of_ne (fun heq => absurd heq.symm hright) (by omega), hkept]
    exact ⟨rfl, rfl, rfl⟩
  · rw [setTag_tags_of_ne hu, setSplitLeft_tags]
    rcases eq_or_ne u (t + n) with rfl | hun
    · rw [if_neg fun hboth => hnew hboth.2.symm, setTag_tags_self, hsizeNew, hrightNew, Blocks.split_left_new]
      exact ⟨rfl, rfl, rfl⟩
    · rw [setTag_tags_of_ne hun, Blocks.split_size_of_ne hu hun, Blocks.split_right_of_ne hu hun]
      by_cases hsame : (h.tags t).splitRight ≠ 0 ∧ u = (h.tags t).splitRight
      · rw [if_pos hsame]
        refine ⟨rfl, ?_, rfl⟩
        rw [hsame.2]
        exact (Blocks.split_left_right hsame.1 hnew).symm
      · rw [if_neg hsame, Blocks.split_left_of_ne _ hun]
        · exact ⟨rfl, rfl, rfl⟩
        · intro heq
          by_contra hzero
          exact hsame ⟨hzero, heq⟩

/-- Indices, magic numbers and requested sizes of the tags that were there stay. -/
theorem place_other {new u : ℕ} (remainder : ℕ) (hu : u ≠ new) (htnew : t ≠ new) :
    ((h.place t new remainder).tags u).index = (h.tags u).index ∧
      ((h.place t new remainder).tags u).magic = (h.tags u).magic ∧
      ((h.place t new remainder).tags u).size = (h.tags u).size := by
  unfold place
  dsimp only
  rcases eq_or_ne u t with rfl | hut
  · rw [setTag_tags_self, setSplitLeft_tags, setTag_tags_of_ne hu]
    split_ifs <;> exact ⟨rfl, rfl, rfl⟩
  · rw [setTag_tags_of_ne hut, setSplitLeft_tags, setTag_tags_of_ne hu]
    split_ifs <;> exact ⟨rfl, rfl, rfl⟩

theorem place_magic {new remainder : ℕ} (hne : new ≠ t) :
    ((h.place t new remainder).tags new).magic = liballocMagic := by
  unfold place
  dsimp only
  rw [setTag_tags_of_ne hne, setSplitLeft_tags, setTag_tags_self]
  split_ifs <;> rfl

/-- A held block keeps what was asked for, and the rest is a free block behind it. -/
theorem Inv.splitTag (hinv : h.Inv hhdmOffset region T held) (hd : Aligned hhdmOffset) (ht : t ∈ held)
    (hroom : (h.tags t).size + tagSize + tagSize ≤ (h.tags t).realSize) :
    ∃ h', splitTag hhdmOffset h t = (h', t + tagSize + (h.tags t).size) ∧
      h'.Inv hhdmOffset (Function.update region (t + tagSize + (h.tags t).size) (region t))
        (insert (t + tagSize + (h.tags t).size) T) held ∧
      t + tagSize + (h.tags t).size ∉ T ∧ (∀ u ∈ held, (h'.tags u).size = (h.tags u).size) ∧
      (∀ u ∈ held, u ≠ t → (h'.tags u).realSize = (h.tags u).realSize) ∧
      (h'.tags t).realSize = tagSize + (h.tags t).size := by
  have htT := hinv.held_subset ht
  obtain ⟨hlow, hleast, hhigh⟩ := hinv.range htT
  have htag : 0 < tagSize := by decide
  have hpage : 0 < liballocPageSize := by decide
  obtain ⟨n, hn⟩ : ∃ n, n = tagSize + (h.tags t).size := ⟨_, rfl⟩
  have haddress : splitAddress hhdmOffset t (h.tags t).size = t + n := by
    rw [hd.splitAddress_eq (by omega) (by omega), hn, Nat.add_assoc]
  have hremainder : sub32 (sub32 (h.tags t).realSize tagSize) (h.tags t).size = (h.tags t).realSize - n := by
    unfold sub32 wrap32
    omega
  have hnew : t + n ∉ T := hinv.linked.new_not_mem htT (by omega) (show n < (h.tags t).realSize by omega) htag
  have hright : (h.tags t).splitRight ≠ t ∧ (h.tags t).splitRight ≠ t + n := by
    by_cases hzero : (h.tags t).splitRight = 0
    · have := hinv.linked.pos t htT
      omega
    · have hmem := (hinv.linked.right t htT hzero).1
      have heq : (h.tags t).splitRight = t + (h.tags t).realSize := (hinv.linked.right t htT hzero).2.1
      omega
  have hne : ∀ u ∈ T, u ≠ t + n := fun u hu heq => hnew (heq ▸ hu)
  have hblocks := place_blocks (h := h) (t := t) (n := n) (by omega) (by omega) (by omega) hright.1 hright.2
  have hsplit := hinv.linked.split htT htag (by omega : tagSize ≤ n) (show tagSize ≤ (h.tags t).realSize - n by omega)
  rw [splitTag_eq, haddress, hremainder, Nat.add_assoc, ← hn]
  obtain ⟨g, hg⟩ : ∃ g, g = h.place t (t + n) ((h.tags t).realSize - n) := ⟨_, rfl⟩
  have hother : ∀ u ∈ T, (g.tags u).index = (h.tags u).index ∧ (g.tags u).magic = (h.tags u).magic ∧
      (g.tags u).size = (h.tags u).size := fun u hu => hg ▸ place_other _ (hne u hu) (hne t htT)
  have hmagic : (g.tags (t + n)).magic = liballocMagic := hg ▸ place_magic (hne t htT).symm
  have hlists : g.FreeLists (insert (t + n) T) (insert (t + n) held) := by
    refine (hinv.lists.hold hnew).congr (hg ▸ place_freePages) (fun u hu hnot => ?_) fun u hu hnot => ?_
    · rw [Set.mem_insert_iff, not_or] at hnot
      exact (hother u ((Set.mem_insert_iff.mp hu).resolve_left hnot.1)).1
    · rw [Set.mem_insert_iff, not_or] at hnot
      rw [hg, (hblocks u).1]
      exact Blocks.split_size_of_ne (fun heq => hnot.2 (heq ▸ ht)) hnot.1
  have hframes : g.frames = h.frames := hg ▸ place_frames
  rw [← hg] at hblocks ⊢
  have htags : ∀ u, ∃ i, (g.insertTag (t + n) (-1)).tags u = { g.tags u with index := i } := fun u =>
    ⟨_, setIndex_tags _ u⟩
  have hindex : ∀ u ∈ T, ((g.insertTag (t + n) (-1)).tags u).index = (h.tags u).index := fun u hu =>
    (congrArg BoundaryTag.index (setTag_tags_of_ne (hne u hu))).trans (hother u hu).1
  have hsame : ∀ u, ((g.insertTag (t + n) (-1)).tags u).realSize = (g.tags u).realSize ∧
      ((g.insertTag (t + n) (-1)).tags u).splitLeft = (g.tags u).splitLeft ∧
      ((g.insertTag (t + n) (-1)).tags u).splitRight = (g.tags u).splitRight ∧
      ((g.insertTag (t + n) (-1)).tags u).magic = (g.tags u).magic ∧
      ((g.insertTag (t + n) (-1)).tags u).size = (g.tags u).size := by
    intro u
    obtain ⟨i, hi⟩ := htags u
    rw [hi]
    exact ⟨rfl, rfl, rfl, rfl, rfl⟩
  have hsizes : ∀ u, ((g.insertTag (t + n) (-1)).tags u).realSize = (h.blocks.split t n).size u := fun u =>
    (hsame u).1.trans (hblocks u).1
  refine ⟨_, rfl, ⟨?_, ?_, ?_, hinv.held_subset.trans (Set.subset_insert _ _), ?_, ?_, ?_, ?_⟩, hnew, ?_, ?_, ?_⟩
  · rw [show (g.insertTag (t + n) (-1)).frames = h.frames from hframes]
    exact hsplit.congr (fun u _ => hsizes u) (fun u _ => (hsame u).2.1.trans (hblocks u).2.1)
      fun u _ => (hsame u).2.2.1.trans (hblocks u).2.2
  · refine Set.forall_mem_insert.mpr ⟨?_, fun u hu => ?_⟩
    · rw [Function.update_self]
      exact hinv.regions t htT
    · rw [Function.update_of_ne (hne u hu)]
      exact hinv.regions u hu
  · refine Set.forall_mem_insert.mpr ⟨(hsame _).2.2.2.1.trans hmagic, fun u hu => ?_⟩
    exact ((hsame u).2.2.2.1.trans (hother u hu).2.1).trans (hinv.magic u hu)
  · exact fun u hu => (hindex u (hinv.held_subset hu)).trans (hinv.held_index u hu)
  · have hfinal := hlists.insertTag (Set.mem_insert _ _) (Set.mem_insert _ _) (rfl : g.realIndex (t + n) (-1) = _)
    rwa [Set.insert_sdiff_self_of_notMem fun hmem => hnew (hinv.held_subset hmem)] at hfinal
  · exact hframes ▸ hinv.memStart
  · exact hframes ▸ hinv.hint
  · exact fun u hu => (hsame u).2.2.2.2.trans (hother u (hinv.held_subset hu)).2.2
  · exact fun u hu hut => (hsizes u).trans (Blocks.split_size_of_ne hut (hne u (hinv.held_subset hu)))
  · rw [hsizes, hn]
    exact (Blocks.split_size_new (by omega)).2

end Split

end Liballoc

end DualFuse.Memory
