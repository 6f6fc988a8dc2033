import DualFuse.Memory.LiballocFree

/-! Runs of `malloc`, `calloc`, `realloc` and `free`. While the memory ends at 4 GiB and the direct
map begins at a multiple of 4 GiB, the pointers that are computed from lower halves are right, and
the blocks that are live stay apart from each other and from every free tag. -/

namespace DualFuse.Memory

open Library Utility

namespace Liballoc

section Free
variable {hhdmOffset : ℕ} {h : Liballoc} {region : ℕ → ℕ × ℕ} {T held K : Set ℕ} {t n size : ℕ}

/-- What is asked of the machine: the memory ends below 4 GiB. -/
structure Machine (hhdmOffset : ℕ) (frames : Bitmap) : Prop extends Aligned hhdmOffset, frames.Physical where
  below : frames.sizeInBlocks < 2 ^ 20

theorem Inv.below (hinv : h.Inv hhdmOffset region T held) (hm : Machine hhdmOffset h.frames) (ht : t ∈ T) :
    t + (h.tags t).realSize + liballocPageSize ≤ hhdmOffset + 2 ^ 32 := by
  obtain ⟨hlow, hleast, hhigh⟩ := hinv.range ht
  have hlast := (hinv.linked.covered t ht (t + (h.tags t).realSize - 1) (by unfold tagSize at *; omega)
    (show _ < t + (h.tags t).realSize by unfold tagSize at *; omega)).inside
  have hbelow := hm.below
  unfold liballocPageSize tagSize at *
  omega

/-- The block in front of a payload. -/
theorem Inv.tagOfPointer_eq (hinv : h.Inv hhdmOffset region T held) (hm : Machine hhdmOffset h.frames) (ht : t ∈ T) :
    tagOfPointer hhdmOffset (t + tagSize) = t := by
  obtain ⟨hlow, hleast, hhigh⟩ := hinv.range ht
  have hbelow := hinv.below hm ht
  have hmod := hm.low
  have hfits := hm.fits
  unfold tagOfPointer sub64 wrap wrap32 liballocPageSize tagSize at *
  omega

theorem Inv.pointerOfTag_eq (hinv : h.Inv hhdmOffset region T held) (hm : Machine hhdmOffset h.frames) (ht : t ∈ T) :
    pointerOfTag hhdmOffset t = t + tagSize := by
  obtain ⟨hlow, hleast, hhigh⟩ := hinv.range ht
  have hbelow := hinv.below hm ht
  have hmod := hm.low
  have hfits := hm.fits
  unfold pointerOfTag wrap wrap32 liballocPageSize tagSize at *
  omega

theorem removeTag_frames : (h.removeTag t).frames = h.frames := rfl

/-- The frames are not touched. -/
theorem meltLeftAll_frames {h' : Liballoc} {t' : ℕ} (hmelt : h.meltLeftAll t n = .ok (h', t')) :
    h'.frames = h.frames := by
  induction n generalizing h t with
  | zero => cases hmelt
  | succ n ih =>
    rw [meltLeftAll] at hmelt
    split at hmelt
    · exact (ih hmelt).trans merge_frames
    · cases hmelt
      rfl

theorem absorbRightAll_frames {h' : Liballoc} (habsorb : h.absorbRightAll t n = .ok h') : h'.frames = h.frames := by
  induction n generalizing h with
  | zero => cases habsorb
  | succ n ih =>
    rw [absorbRightAll] at habsorb
    split at habsorb
    · exact (ih habsorb).trans merge_frames
    · cases habsorb
      rfl

/-- `free` of a live block. -/
theorem Inv.free (hinv : h.Inv hhdmOffset region T (insert t K)) (hc : h.Complete)
    (hm : Machine hhdmOffset h.frames) (ht : t ∉ K) :
    ∃ h' T', h.free hhdmOffset (t + tagSize) = .ok h' ∧ h'.Inv hhdmOffset region T' K ∧ h'.Complete ∧ h.Keeps h' K ∧
      Machine hhdmOffset h'.frames ∧ h'.frames.sizeInBlocks = h.frames.sizeInBlocks := by
  have htT := hinv.held_subset (Set.mem_insert t K)
  obtain ⟨h₁, t₁, T₁, hmelt, hinv₁, hc₁, ht₁, hkeeps₁⟩ := hinv.meltLeftAll (Nat.lt_succ_self t) hc ht
  obtain ⟨-, -, hhigh⟩ := hinv₁.range (hinv₁.held_subset (Set.mem_insert t₁ K))
  obtain ⟨h₂, T₂, habsorb, hinv₂, hc₂, hkeeps₂⟩ := hinv₁.absorbRightAll (n := 2 ^ 64) (by omega) hc₁ ht₁
  have hframes : h₂.frames = h.frames := (absorbRightAll_frames habsorb).trans (meltLeftAll_frames hmelt)
  obtain ⟨h₃, T₃, hgive, hinv₃, hc₃, hkeeps₃, hp₃, hsize₃⟩ :=
    hinv₂.giveBack hc₂ hm.toAligned ht₁ (hframes ▸ hm.toPhysical)
  have hsize : h₃.frames.sizeInBlocks = h.frames.sizeInBlocks := hsize₃.trans (hframes ▸ rfl)
  refine ⟨h₃, T₃, ?_, hinv₃, hc₃, hkeeps₁.trans (hkeeps₂.trans hkeeps₃), ⟨hm.toAligned, hp₃, hsize ▸ hm.below⟩, hsize⟩
  rw [Liballoc.free, if_neg (by unfold tagSize; omega)]
  dsimp only
  rw [hinv.tagOfPointer_eq hm htT, if_neg (not_not.mpr (hinv.magic t htT)), hmelt, Exec.ok_bind]
  dsimp only
  rw [habsorb, Exec.ok_bind, hgive]

end Free

section Take
variable {hhdmOffset : ℕ} {h h' : Liballoc} {region : ℕ → ℕ × ℕ} {T held : Set ℕ} {t size : ℕ}

/-- The block at `t` was taken, and all that was held before is as it was. -/
structure Taken (hhdmOffset : ℕ) (h h' : Liballoc) (held : Set ℕ) (t size : ℕ) : Prop where
  inv : ∃ region T, h'.Inv hhdmOffset region T (insert t held)
  complete : h'.Complete
  fresh : t ∉ held
  room : tagSize + size ≤ (h'.tags t).realSize
  keeps : h.Keeps h' held
  machine : Machine hhdmOffset h'.frames
  blocks : h'.frames.sizeInBlocks = h.frames.sizeInBlocks

theorem Taken.ne_zero (htaken : Taken hhdmOffset h h' held t size) : t ≠ 0 := by
  obtain ⟨region, T, hinv⟩ := htaken.inv
  exact (hinv.linked.pos t (hinv.held_subset (Set.mem_insert t held))).ne'

/-- Enough whole pages. -/
theorem neededPages_spec {bytes : ℕ} (hbytes : bytes < 2 ^ 32) :
    liballocPageCount ≤ neededPages bytes ∧ bytes ≤ neededPages bytes * liballocPageSize ∧
      neededPages bytes ≤ 2 ^ 20 := by
  unfold neededPages liballocPageCount liballocPageSize
  dsimp only
  split_ifs <;> omega

/-- Free frames are not covered. -/
theorem not_covered {s n : ℕ} {frames : Bitmap} (hrun : frames.FreeRun n s) {a : ℕ}
    (hlo : hhdmOffset + s * liballocPageSize ≤ a)
    (hhi : a < hhdmOffset + s * liballocPageSize + n * liballocPageSize) :
    ¬Covered hhdmOffset frames a := by
  rintro ⟨-, -, -, hused⟩
  unfold liballocPageSize at *
  rw [hrun.get (by omega) (by omega)] at hused
  cases hused

/-- More frames in use cover more. -/
theorem Covered.mono {frames frames' : Bitmap} {lo hi a : ℕ} (h : Covered hhdmOffset frames a)
    (hmarked : frames.Marked frames' lo hi true) : Covered hhdmOffset frames' a := by
  refine ⟨h.low, h.high, hmarked.blocks.symm ▸ h.inside, ?_⟩
  rw [hmarked.get, h.used, ite_self]

/-- A new tag in frames that were free. -/
theorem Inv.add (hinv : h.Inv hhdmOffset region T held) (hm : Machine hhdmOffset h.frames) {s n : ℕ} {frames : Bitmap}
    (hrun : h.frames.FreeRun n s) (hs : 1 ≤ s) (hn : liballocPageCount ≤ n)
    (hmarked : h.frames.Marked frames s (s + n) true) (hp : frames.Physical) {tag : BoundaryTag}
    (hmagic : tag.magic = liballocMagic) (hsize : tag.realSize = n * liballocPageSize) (hindex : tag.index = -1)
    (hleft : tag.splitLeft = 0) (hright : tag.splitRight = 0) :
    hhdmOffset + s * liballocPageSize ∉ T ∧
      ∃ region', Inv hhdmOffset (setTag { h with frames := frames } (hhdmOffset + s * liballocPageSize) tag) region'
        (insert (hhdmOffset + s * liballocPageSize) T) (insert (hhdmOffset + s * liballocPageSize) held) := by
  have hend : s + n ≤ h.frames.sizeInBlocks := hrun.1
  have hbelow := hm.below
  have hcovered : ∀ a, hhdmOffset + s * liballocPageSize ≤ a →
      a < hhdmOffset + s * liballocPageSize + n * liballocPageSize → Covered hhdmOffset frames a := by
    intro a hlo hhi
    unfold liballocPageSize at hlo hhi
    refine ⟨by unfold liballocPageSize; omega, by omega, by rw [hmarked.blocks]; unfold liballocPageSize; omega, ?_⟩
    exact hmarked.get_inside (by unfold liballocPageSize; omega) (by unfold liballocPageSize; omega)
  have hfree : ∀ a, hhdmOffset + s * liballocPageSize ≤ a →
      a < hhdmOffset + s * liballocPageSize + n * liballocPageSize → ¬Covered hhdmOffset h.frames a :=
    fun a hlo hhi => not_covered hrun hlo hhi
  obtain ⟨t, ht⟩ : ∃ t, t = hhdmOffset + s * liballocPageSize := ⟨_, rfl⟩
  obtain ⟨m, hsizeEq⟩ : ∃ m, m = n * liballocPageSize := ⟨_, rfl⟩
  rw [← ht, ← hsizeEq] at hcovered hfree
  rw [← hsizeEq] at hsize
  rw [← ht]
  have hroom : tagSize ≤ m := by
    unfold tagSize liballocPageCount liballocPageSize at *
    omega
  have hpos : 0 < m := lt_of_lt_of_le (by decide) hroom
  have hapart : ∀ u ∈ T, t + m ≤ u ∨ u + (h.tags u).realSize ≤ t := by
    intro u hu
    by_contra hboth
    have hleast := (hinv.range hu).2.1
    refine hfree (max t u) (le_max_left t u) (by omega) (hinv.linked.covered u hu _ (le_max_right t u) ?_)
    change max t u < u + (h.tags u).realSize
    have : 0 < (h.tags u).realSize := lt_of_lt_of_le (by decide) hleast
    omega
  have hnew : t ∉ T := fun hmem => by
    have hleast := (hinv.range hmem).2.1
    have : 0 < (h.tags t).realSize := lt_of_lt_of_le (by decide) hleast
    have := hapart t hmem
    omega
  refine ⟨hnew, Function.update region t (t, t + m), ?_⟩
  obtain ⟨g, hg⟩ : ∃ g, g = setTag { h with frames := frames } t tag := ⟨_, rfl⟩
  have hself : g.tags t = tag := hg ▸ setTag_tags_self
  have hother : ∀ u ∈ T, g.tags u = h.tags u := fun u hu => by
    rw [hg]
    exact setTag_tags_of_ne fun heq => hnew (heq ▸ hu)
  have hframes : g.frames = frames := hg ▸ rfl
  have hnewSize : g.blocks.size t = m := (congrArg BoundaryTag.realSize hself).trans hsize
  have hold : g.blocks.Linked tagSize region (Covered hhdmOffset frames) T := by
    have hlinked : h.blocks.Linked tagSize region (Covered hhdmOffset frames) T :=
      { hinv.linked with covered := fun u hu a hlo hhi => (hinv.linked.covered u hu a hlo hhi).mono hmarked }
    apply hlinked.congr
    · exact fun u hu => congrArg BoundaryTag.realSize (hother u hu)
    · exact fun u hu => congrArg BoundaryTag.splitLeft (hother u hu)
    · exact fun u hu => congrArg BoundaryTag.splitRight (hother u hu)
  have hadd := hold.add (t := t) (by unfold liballocPageSize at ht; omega) (hnewSize.symm ▸ hroom)
    ((congrArg BoundaryTag.splitLeft hself).trans hleft) ((congrArg BoundaryTag.splitRight hself).trans hright)
    (hnewSize.symm ▸ hcovered) hnew fun u hu => by
      rw [hnewSize, show g.blocks.size u = (h.tags u).realSize from congrArg BoundaryTag.realSize (hother u hu)]
      exact hapart u hu
  rw [hnewSize] at hadd
  rw [← hg]
  refine ⟨by rwa [hframes], ?_, ?_, Set.insert_subset_insert hinv.held_subset, ?_, ?_, hframes ▸ hp.memStart,
    hframes ▸ hp.hint⟩
  · refine Set.forall_mem_insert.mpr ⟨?_, fun u hu => ?_⟩
    · rw [Function.update_self]
      refine ⟨by omega, ?_, ?_, ?_⟩
      · rw [ht, Nat.add_sub_cancel_left, Nat.mul_mod_left]
      · rw [Nat.add_sub_cancel_left, hsizeEq, Nat.mul_mod_left]
      · rw [Nat.add_sub_cancel_left, hsizeEq]
        exact Nat.mul_le_mul_right _ hn
    · rw [Function.update_of_ne fun heq : u = t => hnew (heq ▸ hu)]
      exact hinv.regions u hu
  · exact Set.forall_mem_insert.mpr ⟨by rw [hself, hmagic], fun u hu => by rw [hother u hu, hinv.magic u hu]⟩
  · exact Set.forall_mem_insert.mpr ⟨by rw [hself, hindex], fun u hu => by
      rw [hother u (hinv.held_subset hu), hinv.held_index u hu]⟩
  · refine (hinv.lists.hold hnew).congr (hg ▸ rfl) (fun u hu hnot => ?_) fun u hu hnot => ?_
    · rw [Set.mem_insert_iff, not_or] at hnot
      rw [hother u ((Set.mem_insert_iff.mp hu).resolve_left hnot.1)]
    · rw [Set.mem_insert_iff, not_or] at hnot
      rw [hother u ((Set.mem_insert_iff.mp hu).resolve_left hnot.1)]

/-- `allocate_new_tag` finds frames, or the machine halts. -/
theorem Inv.allocateNewTag (hinv : h.Inv hhdmOffset region T held) (hc : h.Complete)
    (hm : Machine hhdmOffset h.frames) (hsize : size + tagSize < 2 ^ 32) :
    allocateNewTag hhdmOffset h size = .error .halt ∨
      ∃ h' t, allocateNewTag hhdmOffset h size = .ok (h', t) ∧ Taken hhdmOffset h h' held t size := by
  have hwrap : wrap32 (size + tagSize) = size + tagSize := Nat.mod_eq_of_lt hsize
  obtain ⟨hleast, hroom, hmost⟩ := neededPages_spec hsize
  obtain ⟨n, hn⟩ : ∃ n, n = neededPages (size + tagSize) := ⟨_, rfl⟩
  rw [← hn] at hleast hroom hmost
  rw [Liballoc.allocateNewTag, hwrap, ← hn]
  rcases physicalAllocate_spec hm.toPhysical (n := n) (by unfold liballocPageCount at hleast; omega) (by omega) with
    ⟨-, hnone⟩ | ⟨s, frames, ⟨hrun, -⟩, hs, hmarked, hp, hframes⟩
  · left
    rw [liballocAlloc, hnone]
    rfl
  · right
    have hend : s + n ≤ h.frames.sizeInBlocks := hrun.1
    have hbelow := hm.below
    have hfits := hm.fits
    have hpointer : wrap (s * blockSize + hhdmOffset) = hhdmOffset + s * liballocPageSize := by
      unfold blockSize liballocPageSize wrap
      omega
    have hreal : wrap32 (n * liballocPageSize) = n * liballocPageSize := by
      unfold wrap32 liballocPageSize
      omega
    obtain ⟨tag, htag⟩ : ∃ tag : BoundaryTag, tag = ⟨liballocMagic, size, n * liballocPageSize, -1, 0, 0⟩ := ⟨_, rfl⟩
    obtain ⟨hnew, region', hinv'⟩ := @Inv.add _ _ _ _ _ hinv hm s n frames hrun hs hleast hmarked hp tag (htag ▸ rfl) (htag ▸ rfl)
      (htag ▸ rfl) (htag ▸ rfl) (htag ▸ rfl)
    obtain ⟨t, ht⟩ : ∃ t, t = hhdmOffset + s * liballocPageSize := ⟨_, rfl⟩
    rw [← ht] at hnew hinv' hpointer
    have hother : ∀ u ∈ T, (setTag { h with frames := frames } t tag).tags u = h.tags u := fun u hu =>
      setTag_tags_of_ne fun heq => hnew (heq ▸ hu)
    have hzero : t ≠ 0 := by
      unfold liballocPageSize at ht
      omega
    refine ⟨_, t, ?_, ⟨region', _, hinv'⟩, ?_, fun hmem => hnew (hinv.held_subset hmem), ?_, fun u hu => ?_,
      ⟨hm.toAligned, hp, ?_⟩, hmarked.blocks⟩
    · rw [liballocAlloc, hframes]
      dsimp only [Exec.ok_bind]
      rw [if_neg Bool.false_ne_true, hpointer]
      dsimp only [Exec.ok_bind]
      rw [if_neg hzero, hreal, htag]
    · refine hc.congr rfl rfl fun i u hu => ?_
      have htags := hother u ((hinv.lists.mem_iff u i).mp hu).1
      exact whole_congr (by rw [htags]) (by rw [htags])
    · rw [setTag_tags_self, htag]
      dsimp only
      omega
    · rw [hother u (hinv.held_subset hu)]
      exact ⟨rfl, rfl⟩
    · exact hmarked.blocks ▸ hm.below

/-- A free tag that is large enough, or a new one. -/
theorem Inv.takeTag (hinv : h.Inv hhdmOffset region T held) (hc : h.Complete) (hm : Machine hhdmOffset h.frames)
    (hsize : size + tagSize < 2 ^ 32) :
    takeTag hhdmOffset h size = .error .halt ∨
      ∃ h' t, takeTag hhdmOffset h size = .ok (h', t) ∧ Taken hhdmOffset h h' held t size := by
  have hwrap : wrap32 size = size := Nat.mod_eq_of_lt (by omega)
  rw [Liballoc.takeTag, hwrap]
  obtain ⟨index, hindex⟩ : ∃ index, index = max (getexp size) minExp := ⟨_, rfl⟩
  rw [← hindex]
  cases hfind : h.findTag index size with
  | none => exact hinv.allocateNewTag hc hm hsize
  | some t =>
    right
    have hlarge := List.find?_some hfind
    have hmem := List.mem_of_find?_eq_some hfind
    obtain ⟨htT, hfree, hi⟩ := (hinv.lists.mem_iff t index).mp hmem
    obtain ⟨hlow, hleast, hhigh⟩ := hinv.range htT
    have hroom : tagSize + size ≤ (h.tags t).realSize := by
      rw [decide_eq_true_eq] at hlarge
      unfold sub64 wrap liballocPageSize tagSize at *
      omega
    have hwhole : (h.removeTag t).whole t = h.whole t := congrFun (setIndex_whole (-1)) t
    have hremoved := hinv.removeTag htT hfree
    have hreal : ((h.removeTag t).tags t).realSize = (h.tags t).realSize :=
      (keeps_removeTag (h := h) (t := t) Set.univ t trivial).2
    have htaken (count : ℤ → ℤ)
        (hcount : ∀ i, count i + (if i = (h.tags t).index ∧ h.whole t then 1 else 0) ≤ h.completePages i) :
        Taken hhdmOffset h { h.removeTag t with completePages := count } held t size := by
      refine ⟨⟨region, T, ?_⟩, hc.removeTag (hi ▸ hmem) count hcount, hfree, by rwa [hreal], keeps_removeTag held, hm,
        rfl⟩
      exact ⟨hremoved.linked, hremoved.regions, hremoved.magic, hremoved.held_subset, hremoved.held_index,
        ⟨hremoved.lists.mem_iff, hremoved.lists.index_eq, hremoved.lists.nodup⟩, hremoved.memStart, hremoved.hint⟩
    refine ⟨_, t, rfl, ?_⟩
    by_cases hw : h.whole t = true
    · rw [if_pos (of_decide_eq_true (hwhole.trans hw))]
      refine htaken _ fun i => ?_
      change Function.update h.completePages index (h.completePages index - 1) i + _ ≤ _
      rcases eq_or_ne i index with heq | hne
      · rw [heq, Function.update_self, if_pos ⟨hi.symm, hw⟩, sub_add_cancel]
      · rw [Function.update_of_ne hne, if_neg fun hboth => hne (hboth.1.trans hi), add_zero]
    · rw [if_neg (of_decide_eq_false (hwhole.trans (Bool.not_eq_true _ ▸ hw)))]
      refine htaken h.completePages fun i => ?_
      rw [if_neg fun hboth => hw hboth.2, add_zero]

/-- The size that was asked for is written into the tag. -/
theorem Taken.setSize (htaken : Taken hhdmOffset h h' held t size) :
    Taken hhdmOffset h (h'.setTag t { h'.tags t with size := size }) held t size := by
  obtain ⟨⟨region, T, hinv⟩, hc, hfresh, hroom, hkeeps, hm, hblocks⟩ := htaken
  obtain ⟨g, hg⟩ : ∃ g, g = h'.setTag t { h'.tags t with size := size } := ⟨_, rfl⟩
  have hself : g.tags t = { h'.tags t with size := size } := hg ▸ setTag_tags_self
  have hother : ∀ u, u ≠ t → g.tags u = h'.tags u := fun u hu => hg ▸ setTag_tags_of_ne hu
  have htags : ∀ u, ∃ s, g.tags u = { h'.tags u with size := s } := by
    intro u
    rcases eq_or_ne u t with rfl | hu
    · exact ⟨size, hself⟩
    · exact ⟨(h'.tags u).size, hother u hu⟩
  have hsame : ∀ u, (g.tags u).index = (h'.tags u).index ∧ (g.tags u).realSize = (h'.tags u).realSize ∧
      g.whole u = h'.whole u := by
    intro u
    obtain ⟨s, hs⟩ := htags u
    rw [hs]
    exact ⟨rfl, rfl, whole_congr (by rw [hs]) (by rw [hs])⟩
  have hpages : g.freePages = h'.freePages := hg ▸ rfl
  have hlists : g.FreeLists T (insert t held) :=
    hinv.lists.congr hpages (fun u _ _ => (hsame u).1) fun u _ _ => (hsame u).2.1
  rw [← hg]
  refine ⟨⟨region, T, hinv.of_lists (fun u _ => ?_) (hg ▸ rfl) hinv.held_subset (fun u hu => ?_) hlists⟩,
    hc.congr (hg ▸ rfl) hpages fun i u _ => (hsame u).2.2, hfresh, (hsame t).2.1 ▸ hroom, fun u hu => ?_, hg ▸ hm,
    hg ▸ hblocks⟩
  · obtain ⟨s, hs⟩ := htags u
    exact ⟨(h'.tags u).index, s, hs⟩
  · exact (hsame u).1.trans (hinv.held_index u hu)
  · rw [hother u fun heq => hfresh (heq ▸ hu)]
    exact hkeeps u hu

theorem place_tags_of_ne {new remainder u : ℕ} (hu : u ≠ t) (hnew : u ≠ new) :
    (h.place t new remainder).tags u = if (h.tags t).splitRight ≠ 0 ∧ u = (h.tags t).splitRight then
      { h.tags u with splitLeft := new } else h.tags u := by
  unfold place
  dsimp only
  rw [setTag_tags_of_ne hu, setSplitLeft_tags, setTag_tags_of_ne hnew]

theorem place_completePages {new remainder : ℕ} : (h.place t new remainder).completePages = h.completePages := by
  unfold place setSplitLeft
  dsimp only
  split_ifs <;> rfl

/-- Neither part of a block that is split is a whole region. -/
theorem Complete.splitTag (hc : h.Complete) (hinv : h.Inv hhdmOffset region T held) (ht : t ∈ held)
    (hnew : splitAddress hhdmOffset t (h.tags t).size ∉ T) (hzero : splitAddress hhdmOffset t (h.tags t).size ≠ 0) :
    (splitTag hhdmOffset h t).1.Complete := by
  rw [splitTag_eq]
  obtain ⟨new, hn⟩ : ∃ new, new = splitAddress hhdmOffset t (h.tags t).size := ⟨_, rfl⟩
  rw [← hn] at hnew hzero ⊢
  have htT := hinv.held_subset ht
  obtain ⟨g, hg⟩ : ∃ g, g = h.place t new (sub32 (sub32 (h.tags t).realSize tagSize) (h.tags t).size) := ⟨_, rfl⟩
  have hplaced : g.Complete := by
    refine hc.congr (hg ▸ place_completePages) (hg ▸ place_freePages) fun i u hu => ?_
    obtain ⟨huT, hnot, -⟩ := (hinv.lists.mem_iff u i).mp hu
    have htags := @place_tags_of_ne h t new (sub32 (sub32 (h.tags t).realSize tagSize) (h.tags t).size) u
      (fun heq => hnot (heq ▸ ht) : u ≠ t) (fun heq => hnew (heq ▸ huT) : u ≠ new)
    rw [← hg] at htags
    by_cases hsame : (h.tags t).splitRight ≠ 0 ∧ u = (h.tags t).splitRight
    · have hback : (h.tags u).splitLeft = t := hsame.2 ▸ (hinv.right_eq htT hsame.1).2.2
      have htpos := hinv.linked.pos t htT
      rw [if_pos hsame] at htags
      rw [whole_eq_false_of_left (t := u) (h := h) (by rw [hback]; omega), whole_eq_false_of_left]
      rw [htags]
      exact hzero
    · rw [if_neg hsame] at htags
      exact whole_congr (by rw [htags]) (by rw [htags])
  rw [← hg]
  refine hplaced.insertTag g.completePages fun i => ?_
  split <;> omega

/-- What is behind the payload is split off. -/
theorem Taken.splitExcess (htaken : Taken hhdmOffset h h' held t size) (hsize : (h'.tags t).size = size) :
    Taken hhdmOffset h (splitExcess hhdmOffset h' t size) held t size ∧
      ((splitExcess hhdmOffset h' t size).tags t).size = size := by
  obtain ⟨⟨region, T, hinv⟩, hc, hfresh, hroom, hkeeps, hmachine, hblocks⟩ := htaken
  have htheld : t ∈ insert t held := Set.mem_insert t held
  obtain ⟨hlow, hleast, hhigh⟩ := hinv.range (hinv.held_subset htheld)
  rw [Liballoc.splitExcess]
  split_ifs with hsplit
  · obtain ⟨hpos, hsmall, hindex⟩ := hsplit
    rw [getexp_nonneg_iff] at hindex
    have hfits : (h'.tags t).size + tagSize + tagSize ≤ (h'.tags t).realSize := by
      rw [hsize]
      unfold sub32 wrap32 tagSize liballocPageSize at *
      omega
    have haddress : splitAddress hhdmOffset t (h'.tags t).size = t + tagSize + (h'.tags t).size := by
      apply hmachine.splitAddress_eq (by omega)
      unfold tagSize at *
      omega
    obtain ⟨g, hg, hinv', hnew, hsizes, hreals, hself⟩ := hinv.splitTag hmachine.toAligned htheld hfits
    have hcomplete := hc.splitTag hinv htheld (by rwa [haddress]) (by rw [haddress]; unfold tagSize; omega)
    have hframes : (splitTag hhdmOffset h' t).1.frames = h'.frames := by
      rw [splitTag_eq]
      exact place_frames
    rw [hg] at hcomplete hframes ⊢
    refine ⟨⟨⟨_, _, hinv'⟩, hcomplete, hfresh, ?_, fun u hu => ?_, hframes ▸ hmachine, hframes ▸ hblocks⟩, ?_⟩
    · rw [hself, hsize]
    · have hne : u ≠ t := fun heq => hfresh (heq ▸ hu)
      rw [hsizes u (Set.mem_insert_of_mem t hu), hreals u (Set.mem_insert_of_mem t hu) hne]
      exact hkeeps u hu
    · rw [hsizes t htheld, hsize]
  · exact ⟨⟨⟨region, T, hinv⟩, hc, hfresh, hroom, hkeeps, hmachine, hblocks⟩, hsize⟩

/-- `malloc` takes a block with room for the payload, or the machine halts. -/
theorem Inv.malloc (hinv : h.Inv hhdmOffset region T held) (hc : h.Complete) (hm : Machine hhdmOffset h.frames)
    (hsize : size + tagSize < 2 ^ 32) :
    malloc hhdmOffset h size = .error .halt ∨
      ∃ h' t, malloc hhdmOffset h size = .ok (h', t + tagSize) ∧ Taken hhdmOffset h h' held t size ∧
        (h'.tags t).size = size := by
  have hwrap : wrap32 size = size := Nat.mod_eq_of_lt (by omega)
  rw [Liballoc.malloc]
  rcases hinv.takeTag hc hm hsize with htake | ⟨g, t, htake, htaken⟩
  · left
    rw [htake]
    rfl
  · right
    obtain ⟨hsplit, hkept⟩ := htaken.setSize.splitExcess (congrArg BoundaryTag.size setTag_tags_self)
    obtain ⟨region', T', hinv'⟩ := htaken.inv
    have hpointer := hinv'.pointerOfTag_eq htaken.machine (hinv'.held_subset (Set.mem_insert t held))
    refine ⟨_, t, ?_, hsplit, hkept⟩
    rw [htake, Exec.ok_bind]
    dsimp only
    rw [if_neg htaken.ne_zero, hwrap, hpointer]

end Take

end Liballoc

/-! ### Runs -/

namespace KernelHeap

open Liballoc

/-- Nothing is allocated yet, and the memory holds anything. -/
def start (tags : ℕ → BoundaryTag) (frames : Bitmap) : KernelHeap :=
  ⟨⟨tags, fun _ => [], fun _ => 0, frames⟩, []⟩

/-- The tags of the live blocks. -/
def held (s : KernelHeap) : Set ℕ := {t | ∃ b ∈ s.live, b.ptr = t + tagSize}

/-- A pointer is null or that of a live block, and the sizes are such that the `int`s hold them. Others
leave the frames of the heap in use. -/
def Valid (hhdmOffset : ℕ) (s : KernelHeap) : HeapCall → Prop
  | .malloc size => size + tagSize < 2 ^ 32
  | .calloc nobj size => nobj * size < 2 ^ 31
  | .free ptr => ptr = 0 ∨ ∃ b ∈ s.live, b.ptr = ptr
  | .realloc ptr size =>
    size + tagSize < 2 ^ 32 ∧
      (ptr = 0 ∨ ∃ b ∈ s.live, b.ptr = ptr ∧ (size = 0 ∨ size < 2 ^ 31 ∧ b.size < 2 ^ 31))
  | .others frames =>
    frames.Physical ∧ frames.sizeInBlocks = s.heap.frames.sizeInBlocks ∧
      ∀ t, t ∈ s.held ∨ (∃ i, t ∈ s.heap.freePages i) → ∀ a, t ≤ a → a < t + (s.heap.tags t).realSize →
        frames.get ((a - hhdmOffset) / liballocPageSize) = true

/-- The pointer of a live block leads to its tag, its bytes are in frames in use, and no other live
block and no free tag is on them. -/
structure Sound (hhdmOffset : ℕ) (s : KernelHeap) : Prop where
  recovered : ∀ b ∈ s.live, tagOfPointer hhdmOffset b.ptr + tagSize = b.ptr ∧
    (s.heap.tags (tagOfPointer hhdmOffset b.ptr)).magic = liballocMagic ∧
    (s.heap.tags (tagOfPointer hhdmOffset b.ptr)).size = b.size
  mapped : ∀ b ∈ s.live, ∀ a, b.ptr - tagSize ≤ a → a < b.ptr + b.size → Covered hhdmOffset s.heap.frames a
  apart : s.live.Pairwise fun b c => b.ptr + b.size ≤ c.ptr - tagSize ∨ c.ptr + c.size ≤ b.ptr - tagSize
  free_apart : ∀ i, ∀ t ∈ s.heap.freePages i, ∀ b ∈ s.live, t + tagSize ≤ b.ptr - tagSize ∨ b.ptr + b.size ≤ t

/-- What every call keeps. -/
structure Kept (hhdmOffset : ℕ) (s : KernelHeap) : Prop where
  inv : ∃ region T, s.heap.Inv hhdmOffset region T s.held
  complete : s.heap.Complete
  machine : Machine hhdmOffset s.heap.frames
  nodup : (s.live.map (·.ptr)).Nodup
  block : ∀ b ∈ s.live, ∃ t, b.ptr = t + tagSize ∧ (s.heap.tags t).size = b.size ∧
    tagSize + b.size ≤ (s.heap.tags t).realSize

variable {hhdmOffset : ℕ} {s : KernelHeap} {size ptr : ℕ}

theorem start_kept {frames : Bitmap} (hm : Machine hhdmOffset frames) (tags : ℕ → BoundaryTag) :
    (start tags frames).Kept hhdmOffset := by
  have hheld : (start tags frames).held = ∅ := by
    ext t
    simp [held, start]
  refine ⟨⟨fun _ => (0, 0), ∅, ?_⟩, fun i => le_rfl, hm, List.nodup_nil, fun b hb => absurd hb List.not_mem_nil⟩
  rw [hheld]
  refine ⟨⟨?_, ?_, ?_, ?_, ?_, ?_, ?_, ?_, ?_, ?_⟩, ?_, ?_, Set.Subset.rfl, ?_, ⟨?_, ?_, ?_⟩, hm.memStart, hm.hint⟩
  all_goals simp [start]

/-- The blocks of the tags that are held. -/
theorem Kept.sound (hs : s.Kept hhdmOffset) : s.Sound hhdmOffset := by
  obtain ⟨region, T, hinv⟩ := hs.inv
  have htag : ∀ b ∈ s.live, ∃ t ∈ T, t ∈ s.held ∧ b.ptr = t + tagSize ∧ (s.heap.tags t).size = b.size ∧
      tagSize + b.size ≤ (s.heap.tags t).realSize := by
    intro b hb
    obtain ⟨t, hptr, hsize, hroom⟩ := hs.block b hb
    exact ⟨t, hinv.held_subset ⟨b, hb, hptr⟩, ⟨b, hb, hptr⟩, hptr, hsize, hroom⟩
  refine ⟨fun b hb => ?_, fun b hb a hlo hhi => ?_, ?_, fun i u hu b hb => ?_⟩
  · obtain ⟨t, htT, -, hptr, hsize, -⟩ := htag b hb
    rw [hptr, hinv.tagOfPointer_eq hs.machine htT]
    exact ⟨rfl, hinv.magic t htT, hsize⟩
  · obtain ⟨t, htT, -, hptr, -, hroom⟩ := htag b hb
    exact hinv.linked.covered t htT a (by omega) (show a < t + (s.heap.tags t).realSize by omega)
  · refine List.Pairwise.imp_of_mem ?_ (List.pairwise_map.mp hs.nodup)
    intro b c hb hc hne
    obtain ⟨t, htT, -, hptr, -, hroom⟩ := htag b hb
    obtain ⟨u, huT, -, hptr', -, hroom'⟩ := htag c hc
    have hapart : t + (s.heap.tags t).realSize ≤ u ∨ u + (s.heap.tags u).realSize ≤ t :=
      hinv.linked.apart t htT u huT fun heq => hne (by rw [hptr, hptr', heq])
    omega
  · obtain ⟨t, htT, hheld, hptr, -, hroom⟩ := htag b hb
    obtain ⟨huT, hfree, -⟩ := (hinv.lists.mem_iff u i).mp hu
    have hleast := (hinv.range huT).2.1
    have hapart : u + (s.heap.tags u).realSize ≤ t ∨ t + (s.heap.tags t).realSize ≤ u :=
      hinv.linked.apart u huT t htT fun heq => hfree (heq ▸ hheld)
    omega

/-- `malloc` adds a live block, or the machine halts. -/
theorem Kept.allocate (hs : s.Kept hhdmOffset) (hsize : size + tagSize < 2 ^ 32) :
    s.allocate hhdmOffset size size = .error .halt ∨
      ∃ s' ptr, s.allocate hhdmOffset size size = .ok (s', ptr) ∧ s'.Kept hhdmOffset ∧
        s'.live = ⟨ptr, size⟩ :: s.live ∧ ∀ b ∈ s.live, b.ptr ≠ ptr := by
  obtain ⟨region, T, hinv⟩ := hs.inv
  rw [KernelHeap.allocate]
  rcases hinv.malloc hs.complete hs.machine hsize with hmalloc | ⟨h', t, hmalloc, htaken, hself⟩
  · left
    rw [hmalloc]
    rfl
  · right
    have hne : ∀ b ∈ s.live, b.ptr ≠ t + tagSize := fun b hb heq => htaken.fresh ⟨b, hb, heq⟩
    refine ⟨⟨h', ⟨t + tagSize, size⟩ :: s.live⟩, t + tagSize, ?_, ⟨?_, htaken.complete, htaken.machine, ?_, ?_⟩, rfl,
      hne⟩
    · rw [hmalloc, Exec.ok_bind]
      dsimp only
      rw [if_neg (by unfold tagSize; omega)]
    · obtain ⟨region', T', hinv'⟩ := htaken.inv
      have hheld : held ⟨h', ⟨t + tagSize, size⟩ :: s.live⟩ = insert t s.held := by
        ext u
        simp only [held, List.mem_cons, exists_eq_or_imp, Set.mem_ofPred_eq, Set.mem_insert_iff,
          Nat.add_right_cancel_iff]
        rw [eq_comm]
      exact ⟨region', T', hheld ▸ hinv'⟩
    · rw [List.map_cons, List.nodup_cons]
      refine ⟨fun hmem => ?_, hs.nodup⟩
      obtain ⟨b, hb, heq⟩ := List.mem_map.mp hmem
      exact hne b hb heq
    · refine List.forall_mem_cons.mpr ⟨⟨t, rfl, hself, htaken.room⟩, fun b hb => ?_⟩
      obtain ⟨u, hptr, husize, hroom⟩ := hs.block b hb
      obtain ⟨hsizeEq, hrealEq⟩ := htaken.keeps u ⟨b, hb, hptr⟩
      exact ⟨u, hptr, hsizeEq.trans husize, hrealEq.symm ▸ hroom⟩

/-- `free` of a live block takes it away. -/
theorem Kept.release (hs : s.Kept hhdmOffset) (hptr : ptr = 0 ∨ ∃ b ∈ s.live, b.ptr = ptr) :
    ∃ s', s.release hhdmOffset ptr = .ok s' ∧ s'.Kept hhdmOffset := by
  obtain ⟨region, T, hinv⟩ := hs.inv
  rcases hptr with rfl | ⟨b, hb, hbptr⟩
  · have hfilter : s.live.filter (fun b => b.ptr ≠ 0) = s.live := by
      apply List.filter_eq_self.mpr
      intro b hb
      obtain ⟨t, hptr, -⟩ := hs.block b hb
      exact decide_eq_true (by rw [hptr]; unfold tagSize; omega)
    refine ⟨s, ?_, hs⟩
    rw [KernelHeap.release, hfilter]
    rfl
  · obtain ⟨t, hbt, -⟩ := hs.block b hb
    have hptr : ptr = t + tagSize := hbptr.symm.trans hbt
    obtain ⟨live, hlive⟩ : ∃ live, live = s.live.filter fun c => c.ptr ≠ ptr := ⟨_, rfl⟩
    have hmem : ∀ c, c ∈ live ↔ c ∈ s.live ∧ c.ptr ≠ ptr := by
      intro c
      rw [hlive, List.mem_filter, decide_eq_true_eq]
    obtain ⟨K, hK⟩ : ∃ K : Set ℕ, K = {u | ∃ c ∈ live, c.ptr = u + tagSize} := ⟨_, rfl⟩
    have hheld : s.held = insert t K := by
      ext u
      rw [Set.mem_insert_iff, hK]
      constructor
      · rintro ⟨c, hc, hcptr⟩
        by_cases hcu : c.ptr = ptr
        · left
          omega
        · exact .inr ⟨c, (hmem c).mpr ⟨hc, hcu⟩, hcptr⟩
      · rintro (rfl | ⟨c, hc, hcptr⟩)
        · exact ⟨b, hb, hbt⟩
        · exact ⟨c, ((hmem c).mp hc).1, hcptr⟩
    have htK : t ∉ K := by
      rw [hK]
      rintro ⟨c, hc, hcptr⟩
      exact ((hmem c).mp hc).2 (hcptr.trans hptr.symm)
    rw [hheld] at hinv
    obtain ⟨h', T', hfree, hinv', hc', hkeeps, hm', -⟩ := hinv.free hs.complete hs.machine htK
    have hheld' : held ⟨h', live⟩ = K := hK.symm
    refine ⟨⟨h', live⟩, ?_, ⟨region, T', hheld'.symm ▸ hinv'⟩, hc', hm', ?_, fun c hc => ?_⟩
    · rw [KernelHeap.release, hptr, hfree, Exec.ok_bind, hlive, hptr]
    · rw [hlive]
      exact hs.nodup.sublist ((List.filter_sublist).map _)
    · obtain ⟨u, hcptr, hsize, hroom⟩ := hs.block c ((hmem c).mp hc).1
      obtain ⟨hsizeEq, hrealEq⟩ := hkeeps u (hK ▸ ⟨c, hc, hcptr⟩)
      exact ⟨u, hcptr, hsizeEq.trans hsize, hrealEq.symm ▸ hroom⟩

theorem callocSize_eq {nobj : ℕ} (h : nobj * size < 2 ^ 31) : callocSize nobj size = nobj * size := by
  rw [callocSize, wrap_of_lt (by omega), wrapInt_natCast h, intToSize_of_nonneg (by omega)]

theorem reallocCount_eq {oldSize : ℕ} (hold : oldSize < 2 ^ 31) (hsize : size < 2 ^ 31) :
    reallocCount oldSize size = min oldSize size := by
  rw [reallocCount, wrapInt_natCast hold, wrapInt_natCast hsize]
  split_ifs with hgt
  · rw [intToSize_of_nonneg (by omega)]
    omega
  · rw [intToSize_of_nonneg (by omega)]
    omega

/-- A copy from a live block to a new one stays in both. -/
theorem Kept.copyBlock (hs : s.Kept hhdmOffset) {s' : KernelHeap} {new : ℕ} (hlive : s'.live = ⟨new, size⟩ :: s.live)
    (hnew : ∀ b ∈ s.live, b.ptr ≠ new) {b : LiveBlock} (hb : b ∈ s.live) (hbptr : b.ptr = ptr)
    (hold : b.size < 2 ^ 31) (hsize : size < 2 ^ 31) :
    s'.copyBlock new ptr (reallocCount (s.heap.tags (tagOfPointer hhdmOffset ptr)).size size) = .ok () := by
  obtain ⟨c, hfind⟩ : ∃ c, s.live.find? (fun c => c.ptr = ptr) = some c := by
    apply Option.isSome_iff_exists.mp
    rw [List.find?_isSome]
    exact ⟨b, hb, decide_eq_true hbptr⟩
  have hcptr : c.ptr = ptr := by simpa using List.find?_some hfind
  have hrecovered := (hs.sound.recovered b hb).2.2
  have hsame := (hs.sound.recovered c (List.mem_of_find?_eq_some hfind)).2.2
  rw [hbptr] at hrecovered
  rw [hcptr] at hsame
  have hne : new ≠ ptr := fun heq => hnew b hb (hbptr.trans heq.symm)
  rw [KernelHeap.copyBlock, hlive, List.find?_cons_of_pos (by simp), List.find?_cons_of_neg (by simpa using hne),
    hfind]
  dsimp only
  rw [hrecovered, reallocCount_eq hold hsize, if_pos]
  omega

/-- A valid call halts, or keeps the heap; it never faults. -/
theorem Kept.step (hs : s.Kept hhdmOffset) {c : HeapCall} (hvalid : s.Valid hhdmOffset c) :
    Exec.Meets (· = .halt) (Kept hhdmOffset) (s.step hhdmOffset c) := by
  cases c with
  | malloc size =>
    rcases hs.allocate hvalid with hhalt | ⟨s', new, hok, hs', -⟩
    · rw [KernelHeap.step, hhalt]
      rfl
    · rw [KernelHeap.step, hok]
      exact hs'
  | calloc nobj size =>
    have hfits : nobj * size + tagSize < 2 ^ 32 := by
      have hlt : nobj * size < 2 ^ 31 := hvalid
      unfold tagSize
      omega
    rw [KernelHeap.step, callocSize_eq hvalid]
    rcases hs.allocate hfits with hhalt | ⟨s', new, hok, hs', -⟩
    · rw [hhalt]
      rfl
    · rw [hok]
      exact hs'
  | free ptr =>
    obtain ⟨s', hok, hs'⟩ := hs.release hvalid
    rw [KernelHeap.step, hok]
    exact hs'
  | realloc ptr size =>
    obtain ⟨hfits, hptr⟩ := hvalid
    rw [KernelHeap.step]
    by_cases hzero : size = 0
    · rw [if_pos hzero]
      have hlive : ptr = 0 ∨ ∃ b ∈ s.live, b.ptr = ptr := by
        rcases hptr with hnull | ⟨b, hb, hbptr, -⟩
        · exact .inl hnull
        · exact .inr ⟨b, hb, hbptr⟩
      obtain ⟨s', hok, hs'⟩ := hs.release hlive
      rw [hok]
      exact hs'
    rw [if_neg hzero]
    by_cases hnull : ptr = 0
    · rw [if_pos hnull]
      rcases hs.allocate hfits with hhalt | ⟨s', new, hok, hs', -⟩
      · rw [hhalt]
        rfl
      · rw [hok]
        exact hs'
    · obtain ⟨b, hb, hbptr, hsizes⟩ := hptr.resolve_left hnull
      obtain ⟨hsmall, hold⟩ := hsizes.resolve_left hzero
      rw [if_neg hnull]
      rcases hs.allocate hfits with hhalt | ⟨s', new, hok, hs', hlive, hnew⟩
      · rw [hhalt]
        rfl
      · obtain ⟨s'', hrelease, hs''⟩ := @Kept.release _ _ ptr hs' (.inr ⟨b, hlive ▸ List.mem_cons_of_mem _ hb, hbptr⟩)
        rw [hok]
        dsimp only [Exec.ok_bind]
        rw [hs.copyBlock hlive hnew hb hbptr hold hsmall, Exec.ok_bind, hrelease]
        exact hs''
  | others frames =>
    obtain ⟨hp, hblocks, hused⟩ := hvalid
    obtain ⟨region, T, hinv⟩ := hs.inv
    refine ⟨⟨region, T, ?_⟩, hs.complete.congr rfl rfl fun _ _ _ => rfl,
      ⟨hs.machine.toAligned, hp, hblocks ▸ hs.machine.below⟩, hs.nodup, hs.block⟩
    refine ⟨{ hinv.linked with covered := fun t ht a hlo hhi => ?_ }, hinv.regions, hinv.magic, hinv.held_subset,
      hinv.held_index, hinv.lists.congr rfl (fun _ _ _ => rfl) fun _ _ _ => rfl, hp.memStart, hp.hint⟩
    obtain ⟨hlow, hhigh, hinside, -⟩ := hinv.linked.covered t ht a hlo hhi
    refine ⟨hlow, hhigh, hblocks.symm ▸ hinside, hused t ?_ a hlo hhi⟩
    by_cases hheld : t ∈ s.held
    · exact .inl hheld
    · exact .inr ⟨_, (hinv.lists.mem_iff t _).mpr ⟨ht, hheld, rfl⟩⟩

theorem forty_covered : 40 ≤ blocksPerByte * 5 := by decide

theorem forty_addressable : 40 < 2 ^ 52 := by decide

/-- Forty blocks of memory, the first in use. -/
def fortyBlocks : Bitmap where
  bytes := fun k => if k = 0 then 1#8 else 0#8
  sizeInBlocks := 40
  sizeInBytes := 5
  lastDeepFragmented := 0
  memStart := 0
  covered := forty_covered
  addressable := forty_addressable

theorem fortyBlocks_machine : Machine 0xffff800000000000 fortyBlocks :=
  ⟨⟨by decide, by decide⟩, ⟨rfl, ⟨fun k hk => absurd hk (Nat.not_lt_zero k), Nat.zero_le _⟩, by decide⟩, by decide⟩

end KernelHeap

end DualFuse.Memory
