import DualFuse.Filesystems.Ext2.Blocks

/-! Which runs of free blocks the search of ext2 finds. The place that is found also says
whether one was found, so a group whose first run begins at bit zero counts as full, whatever
runs it has further on. The number returned is that of the first block of the run where the
first bit of the first group stands for block zero. -/

namespace DualFuse.Filesystems

open Library

namespace Ext2

/-- `amnt` free blocks stand in a row from bit `i` of the group. -/
def HasRun (e : Ext2) (g amnt i : ℕ) : Prop :=
  FirstRun.IsRun (fun i => !BitArray.get (e.bitmap g) i) (8 * e.blockSize) amnt i

/-- The first run of the group begins at bit `i`. -/
def FirstRunAt (e : Ext2) (g amnt i : ℕ) : Prop := IsLeast { i | e.HasRun g amnt i } i

/-- The search returns the first block of a free run. -/
def FindsRun (e : Ext2) (hint amnt : ℕ) : Prop :=
  ∃ r, e.ext2BlockFind hint amnt = .ok r ∧ ∃ g < e.blockGroups, ∃ i, e.HasRun g amnt i ∧ r.2 = e.blockOf g i

section Search
variable {e : Ext2} {g hint amnt i : ℕ}

theorem HasRun.free (h : e.HasRun g amnt i) (ha : 1 ≤ amnt) :
    i < 8 * e.blockSize ∧ BitArray.get (e.bitmap g) i = false := by
  have hbit := h.2 0 ha
  have hend := h.1
  exact ⟨by omega, by simpa using hbit⟩

/-- A run is counted. -/
theorem HasRun.counted (h : e.HasRun g amnt i) (haccount : e.Accounted) (hg : g < e.blockGroups) :
    amnt ≤ (e.bgdts g).freeBlocks ∧ amnt ≤ e.superblock.freeBlocks := by
  have hsub : Finset.Ico i (i + amnt) ⊆ e.zeroBits g := by
    intro j hj
    rw [Finset.mem_Ico] at hj
    have hbit := h.2 (j - i) (by omega)
    have hend := h.1
    rw [show i + (j - i) = j by omega, Bool.not_eq_true'] at hbit
    exact Finset.mem_filter.mpr ⟨Finset.mem_range.mpr (by omega), hbit⟩
  have hgroup : amnt ≤ (e.bgdts g).freeBlocks := by
    calc amnt = (Finset.Ico i (i + amnt)).card := by rw [Nat.card_Ico, Nat.add_sub_cancel_left]
      _ ≤ (e.zeroBits g).card := Finset.card_le_card hsub
      _ = (e.bgdts g).freeBlocks := (haccount.groups g hg).symm
  have hsum : (e.bgdts g).freeBlocks ≤ e.superblock.freeBlocks := by
    rw [haccount.total]
    exact Finset.single_le_sum (f := fun g => (e.bgdts g).freeBlocks) (fun _ _ => Nat.zero_le _)
      (Finset.mem_range.mpr hg)
  exact ⟨hgroup, hgroup.trans hsum⟩

/-- The search in one group, by its first run. -/
theorem ext2BlockFindL_eq (h : e.Consistent) (hg : g < e.blockGroups) (ha : 1 ≤ amnt) :
    (∃ i, 0 < i ∧ e.FirstRunAt g amnt i ∧ (e.ext2BlockFindL g amnt).2 = g * e.superblock.blocksPerGroup + i) ∨
      ((∀ i, e.FirstRunAt g amnt i → i = 0) ∧ (e.ext2BlockFindL g amnt).2 = 0) := by
  have hfinds : FirstRun.Finds (fun i => !BitArray.get (e.bitmap g) i) (8 * e.blockSize) amnt
      (FirstRun.scan (fun i => !BitArray.get (e.bitmap g) i) amnt (8 * e.blockSize) 0 0 0) :=
    FirstRun.scan_finds_from ha 0 (Nat.zero_le _) fun j hj => absurd hj (Nat.not_lt_zero j)
  rw [ext2BlockFindL]
  by_cases henough : (e.bgdts g).freeBlocks < amnt
  · rw [if_pos henough]
    refine .inr ⟨fun i hi => ?_, rfl⟩
    have hcounted := (HasRun.counted hi.1 h.toAccounted hg).1
    omega
  rw [if_neg henough]
  cases hscan : FirstRun.scan (fun i => !BitArray.get (e.bitmap g) i) amnt (8 * e.blockSize) 0 0 0 with
  | none =>
    rw [hscan] at hfinds
    exact .inr ⟨fun i hi => absurd hi.1 (hfinds i), rfl⟩
  | some s =>
    rw [hscan] at hfinds
    cases s with
    | zero => exact .inr ⟨fun i hi => hi.unique hfinds, rfl⟩
    | succ s =>
      obtain ⟨hlt, hbit⟩ := HasRun.free hfinds.1 ha
      have hblock := (h.toImage.of_free hg hlt hbit).2
      have haddressed := h.addressed
      rw [blockOf] at hblock
      refine .inl ⟨s + 1, Nat.succ_pos s, hfinds, ?_⟩
      exact Nat.mod_eq_of_lt (by omega)

theorem ext2BlockFindL_ne_zero_iff (h : e.Consistent) (hg : g < e.blockGroups) (ha : 1 ≤ amnt) :
    (e.ext2BlockFindL g amnt).2 ≠ 0 ↔ ∃ i, 0 < i ∧ e.FirstRunAt g amnt i := by
  rcases ext2BlockFindL_eq h hg ha with ⟨i, hpos, hfirst, heq⟩ | ⟨hzero, heq⟩
  · exact iff_of_true (by omega) ⟨i, hpos, hfirst⟩
  · refine iff_of_false (not_not.mpr heq) ?_
    rintro ⟨i, hpos, hfirst⟩
    exact hpos.ne' (hzero i hfirst)

/-- The loop over the groups does not pass by one in which the search succeeds. -/
theorem findInOthers_ok {n j : ℕ} (hj : j ≤ g) (hn : g < j + n) (hne : g ≠ hint)
    (hfound : (e.ext2BlockFindL g amnt).2 ≠ 0) : ∃ r, e.findInOthers hint amnt n j = .ok r := by
  induction n generalizing j with
  | zero => omega
  | succ n ih =>
    rw [findInOthers]
    split_ifs with hhint hhere
    · exact ih (by omega) (by omega)
    · exact ⟨_, rfl⟩
    · rcases hj.eq_or_lt with rfl | hlt
      · exact absurd hfound hhere
      · exact ih hlt (by omega)

/-- Where some group's search succeeds, the search over all groups does. -/
theorem ext2BlockFind_ok (h : e.Consistent) (hhint : hint < e.blockGroups) (hg : g < e.blockGroups) (ha : 1 ≤ amnt)
    (hfirst : e.FirstRunAt g amnt i) (hpos : 0 < i) : ∃ r, e.ext2BlockFind hint amnt = .ok r := by
  have hfound := (ext2BlockFindL_ne_zero_iff h hg ha).mpr ⟨i, hpos, hfirst⟩
  have hcounted := (HasRun.counted hfirst.1 h.toAccounted hg).2
  rw [ext2BlockFind, if_neg (by omega), if_neg (by omega)]
  by_cases hsuggested : (e.ext2BlockFindL hint amnt).2 ≠ 0
  · rw [if_pos hsuggested]
    exact ⟨_, rfl⟩
  · rw [if_neg hsuggested]
    refine findInOthers_ok (Nat.zero_le g) (by omega) ?_ hfound
    rintro rfl
    exact hsuggested hfound

/-- The number that is returned belongs to the first run of some group. -/
theorem ext2BlockFind_first (h : e.Consistent) (hhint : hint < e.blockGroups) (ha : 1 ≤ amnt) {r : Ext2 × ℕ}
    (hr : e.ext2BlockFind hint amnt = .ok r) :
    ∃ g < e.blockGroups, ∃ i, 0 < i ∧ e.FirstRunAt g amnt i ∧ r.2 = g * e.superblock.blocksPerGroup + i := by
  obtain ⟨g, hg, rfl, hne, -⟩ := (Exec.meets_iff.mp (ext2BlockFind_meets hhint)).1 r hr
  rcases ext2BlockFindL_eq h hg ha with ⟨i, hpos, hfirst, heq⟩ | ⟨-, heq⟩
  · exact ⟨g, hg, i, hpos, hfirst, heq⟩
  · exact absurd heq hne

/-- Where there is a run, it is found exactly when the first bit stands for block zero and the
first run of some group does not begin at bit zero. -/
theorem findsRun_iff (h : e.Consistent) (hidx : e.superblock.superblockIdx ≤ 1) (hhint : hint < e.blockGroups)
    (ha : 1 ≤ amnt) :
    ((∃ g < e.blockGroups, ∃ i, e.HasRun g amnt i) → e.FindsRun hint amnt) ↔
      ((∃ g < e.blockGroups, ∃ i, e.HasRun g amnt i) →
        e.superblock.superblockIdx = 0 ∧ ∃ g < e.blockGroups, ∃ i, 0 < i ∧ e.FirstRunAt g amnt i) := by
  refine imp_congr_right fun _ => ?_
  constructor
  · rintro ⟨r, hr, g', hg', i', hrun', heq'⟩
    obtain ⟨g, hg, i, hpos, hfirst, heq⟩ := ext2BlockFind_first h hhint ha hr
    refine ⟨?_, g, hg, i, hpos, hfirst⟩
    by_contra hone
    obtain ⟨hlt, hbit⟩ := HasRun.free hfirst.1 ha
    obtain ⟨hlt', hbit'⟩ := hrun'.free ha
    have hi := (h.toImage.of_free hg hlt hbit).1
    have hi' := (h.toImage.of_free hg' hlt' hbit').1
    -- the number is that of the block before the run, which is in use
    have hsame : g * e.superblock.blocksPerGroup + (i - 1) = g' * e.superblock.blocksPerGroup + i' := by
      rw [blockOf] at heq'
      omega
    have hplace := BlockUse.div_mod_block (g := g) (i := i - 1) (n := e.superblock.blocksPerGroup) (by omega)
    have hplace' := BlockUse.div_mod_block (g := g') hi'
    rw [hsame, hplace'.1, hplace'.2] at hplace
    obtain ⟨rfl, hindex⟩ := hplace
    have hleast := hfirst.2 hrun'
    omega
  · rintro ⟨hzero, g, hg, i, hpos, hfirst⟩
    obtain ⟨r, hr⟩ := ext2BlockFind_ok h hhint hg ha hfirst hpos
    obtain ⟨g', hg', i', -, hfirst', heq'⟩ := ext2BlockFind_first h hhint ha hr
    refine ⟨r, hr, g', hg', i', hfirst'.1, ?_⟩
    rw [blockOf, hzero, Nat.zero_add]
    exact heq'

end Search

/-- Four free blocks, from bit eight on. -/
theorem findsRun_sample : (BlockUse.sampleImage 4096 0).FindsRun 0 2 := by
  have hfirst : (BlockUse.sampleImage 4096 0).FirstRunAt 0 2 8 := by
    constructor
    · refine ⟨show 8 + 2 ≤ 8 * 4096 by decide, fun k hk => ?_⟩
      rw [Bool.not_eq_true', ← Bool.not_eq_true]
      exact fun hbit => (BlockUse.sampleBitmap_get (8 + k)).mp hbit (by omega)
    · intro i hi
      have hbit := (HasRun.free hi (by decide)).2
      by_contra hlt
      have hset : BitArray.get BlockUse.sampleBitmap i = true := (BlockUse.sampleBitmap_get i).mpr (by omega)
      exact absurd (hset.symm.trans hbit) (by decide)
  exact (findsRun_iff (BlockUse.sampleImage_consistent (by decide) (by decide)) (by decide) (by decide)
    (by decide)).mpr (fun _ => ⟨rfl, 0, by decide, 8, by decide, hfirst⟩) ⟨0, by decide, 8, hfirst.1⟩

/-- A bitmap in which the bits 0 to 3 are zero. -/
def lowBitmap : Block := fun i => if i = 0 then 0xf0 else 0xff

theorem lowBitmap_get (i : ℕ) : BitArray.get lowBitmap i = true ↔ ¬i < 4 := by
  by_cases hbyte : i / 8 = 0
  · have hhi : i < 8 := by omega
    interval_cases i <;> decide
  · refine iff_of_true ?_ (by omega)
    exact BitArray.get_allOnes _ i (if_neg hbyte)

/-- One group of 64 blocks, of which the first four are free. -/
def lowImage : Ext2 := { BlockUse.sampleImage 4096 0 with disk := fun _ => lowBitmap }

theorem lowImage_consistent : lowImage.Consistent where
  covered := by decide
  addressed := by decide
  bitmaps := fun g hg g' hg' _ => (Nat.lt_one_iff.mp hg).trans (Nat.lt_one_iff.mp hg').symm
  padding := by
    intro g hg i _ hpad
    obtain rfl : g = 0 := Nat.lt_one_iff.mp hg
    refine (lowBitmap_get i).mpr ?_
    change 8 * 4096 ≤ i ∨ 64 ≤ 0 + 0 * (8 * 4096) + i at hpad
    omega
  groups := by
    intro g hg
    obtain rfl : g = 0 := Nat.lt_one_iff.mp hg
    have hzero : lowImage.zeroBits 0 = Finset.range 4 := by
      ext i
      rw [zeroBits, Finset.mem_filter, Finset.mem_range, Finset.mem_range, ← Bool.not_eq_true]
      change i < 8 * 4096 ∧ ¬BitArray.get lowBitmap i = true ↔ _
      rw [lowBitmap_get]
      omega
    rw [hzero]
    rfl
  total := rfl
  groupField := fun _ _ => show 4 < 2 ^ 16 by decide
  superField := show 4 < 2 ^ 32 by decide

/-- The four free blocks begin at bit zero, and the search for one block halts. -/
theorem low_run_not_found :
    lowImage.Consistent ∧ lowImage.HasRun 0 4 0 ∧ ¬lowImage.FindsRun 0 1 ∧
      lowImage.ext2BlockFind 0 1 = .error .halt := by
  have hhalt : lowImage.ext2BlockFind 0 1 = .error .halt := by
    have hzero : (lowImage.ext2BlockFindL 0 1).2 = 0 := by decide +kernel
    rw [ext2BlockFind, if_neg (by decide), if_neg (by decide), if_neg (not_not.mpr hzero)]
    rfl
  refine ⟨lowImage_consistent, ⟨by decide, fun k hk => ?_⟩, ?_, hhalt⟩
  · rw [Bool.not_eq_true', ← Bool.not_eq_true]
    exact fun hbit => (lowBitmap_get (0 + k)).mp hbit (by omega)
  · rintro ⟨r, hr, -⟩
    rw [hhalt] at hr
    cases hr

end Ext2

end DualFuse.Filesystems
