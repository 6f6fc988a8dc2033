import DualFuse.Memory.Bitmap

/-! The physical frame allocator (`memory/pmm.cpp`) on top of the bitmap, and
its runs. An allocation that finds no run returns address zero, and the wrapper
then halts the kernel. Freeing computes the byte count `pages * BLOCK_SIZE` as an
`int`, so a region is given back exactly when this product fits an `int`. -/

namespace DualFuse.Memory

open Library Utility

/-- The outcome of `physical_allocate`. `halted` says that it ended in `Halt()`;
the bitmap is the one it leaves in either case. -/
structure Allocation where
  phys : ℕ
  bitmap : Bitmap
  halted : Bool

def physicalAllocate (bm : Bitmap) (pages : ℤ) : Exec Allocation := do
  let (phys, bm) ← bm.allocate (intToSize pages)
  .ok ⟨phys, bm, decide (phys = 0 ∧ pages ≠ 0)⟩

/-- `pages * BLOCK_SIZE` is an `int` product, then converted to `size_t`. -/
def physicalFree (bm : Bitmap) (ptr : ℕ) (pages : ℤ) : Exec Bitmap :=
  bm.markRegion ptr (intToSize (wrapInt (pages * blockSize))) false

/-- A bitmap over physical memory from address zero on, with block zero in use. -/
structure Bitmap.Physical (bm : Bitmap) : Prop where
  memStart : bm.memStart = 0
  hint : bm.HintSound
  zeroUsed : bm.get 0 = true

theorem Bitmap.Physical.of_marked {bm bm' : Bitmap} (hp : bm.Physical) {lo hi : ℕ} {value : Bool}
    (hm : bm.Marked bm' lo hi value) (hs : bm'.HintSound) (hlo : 1 ≤ lo) : bm'.Physical :=
  ⟨hm.memStart.trans hp.memStart, hs, (hm.get_outside (by omega)).trans hp.zeroUsed⟩

theorem Bitmap.blockToPointer_of_lt {bm : Bitmap} (hp : bm.memStart = 0) {s : ℕ} (hs : s < bm.sizeInBlocks) :
    bm.blockToPointer s = s * blockSize := by
  have := bm.addressable
  unfold blockToPointer blockSize
  rw [hp, Nat.zero_add, wrap_of_lt (by omega)]

theorem Bitmap.FreeRun.pos {bm : Bitmap} (hp : bm.Physical) {n s : ℕ} (hn : 1 ≤ n) (h : bm.FreeRun n s) :
    1 ≤ s := by
  rcases Nat.eq_zero_or_pos s with rfl | hs
  · have := h.get (k := 0) le_rfl (by omega)
    rw [hp.zeroUsed] at this
    exact absurd this (by decide)
  · exact hs

/-- An allocation either hands out the lowest free run, which it marks used, or
halts with nothing changed. -/
theorem physicalAllocate_spec {bm : Bitmap} (hp : bm.Physical) {n : ℕ} (hn : 1 ≤ n) (hint : n < 2 ^ 31) :
    ((∀ s, ¬bm.FreeRun n s) ∧ physicalAllocate bm n = .ok ⟨0, bm, true⟩) ∨
    ∃ s bm', IsLeast {s | bm.FreeRun n s} s ∧ 1 ≤ s ∧ bm.Marked bm' s (s + n) true ∧ bm'.Physical ∧
      physicalAllocate bm n = .ok ⟨s * blockSize, bm', false⟩ := by
  have hsize : intToSize (n : ℤ) = n := intToSize_of_nonneg (by omega)
  unfold physicalAllocate
  rw [hsize]
  rcases bm.allocate_spec hp.hint hn with ⟨hnone, he⟩ | ⟨s, bm', hleast, hm, hs', he⟩
  · left
    refine ⟨hnone, ?_⟩
    rw [he]
    simp only [Exec.ok_bind, Except.ok.injEq, Allocation.mk.injEq, decide_eq_true_eq, true_and]
    omega
  · right
    have hrun : bm.FreeRun n s := hleast.1
    have hpos := hrun.pos hp hn
    refine ⟨s, bm', hleast, hpos, hm, hp.of_marked hm hs' hpos, ?_⟩
    have hlt : s < bm.sizeInBlocks := by have := hrun.1; omega
    rw [he, Bitmap.blockToPointer_of_lt hp.memStart hlt]
    have hne : s * blockSize ≠ 0 := by unfold blockSize; omega
    simp [Exec.ok_bind, hne]

theorem intToSize_wrapInt_pages {n : ℕ} (h : n * blockSize < 2 ^ 31) :
    intToSize (wrapInt ((n : ℤ) * blockSize)) = n * blockSize := by
  have hb : wrapInt ((n : ℤ) * blockSize) = ((n * blockSize : ℕ) : ℤ) := by
    rw [wrapInt, Int.bmod_eq_of_le] <;> push_cast <;> omega
  rw [hb, intToSize_of_nonneg (by omega)]

theorem Bitmap.offset_of_lt {bm : Bitmap} (hp : bm.memStart = 0) {ptr : ℕ} (h : ptr < 2 ^ 64) :
    bm.offset ptr = ptr := by
  unfold offset wrap
  rw [hp, Nat.sub_zero, Nat.add_mod_right, Nat.mod_eq_of_lt h]

/-- The blocks that a free of `n` pages at block `s` clears. -/
theorem regionBlocks_free {bm : Bitmap} (hp : bm.memStart = 0) {s : ℕ} (hs : s < 2 ^ 52) (n : ℕ) :
    bm.regionBlocks (s * blockSize) (n * blockSize) false = (s, n) := by
  have hs64 : s * blockSize + blockSize ≤ 2 ^ 64 := by unfold blockSize; omega
  have hround : (s * blockSize + blockSize - 1) / blockSize = s := by unfold blockSize; omega
  have hsize : n * blockSize / blockSize = n := by unfold blockSize; omega
  unfold Bitmap.regionBlocks Bitmap.pointerToBlockRoundup
  rw [Bitmap.offset_of_lt hp (by unfold blockSize at *; omega),
    ceilingDivision_eq (by decide) hs64, hround, hsize]
  rfl

/-- Freeing one page clears its bit, or faults when the bitmap has no such bit. -/
theorem physicalFree_block {bm : Bitmap} (hp : bm.memStart = 0) (hs : bm.HintSound) {s : ℕ} (h52 : s < 2 ^ 52) :
    (¬bm.Holds s ∧ physicalFree bm (s * blockSize) 1 = .error .fault) ∨
    ∃ bm', physicalFree bm (s * blockSize) 1 = .ok bm' ∧ bm.Marked bm' s (s + 1) false ∧ bm'.HintSound := by
  have hwrap : wrap (s + 1) = s + 1 := wrap_of_lt (by omega)
  have hfree : physicalFree bm (s * blockSize) 1 = bm.markBlocks s 1 false := by
    have hpages := intToSize_wrapInt_pages (n := 1) (by decide)
    rw [Nat.cast_one] at hpages
    unfold physicalFree Bitmap.markRegion
    rw [hpages, regionBlocks_free hp h52]
  rw [hfree]
  by_cases hh : bm.Holds s
  · obtain ⟨bm', hbm'⟩ := bm.markBlocks_ok s 1 false
      (fun k hk hk' => by rw [hwrap] at hk'; rwa [show k = s by omega])
    obtain ⟨hm, -⟩ := Bitmap.markBlocks_marked hbm'
    rw [hwrap] at hm
    exact .inr ⟨bm', hbm', hm, hs.markBlocks hbm'⟩
  · refine .inl ⟨hh, ?_⟩
    cases hb : bm.markBlocks s 1 false with
    | ok bm' => exact absurd (Bitmap.markBlocks_holds hb le_rfl (by omega)) hh
    | error e =>
      -- marking a block never halts
      unfold Bitmap.markBlocks at hb
      rw [hwrap, Nat.add_sub_cancel_left] at hb
      unfold Bitmap.Holds at hh
      split_ifs at hb <;> simp [Bitmap.setBlocks, Bitmap.set, hh] at hb <;> exact congrArg _ hb.symm

/-- Freeing a region whose byte count fits an `int` clears exactly its blocks. -/
theorem physicalFree_marked {bm : Bitmap} (hp : bm.memStart = 0) (hs : bm.HintSound) {s n : ℕ} (hn : 1 ≤ n)
    (hfit : n * blockSize < 2 ^ 31) (hend : s + n ≤ bm.sizeInBlocks) :
    ∃ bm', physicalFree bm (s * blockSize) n = .ok bm' ∧ bm.Marked bm' s (s + n) false ∧ bm'.HintSound := by
  have hwrap : wrap (s + n) = s + n := wrap_of_lt (by have := bm.addressable; omega)
  unfold physicalFree Bitmap.markRegion
  rw [intToSize_wrapInt_pages hfit, regionBlocks_free hp (by have := bm.addressable; omega)]
  obtain ⟨bm', hbm'⟩ := bm.markBlocks_ok s n false
    (fun k _ hk => bm.holds_of_lt (by omega))
  obtain ⟨hm, -⟩ := Bitmap.markBlocks_marked hbm'
  rw [hwrap] at hm
  exact ⟨bm', hbm', hm, hs.markBlocks hbm'⟩

theorem physicalFree_spec {bm : Bitmap} (hp : bm.Physical) {s n : ℕ} (hn : 1 ≤ n)
    (hfit : n * blockSize < 2 ^ 31) (hend : s + n ≤ bm.sizeInBlocks) (hs : 1 ≤ s) :
    ∃ bm', physicalFree bm (s * blockSize) n = .ok bm' ∧ bm.Marked bm' s (s + n) false ∧ bm'.Physical := by
  obtain ⟨bm', hbm', hm, hhint⟩ := physicalFree_marked hp.memStart hp.hint hn hfit hend
  exact ⟨bm', hbm', hm, hp.of_marked hm hhint hs⟩

/-! ### Runs of allocations and frees -/

/-- The allocator with the regions that were handed out and not yet given back. -/
structure Frames where
  bitmap : Bitmap
  live : List (ℕ × ℤ)

inductive Call where
  | allocate (pages : ℤ)
  | free (ptr : ℕ) (pages : ℤ)

def Frames.step (s : Frames) : Call → Exec Frames
  | .allocate pages => do
    let a ← physicalAllocate s.bitmap pages
    if a.halted then .error .halt else .ok ⟨a.bitmap, (a.phys, pages) :: s.live⟩
  | .free ptr pages => do
    let bm ← physicalFree s.bitmap ptr pages
    .ok ⟨bm, s.live.erase (ptr, pages)⟩

/-- Page counts are positive `int`s and a free gives back a live region. -/
def Frames.Legal (s : Frames) : Call → Prop
  | .allocate pages => 0 < pages ∧ pages < 2 ^ 31
  | .free ptr pages => (ptr, pages) ∈ s.live

/-- The byte count of a freed region fits an `int`. -/
def Call.Fits : Call → Prop
  | .allocate _ => True
  | .free _ pages => pages * blockSize < 2 ^ 31

instance (s : Frames) : (c : Call) → Decidable (s.Legal c)
  | .allocate pages => inferInstanceAs (Decidable (0 < pages ∧ pages < 2 ^ 31))
  | .free ptr pages => inferInstanceAs (Decidable ((ptr, pages) ∈ s.live))

instance : (c : Call) → Decidable c.Fits
  | .allocate _ => isTrue trivial
  | .free _ pages => inferInstanceAs (Decidable (pages * blockSize < 2 ^ 31))

/-- First block and end of a region. -/
def firstBlock (r : ℕ × ℤ) : ℕ := r.1 / blockSize

def endBlock (r : ℕ × ℤ) : ℕ := r.1 / blockSize + r.2.toNat

/-- A region of whole used blocks inside the bitmap, as long as was asked for. -/
structure Bitmap.Owns (bm : Bitmap) (r : ℕ × ℤ) : Prop where
  aligned : r.1 % blockSize = 0
  positive : 0 < r.2
  nonzero : r.1 ≠ 0
  inside : endBlock r ≤ bm.sizeInBlocks
  used : ∀ k, firstBlock r ≤ k → k < endBlock r → bm.get k = true

def Apart (r t : ℕ × ℤ) : Prop := endBlock r ≤ firstBlock t ∨ endBlock t ≤ firstBlock r

/-- Live regions are pairwise disjoint regions of used blocks. -/
structure Frames.Sound (s : Frames) : Prop where
  physical : s.bitmap.Physical
  owns : ∀ r ∈ s.live, s.bitmap.Owns r
  apart : s.live.Pairwise Apart

theorem Apart.symm {r t : ℕ × ℤ} (h : Apart r t) : Apart t r := Or.symm h

theorem Bitmap.Owns.ptr_eq {bm : Bitmap} {r : ℕ × ℤ} (h : bm.Owns r) : r.1 = firstBlock r * blockSize := by
  have := h.aligned
  unfold firstBlock blockSize at *
  omega

theorem Bitmap.Owns.first_pos {bm : Bitmap} {r : ℕ × ℤ} (h : bm.Owns r) : 1 ≤ firstBlock r := by
  have hptr := h.ptr_eq
  rcases Nat.eq_zero_or_pos (firstBlock r) with hz | hz
  · rw [hz, Nat.zero_mul] at hptr
    exact absurd hptr h.nonzero
  · exact hz

theorem Bitmap.Owns.of_marked {bm bm' : Bitmap} {r : ℕ × ℤ} (h : bm.Owns r) {lo hi : ℕ} {value : Bool}
    (hm : bm.Marked bm' lo hi value) (hkeep : value = true ∨ endBlock r ≤ lo ∨ hi ≤ firstBlock r) :
    bm'.Owns r := by
  refine ⟨h.aligned, h.positive, h.nonzero, hm.blocks ▸ h.inside, fun k hk hk' => ?_⟩
  rw [hm.get, h.used k hk hk']
  rcases hkeep with rfl | hout
  · simp
  · rw [if_neg (by omega)]

theorem Frames.Sound.allocate {s : Frames} (hs : s.Sound) {n : ℕ} (hn : 1 ≤ n) (hint : n < 2 ^ 31)
    {a : Allocation} (ha : physicalAllocate s.bitmap n = .ok a) (hok : a.halted = false) :
    Frames.Sound ⟨a.bitmap, (a.phys, (n : ℤ)) :: s.live⟩ := by
  rcases physicalAllocate_spec hs.physical hn hint with ⟨-, he⟩ | ⟨b, bm', hleast, hpos, hm, hp', he⟩
  · rw [he] at ha; cases ha; cases hok
  · rw [he] at ha; cases ha
    have hrun : s.bitmap.FreeRun n b := hleast.1
    have hfirst : firstBlock (b * blockSize, (n : ℤ)) = b := by unfold firstBlock blockSize; omega
    have hlast : endBlock (b * blockSize, (n : ℤ)) = b + n := by unfold endBlock blockSize; omega
    refine ⟨hp', ?_, ?_⟩
    · intro r hr
      rcases List.mem_cons.mp hr with rfl | hr
      · refine ⟨by simp [blockSize], by simp only; omega, by simp only [blockSize]; omega, ?_, ?_⟩
        · rw [hlast, hm.blocks]; exact hrun.1
        · intro k hk hk'
          exact hm.get_inside (hfirst ▸ hk) (hlast ▸ hk')
      · exact (hs.owns r hr).of_marked hm (.inl rfl)
    · refine List.pairwise_cons.mpr ⟨fun r hr => ?_, hs.apart⟩
      -- blocks of the new region were free, those of a live region are used
      have ho := hs.owns r hr
      have hlen : firstBlock r < endBlock r := by have := ho.positive; unfold firstBlock endBlock; omega
      unfold Apart
      rw [hfirst, hlast]
      by_contra hno
      push Not at hno
      have hfree := hrun.get (k := max b (firstBlock r)) (by omega) (by omega)
      rw [ho.used _ (by omega) (by omega)] at hfree
      exact absurd hfree (by decide)

theorem Frames.Sound.free {s : Frames} (hs : s.Sound) {r : ℕ × ℤ} (hr : r ∈ s.live)
    (hfit : r.2 * blockSize < 2 ^ 31) :
    ∃ bm', physicalFree s.bitmap r.1 r.2 = .ok bm' ∧ Frames.Sound ⟨bm', s.live.erase r⟩ := by
  have ho := hs.owns r hr
  have hend := ho.inside
  have hpos := ho.positive
  obtain ⟨bm', he, hm, hp'⟩ := physicalFree_spec hs.physical (s := firstBlock r) (n := r.2.toNat)
    (by omega) (by unfold blockSize at *; omega) (by unfold endBlock at hend; exact hend) ho.first_pos
  rw [← ho.ptr_eq, Int.toNat_of_nonneg hpos.le] at he
  refine ⟨bm', he, hp', fun t ht => ?_, hs.apart.sublist List.erase_sublist⟩
  -- a region still live is apart from the freed one, even when the list holds it twice
  have hapart : Apart r t := by
    have hcons := (List.perm_cons_erase hr).pairwise_iff (fun h => Apart.symm h) |>.mp hs.apart
    exact (List.pairwise_cons.mp hcons).1 t ht
  refine (hs.owns t (List.mem_of_mem_erase ht)).of_marked hm (.inr ?_)
  rcases hapart with h | h
  · exact .inr h
  · exact .inl h

theorem Frames.Sound.step {s s' : Frames} (hs : s.Sound) {c : Call} (hlegal : s.Legal c) (hfit : c.Fits)
    (h : s.step c = .ok s') : s'.Sound := by
  cases c with
  | allocate pages =>
    obtain ⟨hpos, hint⟩ := hlegal
    obtain ⟨n, rfl⟩ := Int.eq_ofNat_of_zero_le hpos.le
    obtain ⟨a, ha, h⟩ := Exec.bind_ok_iff.mp h
    cases hhalt : a.halted with
    | true => simp [hhalt] at h
    | false =>
      simp only [hhalt, Bool.false_eq_true, if_false, Except.ok.injEq] at h
      subst h
      exact hs.allocate (by omega) (by exact_mod_cast hint) ha hhalt
  | free ptr pages =>
    obtain ⟨bm', he, hs'⟩ := hs.free (r := (ptr, pages)) hlegal hfit
    simp only [Frames.step, he, Exec.ok_bind, Except.ok.injEq] at h
    subst h
    exact hs'

/-- A legal call whose byte count fits cannot leave the bitmap. -/
theorem Frames.Sound.no_fault {s : Frames} (hs : s.Sound) {c : Call} (hlegal : s.Legal c) (hfit : c.Fits) :
    s.step c ≠ .error .fault := by
  cases c with
  | allocate pages =>
    obtain ⟨hpos, hint⟩ := hlegal
    obtain ⟨n, rfl⟩ := Int.eq_ofNat_of_zero_le hpos.le
    rcases physicalAllocate_spec hs.physical (n := n) (by omega) (by exact_mod_cast hint) with
      ⟨-, he⟩ | ⟨b, bm', -, -, -, -, he⟩
    · simp [Frames.step, he]
    · simp [Frames.step, he]
  | free ptr pages =>
    obtain ⟨bm', he, -⟩ := hs.free (r := (ptr, pages)) hlegal hfit
    simp [Frames.step, he]

/-- A failed allocation changes no bit, and an allocation that is given back at
once restores every bit. -/
theorem Frames.Sound.round_trip {s : Frames} (hs : s.Sound) {pages : ℤ} (hpos : 0 < pages)
    (hint : pages < 2 ^ 31) : ∃ a, physicalAllocate s.bitmap pages = .ok a ∧
      (a.phys = 0 → ∀ k, a.bitmap.get k = s.bitmap.get k) ∧
      (a.phys ≠ 0 → pages * blockSize < 2 ^ 31 → ∃ bm', physicalFree a.bitmap a.phys pages = .ok bm' ∧
        ∀ k, bm'.get k = s.bitmap.get k) := by
  obtain ⟨n, rfl⟩ := Int.eq_ofNat_of_zero_le hpos.le
  rcases physicalAllocate_spec hs.physical (n := n) (by omega) (by exact_mod_cast hint) with
    ⟨-, he⟩ | ⟨b, bm', hleast, hb, hm, hp', he⟩
  · exact ⟨_, he, fun _ _ => rfl, fun h => absurd rfl h⟩
  · have hrun : s.bitmap.FreeRun n b := hleast.1
    refine ⟨_, he, fun h => ?_, fun _ hfit => ?_⟩
    · simp only [blockSize] at h; omega
    · obtain ⟨bm'', he', hm', -⟩ := physicalFree_spec hp' (s := b) (n := n) (by omega)
        (by exact_mod_cast hfit) (by rw [hm.blocks]; exact hrun.1) hb
      refine ⟨bm'', he', fun k => ?_⟩
      rw [hm'.get, hm.get]
      split_ifs with hk
      · exact (hrun.get hk.1 hk.2).symm
      · rfl

/-- Along every run of legal calls in which the byte count of each freed region
fits an `int`, from a bitmap in which block zero is in use: live regions are
pairwise disjoint, inside the bitmap, as long as was asked for and marked used;
no further legal call leaves the bitmap; an allocation that fails changes no bit,
and one that is given back at once restores every bit. -/
theorem physical_runs_sound (bm₀ : Bitmap) (h₀ : bm₀.Physical) (calls : List Call) (s : Frames)
    (hcalls : Guarded Frames.step (fun t c => t.Legal c ∧ c.Fits) ⟨bm₀, []⟩ calls)
    (hrun : run Frames.step ⟨bm₀, []⟩ calls = .ok s) :
    s.live.Pairwise Apart ∧ (∀ r ∈ s.live, s.bitmap.Owns r) ∧
    (∀ c, s.Legal c → c.Fits → s.step c ≠ .error .fault) ∧
    ∀ pages, 0 < pages → pages < 2 ^ 31 → ∃ a, physicalAllocate s.bitmap pages = .ok a ∧
      (a.phys = 0 → ∀ k, a.bitmap.get k = s.bitmap.get k) ∧
      (a.phys ≠ 0 → pages * blockSize < 2 ^ 31 → ∃ bm', physicalFree a.bitmap a.phys pages = .ok bm' ∧
        ∀ k, bm'.get k = s.bitmap.get k) := by
  have hinit : Frames.Sound ⟨bm₀, []⟩ := ⟨h₀, by simp, List.Pairwise.nil⟩
  have hs : s.Sound := run_invariant_of_guarded (fun t c t' ht hc => ht.step hc.1 hc.2) hinit hcalls hrun
  exact ⟨hs.apart, hs.owns, fun c => hs.no_fault, fun pages => hs.round_trip⟩

/-- Sixteen blocks, the first in use. -/
def smallMemory : Bitmap where
  bytes := fun k => if k = 0 then 1#8 else 0#8
  sizeInBlocks := 16
  sizeInBytes := 2
  lastDeepFragmented := 0
  memStart := 0
  covered := sixteen_covered
  addressable := sixteen_addressable

theorem smallMemory_physical : smallMemory.Physical :=
  ⟨rfl, ⟨fun k hk => absurd hk (Nat.not_lt_zero k), Nat.zero_le _⟩, by decide⟩

theorem smallMemory_run_sound : ∃ s, run Frames.step ⟨smallMemory, []⟩
      [.allocate 2, .allocate 3, .free 4096 2] = .ok s ∧ s.live = [(12288, 3)] ∧ s.live.Pairwise Apart := by
  obtain ⟨s, hs⟩ : ∃ s, run Frames.step ⟨smallMemory, []⟩
      [.allocate 2, .allocate 3, .free 4096 2] = .ok s := ⟨_, rfl⟩
  refine ⟨s, hs, by cases hs; decide +kernel, ?_⟩
  exact (physical_runs_sound smallMemory smallMemory_physical _ s (by decide +kernel) hs).1

/-! ### The byte count of a large region -/

/-- Four gibibytes and one block of memory, the first block in use. -/
def largeMemory : Bitmap where
  bytes := fun k => if k = 0 then 1#8 else 0#8
  sizeInBlocks := 2 ^ 20 + 1
  sizeInBytes := 2 ^ 17 + 1
  lastDeepFragmented := 0
  memStart := 0
  covered := by decide
  addressable := by decide

theorem largeMemory_get (k : ℕ) : largeMemory.get k = decide (k = 0) := by
  rw [Bitmap.get, BitArray.get_eq]
  by_cases hbyte : k / 8 = 0
  · have hk : k < 8 := by omega
    interval_cases k <;> rfl
  · have hk : k ≠ 0 := by omega
    simp [largeMemory, hbyte, hk]

theorem largeMemory_physical : largeMemory.Physical :=
  ⟨rfl, ⟨by simp [largeMemory], Nat.zero_le _⟩, largeMemory_get 0⟩

/-- A byte count that is a multiple of `2 ^ 32` is freed as zero bytes. -/
theorem physicalFree_of_wraps_to_zero (bm : Bitmap) (ptr : ℕ) {pages : ℤ}
    (h : intToSize (wrapInt (pages * blockSize)) = 0) :
    ∃ bm', physicalFree bm ptr pages = .ok bm' ∧ ∀ k, bm'.get k = bm.get k := by
  unfold physicalFree Bitmap.markRegion Bitmap.regionBlocks
  rw [h]
  simp only [Bool.false_eq_true, if_false, Nat.zero_div]
  obtain ⟨bm', hbm'⟩ := bm.markBlocks_ok (bm.pointerToBlockRoundup ptr) 0 false
    (fun k hk hk' => by have := wrap_le (bm.pointerToBlockRoundup ptr + 0); omega)
  refine ⟨bm', hbm', fun k => ?_⟩
  rw [(Bitmap.markBlocks_marked hbm').1.get, if_neg]
  have := wrap_le (bm.pointerToBlockRoundup ptr + 0)
  omega

/-- Allocating `2 ^ 20` pages and giving them back leaves block one in use. -/
theorem large_region_not_restored : ∃ a bm', physicalAllocate largeMemory (2 ^ 20 : ℕ) = .ok a ∧
    a.phys ≠ 0 ∧ physicalFree a.bitmap a.phys (2 ^ 20 : ℕ) = .ok bm' ∧
    largeMemory.get 1 = false ∧ bm'.get 1 = true := by
  have hrun : largeMemory.FreeRun (2 ^ 20) 1 :=
    ⟨by simp [largeMemory], fun k _ => by simp [Bitmap.isFree, largeMemory_get]⟩
  rcases physicalAllocate_spec largeMemory_physical (n := 2 ^ 20) (by norm_num) (by norm_num) with
    ⟨hno, -⟩ | ⟨b, bm', hleast, hb, hm, -, he⟩
  · exact absurd hrun (hno 1)
  · have hb1 : b = 1 := le_antisymm (hleast.2 hrun) hb
    subst hb1
    obtain ⟨bm'', he', hget⟩ := physicalFree_of_wraps_to_zero bm' (1 * blockSize)
      (show intToSize (wrapInt (((2 ^ 20 : ℕ) : ℤ) * blockSize)) = 0 by decide)
    exact ⟨_, bm'', he, show 1 * blockSize ≠ 0 by decide, he', by rw [largeMemory_get]; rfl,
      by rw [hget]; exact hm.get_inside le_rfl (by norm_num)⟩

end DualFuse.Memory
