import DualFuse.Memory.Mmap

/-! What `task_adjust_heap` does to the pages between the old and the new end of a
heap. The test whether a page is mapped subtracts the offset of the direct map, so it
holds of every page but the first of the direct map, and the loop maps nothing. -/

namespace DualFuse.Memory

open Library Utility

/-- The number of pages up to a bound. -/
def pagesUpTo (bound : ℕ) : ℕ := (bound + pageSize - 1) / pageSize

/-- The pages from `lo` to `hi` that were not mapped are now, each to a zeroed frame of its
own that a user may write; every other mapping is as before. -/
structure HeapGrown (pagedir : ℕ) (m m' : PagedMemory) (lo hi : ℕ) : Prop where
  mapped : ∀ p, lo ≤ p → p < hi → m.translate pagedir (address (p * pageSize)) = none →
    ∃ entry, m'.translate pagedir (address (p * pageSize)) = some (entry, []) ∧
      has pfUser entry = true ∧ has pfRw entry = true ∧
      m.Free (entryFrame entry) ∧ ¬m'.Free (entryFrame entry) ∧ (∀ j, m'.words (entryFrame entry) j = 0) ∧
      ∀ v, Canonical v → page v ≠ p → ∀ e rest, m'.translate pagedir v = some (e, rest) →
        walkFrame e rest ≠ entryFrame entry
  others : ∀ v, Canonical v → (m.translate pagedir v ≠ none ∨ page v < lo ∨ hi ≤ page v) →
    m'.translate pagedir v = m.translate pagedir v

/-- What the call is to do: grow the heap, or leave memory and bounds alone. -/
def HeapAdjusted (pagedir : ℕ) (m : PagedMemory) (newHeapEnd heapStart heapEnd : ℕ) (r : Exec HeapResult) : Prop :=
  if heapStart < newHeapEnd ∧ pagesUpTo heapEnd ≤ pagesUpTo newHeapEnd then
    ∃ m', r = .ok ⟨m', newHeapEnd, false⟩ ∧ HeapGrown pagedir m m' (pagesUpTo heapEnd) (pagesUpTo newHeapEnd)
  else ∃ killed, r = .ok ⟨m, heapEnd, killed⟩

/-- All pages from `lo` to `hi` are mapped. -/
def AllMapped (pagedir : ℕ) (m : PagedMemory) (lo hi : ℕ) : Prop :=
  ∀ p, lo ≤ p → p < hi → m.translate pagedir (address (p * pageSize)) ≠ none

theorem heapGrown_self_iff {pagedir : ℕ} {m : PagedMemory} {lo hi : ℕ} :
    HeapGrown pagedir m m lo hi ↔ AllMapped pagedir m lo hi := by
  constructor
  · intro h p hlo hhi hnone
    obtain ⟨entry, hentry, -⟩ := h.mapped p hlo hhi hnone
    rw [hnone] at hentry
    cases hentry
  · exact fun h => ⟨fun p hlo hhi hnone => absurd hnone (h p hlo hhi), fun _ _ _ => rfl⟩

/-! ### The rounding -/

section Rounding
variable (x : Word)

/-- Adding the page size does not leave 64 bits, or the sum wraps to the first page. -/
theorem pageTop_cases :
    (pageTop x.toNat = pagesUpTo x.toNat ∧ pagesUpTo x.toNat < 2 ^ 52 ∧ (pagesUpTo x.toNat = 0 → x.toNat = 0)) ∨
      (pageTop x.toNat = 0 ∧ pagesUpTo x.toNat = 2 ^ 52 ∧ x.toNat ≠ 0) := by
  have hx := x.isLt
  unfold pageTop ceilingDivision wrap pagesUpTo pageSize
  omega

end Rounding

theorem eq_of_virtualToPhysical_eq_zero {hhdmOffset : Word} {virt : Word}
    (h : virtualToPhysical hhdmOffset.toNat virt = 0) : virt = hhdmOffset := by
  unfold virtualToPhysical address at h
  rw [BitVec.ofNat_toNat, BitVec.setWidth_eq] at h
  exact BitVec.sub_eq_iff_eq_add.mp h |>.trans (BitVec.zero_add _)

/-- A page elsewhere counts as mapped. -/
theorem adjustHeapPage_of_ne {hhdmOffset virt : Word} (h : virt ≠ hhdmOffset) (pagedir : ℕ) (m : PagedMemory) :
    adjustHeapPage hhdmOffset.toNat pagedir m virt = pure m :=
  if_pos fun h' => h (eq_of_virtualToPhysical_eq_zero h')

theorem adjustHeapPages_result {hhdmOffset : Word} {l : List Word} (h : hhdmOffset ∉ l) (pagedir : ℕ)
    (m : PagedMemory) : (Traced.run (adjustHeapPage hhdmOffset.toNat pagedir) m l).result = .ok m := by
  induction l with
  | nil => rfl
  | cons v l ih =>
    rw [List.mem_cons, not_or] at h
    rw [Traced.run_cons, Traced.result_bind, adjustHeapPage_of_ne (Ne.symm h.1), Traced.result_pure, Exec.ok_bind]
    exact ih h.2

section Growth
variable {hhdmOffset newHeapEnd heapStart heapEnd : Word} {pagedir : ℕ} {m : PagedMemory}

/-- No page of the range is the first page of the direct map. -/
def AvoidsDirectMap (hhdmOffset : Word) (lo hi : ℕ) : Prop := ∀ p, lo ≤ p → p < hi → p * pageSize ≠ hhdmOffset.toNat

theorem AvoidsDirectMap.not_mem {lo hi : ℕ} (h : AvoidsDirectMap hhdmOffset lo hi) (hhi : hi ≤ 2 ^ 52) :
    hhdmOffset ∉ (List.range (hi - lo)).map fun i => address (lo * pageSize + i * pageSize) := by
  rw [List.mem_map]
  rintro ⟨i, hi', heq⟩
  rw [List.mem_range] at hi'
  refine h (lo + i) (by omega) (by omega) ?_
  rw [← heq, address, BitVec.toNat_ofNat]
  unfold pageSize
  omega

/-- The call ends without a change of memory, and moves the end unless the new one is
behind the start or on a lower page. -/
theorem taskAdjustHeap_result
    (hout : pageTop heapEnd.toNat < pageTop newHeapEnd.toNat →
      AvoidsDirectMap hhdmOffset (pageTop heapEnd.toNat) (pageTop newHeapEnd.toNat)) :
    (taskAdjustHeap hhdmOffset.toNat pagedir m newHeapEnd.toNat heapStart.toNat heapEnd.toNat).result =
      if newHeapEnd.toNat ≤ heapStart.toNat ∨ pageTop newHeapEnd.toNat < pageTop heapEnd.toNat then
        .ok ⟨m, heapEnd.toNat, true⟩
      else .ok ⟨m, newHeapEnd.toNat, false⟩ := by
  have hlt : pageTop newHeapEnd.toNat ≤ 2 ^ 52 := by
    rcases pageTop_cases newHeapEnd with ⟨h, h', -⟩ | ⟨h, -⟩ <;> omega
  unfold taskAdjustHeap
  by_cases hstart : newHeapEnd.toNat ≤ heapStart.toNat
  · rw [if_pos hstart, if_pos (.inl hstart)]
    rfl
  · rw [if_neg hstart]
    rcases lt_trichotomy (pageTop heapEnd.toNat) (pageTop newHeapEnd.toNat) with hgt | heq | hlow
    · rw [if_pos hgt, Traced.result_bind, adjustHeapPages_result ((hout hgt).not_mem hlt), Exec.ok_bind,
        if_neg (by omega)]
      rfl
    · rw [if_neg (by omega), if_neg (by omega), if_neg (by omega)]
      rfl
    · rw [if_neg (by omega), if_pos hlow, if_pos (.inr hlow)]
      rfl

/-- Where the end is not refused, it moves. -/
theorem taskAdjustHeap_moves (hstart : heapStart.toNat < newHeapEnd.toNat)
    (htop : pageTop heapEnd.toNat ≤ pageTop newHeapEnd.toNat) {r : HeapResult}
    (h : (taskAdjustHeap hhdmOffset.toNat pagedir m newHeapEnd.toNat heapStart.toNat heapEnd.toNat).result = .ok r) :
    r.heapEnd = newHeapEnd.toNat := by
  unfold taskAdjustHeap at h
  rw [if_neg (by omega)] at h
  split_ifs at h with hgt hlt
  · rw [Traced.result_bind, Exec.bind_ok_iff] at h
    obtain ⟨m', -, h⟩ := h
    cases h
    rfl
  · omega
  · cases h
    rfl

theorem unchanged_grown_iff {lo hi : ℕ} :
    (∃ m', (.ok ⟨m, newHeapEnd.toNat, false⟩ : Exec HeapResult) = .ok ⟨m', newHeapEnd.toNat, false⟩ ∧
      HeapGrown pagedir m m' lo hi) ↔ AllMapped pagedir m lo hi := by
  rw [← heapGrown_self_iff]
  constructor
  · rintro ⟨m', heq, hgrown⟩
    cases heq
    exact hgrown
  · exact fun h => ⟨m, rfl, h⟩

/-- Away from the first page of the direct map the heap is adjusted as it should exactly
when the rounded bounds compare as the bounds do, and all pages of the range are mapped
already. -/
theorem taskAdjustHeap_adjusts_iff
    (hout : AvoidsDirectMap hhdmOffset (pagesUpTo heapEnd.toNat) (pagesUpTo newHeapEnd.toNat)) :
    HeapAdjusted pagedir m newHeapEnd.toNat heapStart.toNat heapEnd.toNat
        (taskAdjustHeap hhdmOffset.toNat pagedir m newHeapEnd.toNat heapStart.toNat heapEnd.toNat).result ↔
      (heapStart.toNat < newHeapEnd.toNat →
        (pageTop heapEnd.toNat ≤ pageTop newHeapEnd.toNat ↔ pagesUpTo heapEnd.toNat ≤ pagesUpTo newHeapEnd.toNat) ∧
        (pagesUpTo heapEnd.toNat ≤ pagesUpTo newHeapEnd.toNat →
          AllMapped pagedir m (pagesUpTo heapEnd.toNat) (pagesUpTo newHeapEnd.toNat))) := by
  unfold HeapAdjusted
  by_cases hstart : heapStart.toNat < newHeapEnd.toNat
  · simp only [hstart, true_and, forall_true_left]
    rcases pageTop_cases heapEnd with ⟨he, he', -⟩ | ⟨he, he', he0⟩
    · have htop : pageTop heapEnd.toNat < pageTop newHeapEnd.toNat →
          AvoidsDirectMap hhdmOffset (pageTop heapEnd.toNat) (pageTop newHeapEnd.toNat) := by
        rcases pageTop_cases newHeapEnd with ⟨hn, -⟩ | ⟨hn, -⟩
        · rw [hn, he]
          exact fun _ => hout
        · exact fun hlt => absurd hlt (by omega)
      rw [taskAdjustHeap_result htop]
      by_cases hrefused : pageTop newHeapEnd.toNat < pageTop heapEnd.toNat
      · have hcond : newHeapEnd.toNat ≤ heapStart.toNat ∨ pageTop newHeapEnd.toNat < pageTop heapEnd.toNat :=
          .inr hrefused
        by_cases hgrow : pagesUpTo heapEnd.toNat ≤ pagesUpTo newHeapEnd.toNat
        · rw [if_pos hgrow, if_pos hcond]
          refine iff_of_false ?_ fun h => absurd (h.1.mpr hgrow) (not_le.mpr hrefused)
          rintro ⟨m', heq, -⟩
          exact Bool.noConfusion (congrArg HeapResult.killed (Except.ok.inj heq))
        · rw [if_neg hgrow, if_pos hcond]
          exact iff_of_true ⟨true, rfl⟩ ⟨iff_of_false (not_le.mpr hrefused) hgrow, fun h => absurd h hgrow⟩
      · have hgrow : pagesUpTo heapEnd.toNat ≤ pagesUpTo newHeapEnd.toNat := by
          rcases pageTop_cases newHeapEnd with ⟨hn, -⟩ | ⟨-, hn', -⟩ <;> omega
        have hcond : ¬(newHeapEnd.toNat ≤ heapStart.toNat ∨ pageTop newHeapEnd.toNat < pageTop heapEnd.toNat) := by
          omega
        rw [if_pos hgrow, if_neg hcond, unchanged_grown_iff]
        exact ⟨fun h => ⟨iff_of_true (not_lt.mp hrefused) hgrow, fun _ => h⟩, fun h => h.2 hgrow⟩
    · rcases pageTop_cases newHeapEnd with ⟨hn, hn', hn0⟩ | ⟨hn, hn', hn0⟩
      · -- the old end wraps to the first page, so a lower end is taken for a higher one
        have hgrow : ¬pagesUpTo heapEnd.toNat ≤ pagesUpTo newHeapEnd.toNat := by omega
        rw [if_neg hgrow]
        refine iff_of_false ?_ fun h => hgrow (h.1.mp (by omega))
        rintro ⟨killed, hresult⟩
        have hmoved := taskAdjustHeap_moves hstart (by omega) hresult
        dsimp only at hmoved
        rw [hmoved] at he'
        omega
      · have hgrow : pagesUpTo heapEnd.toNat ≤ pagesUpTo newHeapEnd.toNat := by omega
        have hcond : ¬(newHeapEnd.toNat ≤ heapStart.toNat ∨ pageTop newHeapEnd.toNat < pageTop heapEnd.toNat) := by
          omega
        rw [taskAdjustHeap_result fun hlt => absurd hlt (by omega), if_pos hgrow, if_neg hcond, unchanged_grown_iff]
        exact ⟨fun h => ⟨iff_of_true (by omega) hgrow, fun _ => h⟩, fun h => h.2 hgrow⟩
  · rw [if_neg fun h => hstart h.1]
    refine iff_of_true ⟨true, ?_⟩ fun h => absurd h hstart
    unfold taskAdjustHeap
    rw [if_pos (not_lt.mp hstart)]
    rfl

end Growth

/-- The heap grows over a page that is mapped already. -/
theorem taskAdjustHeap_adjusts_mapped :
    ∃ m, virtualMapL blankMemory 0 0x400000 0x5000 (pfRw ||| pfUser) = .ok m ∧
      HeapAdjusted 0 m (0x401000 : Word).toNat (0x3ff000 : Word).toNat (0x400000 : Word).toNat
        (taskAdjustHeap (0xffff800000000000 : Word).toNat 0 m (0x401000 : Word).toNat (0x3ff000 : Word).toNat
          (0x400000 : Word).toNat).result := by
  have hnone : blankMemory.translate 0 0x400000 = none := blankMemory_translate _
  have hends : Exec.Meets (· ≠ .halt) (fun _ => True) (virtualMapL blankMemory 0 0x400000 0x5000 (pfRw ||| pfUser)) := by
    decide +kernel
  rcases virtualMapL_added 0x5000 (pfRw ||| pfUser) blankMemory_ready blankMemory_wellFormed (by decide) hnone with
    hhalt | ⟨m, hm, hadded⟩
  · rw [hhalt] at hends
    exact absurd rfl hends
  · refine ⟨m, hm, (taskAdjustHeap_adjusts_iff ?_).mpr fun _ => ⟨by decide, fun _ p hlo hhi => ?_⟩⟩
    · intro p hlo hhi
      have hhi' : p < 0x401 := hhi
      have hhdm : (0xffff800000000000 : Word).toNat = 0xffff800000000000 := rfl
      unfold pageSize
      omega
    · have hp : p = 0x400 := by
        have hlo' : 0x400 ≤ p := hlo
        have hhi' : p < 0x401 := hhi
        omega
      subst hp
      have hnew := hadded.new
      rw [show address (0x400 * pageSize) = 0x400000 by decide, hnew]
      exact Option.some_ne_none _

/-- A heap of no pages is to grow by two, and the pages stay unmapped. -/
theorem taskAdjustHeap_maps_nothing :
    ¬HeapAdjusted 0 blankMemory (0x402000 : Word).toNat (0x3ff000 : Word).toNat (0x400000 : Word).toNat
      (taskAdjustHeap (0xffff800000000000 : Word).toNat 0 blankMemory (0x402000 : Word).toNat (0x3ff000 : Word).toNat
        (0x400000 : Word).toNat).result := by
  rw [taskAdjustHeap_result, if_neg (by decide), HeapAdjusted, if_pos (by decide), unchanged_grown_iff]
  · exact fun h => h 0x400 (by decide) (by decide) (blankMemory_translate _)
  · intro _ p _ hhi
    have hhi' : p < 0x402 := hhi
    have hhdm : (0xffff800000000000 : Word).toNat = 0xffff800000000000 := rfl
    unfold pageSize
    omega

end DualFuse.Memory
