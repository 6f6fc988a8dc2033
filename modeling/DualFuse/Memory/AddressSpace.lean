import DualFuse.Memory.Translation

/-! Copying and freeing the user part of an address space (`memory/paging.cpp`,
`taskInfoPdClone`). Both functions run the same four nested loops over a
directory and act on the present user entries of the last level; an entry whose
bit 7 is set is skipped at every level, the last one included. The loops read
tables that their own body may not write, so they are one run over the list of
user pages as it was at the start. -/

namespace DualFuse.Memory

open Library Utility

/-- A page by its four indices, with its entry. -/
abbrev UserPage := List (Fin 512) × Word

/-- The loops that both functions run, `levels` of them around the last one. -/
def forUserPages (body : PagedMemory → UserPage → Exec PagedMemory) :
    (levels : ℕ) → PagedMemory → (table : ℕ) → (path : List (Fin 512)) → Exec PagedMemory
  | 0, m, pt, path => run (fun m i =>
      if !has pfPresent (m.words pt i) || has pfPs (m.words pt i) then .ok m
      else if !has pfUser (m.words pt i) then .ok m
      else body m (path ++ [i], m.words pt i)) m (List.finRange 512)
  | levels + 1, m, table, path => run (fun m i =>
      if !has pfPresent (m.words table i) || has pfPs (m.words table i) then .ok m
      else forUserPages body levels m (entryFrame (m.words table i)) (path ++ [i])) m (List.finRange 512)

def freePage (m : PagedMemory) (p : UserPage) : Exec PagedMemory := do
  let bm ← physicalFree m.bitmap (pteGetAddr p.2).toNat 1
  .ok ⟨bm, m.words⟩

def pageDirectoryFree (m : PagedMemory) (pageDir : ℕ) : Exec PagedMemory := forUserPages freePage 3 m pageDir []

def pathToVirt : List (Fin 512) → Word
  | [pml4Index, pdpIndex, pdIndex, ptIndex] => bitsToVirtAddr pml4Index pdpIndex pdIndex ptIndex
  | _ => 0

/-- `memcpy` of a whole frame. -/
def copyFrame (m : PagedMemory) (dst src : ℕ) : PagedMemory :=
  ⟨m.bitmap, Function.update m.words dst (m.words src)⟩

def duplicatePage (target : ℕ) (m : PagedMemory) (p : UserPage) : Exec PagedMemory := do
  let (physTarget, m) ← if has pfShared p.2 then .ok ((pteGetAddr p.2).toNat, m) else pagingPhysicalAllocate m
  let m := copyFrame m (physTarget / pageSize) ((pteGetAddr p.2).toNat / pageSize)
  virtualMapL m target (pathToVirt p.1) (BitVec.ofNat 64 physTarget) (pfRw ||| pfUser)

def pageDirectoryUserDuplicate (m : PagedMemory) (source target : ℕ) : Exec PagedMemory :=
  forUserPages (duplicatePage target) 3 m source []

/-- A new directory with the entries of the kernel's. -/
def pageDirectoryAllocate (tasksInitiated : Bool) (m : PagedMemory) (model : ℕ) : Exec (ℕ × PagedMemory) :=
  if !tasksInitiated then .error .halt
  else do
    let a ← physicalAllocate m.bitmap 1
    if a.halted then .error .halt
    else
      let out := a.phys / pageSize
      let m : PagedMemory := ⟨a.bitmap, Function.update m.words out fun _ => 0⟩
      .ok (out, ⟨m.bitmap, Function.update m.words out (m.words model)⟩)

/-- The page tables of a clone: a new directory, then the user pages of the old one. -/
def taskInfoPdClone (m : PagedMemory) (model old : ℕ) : Exec (ℕ × PagedMemory) := do
  let (new, m) ← pageDirectoryAllocate true m model
  let m ← pageDirectoryUserDuplicate m old new
  .ok (new, m)

/-! ### The pages that the loops visit -/

/-- The user pages below a table. -/
def userPages (words : ℕ → Fin 512 → Word) : (levels table : ℕ) → (path : List (Fin 512)) → List UserPage
  | 0, pt, path => (List.finRange 512).flatMap fun i =>
      if has pfPresent (words pt i) && !has pfPs (words pt i) && has pfUser (words pt i) then
        [(path ++ [i], words pt i)] else []
  | levels + 1, table, path => (List.finRange 512).flatMap fun i =>
      match nextTable (words table i) with
      | some next => userPages words levels next (path ++ [i])
      | none => []

/-- The pages that the loops visit are those that the processor finds at the last
level, with the user flag and without bit 7. -/
theorem mem_userPages {words : ℕ → Fin 512 → Word} {levels table : ℕ} {path : List (Fin 512)} {p : UserPage} :
    p ∈ userPages words levels table path ↔ ∃ q, p.1 = path ++ q ∧ q.length = levels + 1 ∧
      RadixTree.lookup nextTable words (has pfPresent) table q = some (p.2, []) ∧
      has pfUser p.2 = true ∧ has pfPs p.2 = false := by
  induction levels generalizing table path with
  | zero =>
    simp only [userPages, List.mem_flatMap, List.mem_finRange, true_and]
    constructor
    · rintro ⟨i, hi⟩
      split_ifs at hi with hc
      · rw [List.mem_singleton] at hi
        subst hi
        simp only [Bool.and_eq_true, Bool.not_eq_true'] at hc
        exact ⟨[i], rfl, rfl, by simp [RadixTree.lookup, hc.1.1], hc.2, hc.1.2⟩
      · cases hi
    · rintro ⟨q, hp, hq, hl, hu, hs⟩
      obtain ⟨i, rfl⟩ := List.length_eq_one_iff.mp hq
      simp only [RadixTree.lookup] at hl
      split_ifs at hl with hpre
      simp only [Option.some.injEq, Prod.mk.injEq, and_true] at hl
      refine ⟨i, ?_⟩
      rw [hl] at hpre ⊢
      rw [if_pos (by simp [hpre, hu, hs]), List.mem_singleton]
      exact Prod.ext hp rfl
  | succ levels ih =>
    simp only [userPages, List.mem_flatMap, List.mem_finRange, true_and]
    constructor
    · rintro ⟨i, hi⟩
      cases hn : nextTable (words table i) with
      | none => rw [hn] at hi; cases hi
      | some a =>
        rw [hn] at hi
        obtain ⟨q, hp, hq, hl, hu⟩ := ih.mp hi
        refine ⟨i :: q, by rw [hp]; simp, by simp [hq], ?_, hu⟩
        rw [RadixTree.lookup_cons_of_next (by rintro rfl; simp at hq) hn]
        exact hl
    · rintro ⟨q, hp, hq, hl, hu⟩
      obtain ⟨i, q, rfl⟩ := List.exists_cons_of_ne_nil (show q ≠ [] by rintro rfl; simp at hq)
      have hq' : q.length = levels + 1 := by simpa using hq
      have hne : q ≠ [] := by rintro rfl; simp at hq'
      refine ⟨i, ?_⟩
      cases hn : nextTable (words table i) with
      | none =>
        -- the walk would end here, with a rest
        obtain ⟨j, q, rfl⟩ := List.exists_cons_of_ne_nil hne
        simp only [RadixTree.lookup, hn] at hl
        split_ifs at hl
        simp at hl
      | some a =>
        rw [RadixTree.lookup_cons_of_next hne hn] at hl
        exact ih.mpr ⟨q, by rw [hp]; simp, hq', hl, hu⟩

theorem userPages_nodup (words : ℕ → Fin 512 → Word) (levels table : ℕ) (path : List (Fin 512)) :
    ((userPages words levels table path).map Prod.fst).Nodup := by
  have hstep : ∀ g : Fin 512 → List UserPage, (∀ i, ((g i).map Prod.fst).Nodup) →
      (∀ i, ∀ p ∈ g i, path ++ [i] <+: p.1) → (((List.finRange 512).flatMap g).map Prod.fst).Nodup := by
    intro g hnodup hpre
    rw [List.map_flatMap, List.nodup_flatMap]
    refine ⟨fun i _ => hnodup i, (List.nodup_finRange 512).imp fun {i j} hij => ?_⟩
    intro q hi hj
    obtain ⟨p, hp, rfl⟩ := List.mem_map.mp hi
    obtain ⟨p', hp', heq⟩ := List.mem_map.mp hj
    have hi' := hpre i p hp
    have hj' := hpre j p' hp'
    rw [heq] at hj'
    have := List.prefix_of_prefix_length_le hi' hj' (by simp)
    exact hij (by simpa using List.IsPrefix.eq_of_length this (by simp))
  cases levels with
  | zero =>
    refine hstep _ (fun i => ?_) (fun i p hp => ?_)
    · split_ifs <;> simp
    · split_ifs at hp
      · rw [List.mem_singleton.mp hp]
      · cases hp
  | succ levels =>
    refine hstep _ (fun i => ?_) (fun i p hp => ?_)
    · cases nextTable (words table i) with
      | none => simp
      | some a => exact userPages_nodup words levels a (path ++ [i])
    · cases hn : nextTable (words table i) with
      | none => rw [hn] at hp; cases hp
      | some a =>
        rw [hn] at hp
        obtain ⟨q, hq, -⟩ := mem_userPages.mp hp
        rw [hq]
        exact List.prefix_append _ _

theorem skipped_iff (entry : Word) :
    (!has pfPresent entry || has pfPs entry) = true ↔ nextTable entry = none := by
  unfold nextTable
  cases has pfPresent entry <;> cases has pfPs entry <;> simp

/-- The loops are one run over the user pages at the start, as long as the body
writes no table that the loops read. -/
theorem forUserPages_eq {body : PagedMemory → UserPage → Exec PagedMemory} {inv : List UserPage → PagedMemory → Prop}
    {words : ℕ → Fin 512 → Word} {levels table : ℕ} {path : List (Fin 512)} {m : PagedMemory}
    {all done todo : List UserPage} (hinv : Extends body all inv)
    (hall : all = done ++ userPages words levels table path ++ todo)
    (hwords : ∀ done m, inv done m → ∀ q a, q.length ≤ levels → RadixTree.walk nextTable words table q = some a →
      m.words a = words a)
    (hm : inv done m) : forUserPages body levels m table path = run body m (userPages words levels table path) := by
  induction levels generalizing m table path done todo with
  | zero =>
    refine run_flatMap hinv hall (fun done todo m i _ _ hm => ?_) hm
    rw [hwords done m hm [] table le_rfl rfl]
    cases has pfPresent (words table i) <;> cases has pfPs (words table i) <;>
      cases has pfUser (words table i) <;> simp
  | succ levels ih =>
    refine run_flatMap hinv hall (fun done todo m i _ hall hm => ?_) hm
    rw [hwords done m hm [] table (Nat.zero_le _) rfl]
    cases hn : nextTable (words table i) with
    | none =>
      rw [if_pos ((skipped_iff _).mpr hn)]
      rfl
    | some a =>
      have hframe : entryFrame (words table i) = a := by
        unfold nextTable at hn
        split_ifs at hn
        exact Option.some.inj hn
      rw [if_neg (by rw [skipped_iff, hn]; simp), hframe]
      simp only [hn] at hall
      refine ih hall (fun done m hm q b hq hb => hwords done m hm (i :: q) b (by simpa using hq) ?_) hm
      rw [RadixTree.walk_cons, hn]
      exact hb

/-- The pages of a directory that the loops visit. -/
def PagedMemory.userPagesOf (m : PagedMemory) (dir : ℕ) : List UserPage := userPages m.words 3 dir []

theorem PagedMemory.mem_userPagesOf {m : PagedMemory} {dir : ℕ} {p : UserPage} :
    p ∈ m.userPagesOf dir ↔ p.1.length = 4 ∧ m.lookup dir p.1 = some (p.2, []) ∧
      has pfUser p.2 = true ∧ has pfPs p.2 = false := by
  unfold userPagesOf
  rw [mem_userPages]
  constructor
  · rintro ⟨q, hp, hq, hl, hu⟩
    rw [List.nil_append] at hp
    rw [hp]
    exact ⟨hq, hl, hu⟩
  · rintro ⟨hq, hl, hu⟩
    exact ⟨p.1, rfl, hq, hl, hu⟩

theorem PagedMemory.userPagesOf_nodup (m : PagedMemory) (dir : ℕ) : ((m.userPagesOf dir).map Prod.fst).Nodup := by
  rw [userPagesOf]
  exact userPages_nodup m.words 3 dir []

/-- Freeing a directory frees the frame of each of its user pages in turn. -/
theorem pageDirectoryFree_eq (m : PagedMemory) (dir : ℕ) :
    pageDirectoryFree m dir = run freePage m (m.userPagesOf dir) := by
  unfold pageDirectoryFree PagedMemory.userPagesOf
  have hkeep : Extends freePage (userPages m.words 3 dir []) fun _ m' => m'.words = m.words := by
    intro _ p _ m₁ m₂ _ h₁ h₂
    obtain ⟨bm, -, h₂⟩ := Exec.bind_ok_iff.mp h₂
    cases h₂
    exact h₁
  exact forUserPages_eq hkeep (eq_nil_append_append_nil _) (fun _ m' hm' q a _ _ => congrFun hm' a) rfl

end DualFuse.Memory
