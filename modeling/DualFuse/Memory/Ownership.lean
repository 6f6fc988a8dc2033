import DualFuse.Memory.Paging

/-! Which frames the page tables refer to. Several directories may share tables,
so the tables form levels and not a tree. A frame counts as owned from the time
`physical_allocate` hands it out until the replacement of a mapping gives it
back. Replacing a mapping gives back the old frame whatever else refers to it: the
invariant needs that the new frame is another one and that no further entry uses
the old one. -/

namespace DualFuse.Memory

open Library Utility

namespace PagedMemory

/-- A table of the last level of one of the directories. -/
def LastTable (m : PagedMemory) (dirs : List ℕ) (pt : ℕ) : Prop :=
  ∃ d ∈ dirs, ∃ q : List (Fin 512), q.length = 3 ∧ m.table d q = some pt

/-- A present leaf entry refers to the frame. -/
def Mapped (m : PagedMemory) (dirs : List ℕ) (f : ℕ) : Prop :=
  ∃ pt i, m.LastTable dirs pt ∧ has pfPresent (m.words pt i) = true ∧ entryFrame (m.words pt i) = f

/-- Directories have level four and a table one level less than the tables that
refer to it. Tables are in use, leaf entries refer to owned frames, and owned
frames are in use and no tables. -/
structure Levelled (m : PagedMemory) (dirs owned : List ℕ) (level : ℕ → ℕ) : Prop where
  dir : ∀ d ∈ dirs, level d = 4
  next : ∀ a i b, 2 ≤ level a → nextTable (m.words a i) = some b → level b + 1 = level a
  used : ∀ a, 1 ≤ level a → ¬m.Free a
  leaf : ∀ a i, m.LastTable dirs a → has pfPresent (m.words a i) = true → entryFrame (m.words a i) ∈ owned
  owned : ∀ f ∈ owned, level f = 0 ∧ ¬m.Free f ∧ 1 ≤ f

variable {m m' : PagedMemory} {dirs owned : List ℕ} {level : ℕ → ℕ}

/-- The levels along a walk. -/
theorem Levelled.table_level (h : m.Levelled dirs owned level) {d : ℕ} (hd : d ∈ dirs) {q : List (Fin 512)}
    (hq : q.length ≤ 3) {a : ℕ} (ha : m.table d q = some a) : level a + q.length = 4 := by
  induction q using List.reverseRecOn generalizing a with
  | nil => cases ha; simpa using h.dir d hd
  | append_singleton q i ih =>
    rw [List.length_append, List.length_singleton] at hq ⊢
    rw [table, RadixTree.walk_snoc] at ha
    obtain ⟨b, hb, ha⟩ := Option.bind_eq_some_iff.mp ha
    have hlevel := ih (by omega) hb
    have := h.next b i a (by omega) ha
    omega

theorem Levelled.lastTable_level (h : m.Levelled dirs owned level) {a : ℕ} (ha : m.LastTable dirs a) :
    level a = 1 := by
  obtain ⟨d, hd, q, hq, hqa⟩ := ha
  have := h.table_level hd hq.le hqa
  omega

/-- A new table under an absent entry is the only table that comes to be reached. -/
theorem table_of_link {d t f : ℕ} {i : Fin 512} {a : ℕ} (hzero : ∀ j, m'.words f j = 0)
    (hlink : nextTable (m'.words t i) = some f)
    (hother : ∀ b j, b ≠ f → ¬(b = t ∧ j = i) → m'.words b j = m.words b j) {q : List (Fin 512)}
    (ha : m'.table d q = some a) : m.table d q = some a ∨ a = f := by
  induction q using List.reverseRecOn generalizing a with
  | nil => exact .inl ha
  | append_singleton q j ih =>
    rw [table, RadixTree.walk_snoc] at ha
    obtain ⟨b, hb, ha⟩ := Option.bind_eq_some_iff.mp ha
    by_cases hbf : b = f
    · rw [hbf, hzero j, nextTable_zero] at ha
      cases ha
    · by_cases hbt : b = t ∧ j = i
      · obtain ⟨rfl, rfl⟩ := hbt
        exact .inr (Option.some.inj (ha.symm.trans hlink))
      · have hb' : m.table d q = some b := (ih hb).resolve_right hbf
        rw [hother b j hbf hbt] at ha
        exact .inl ((RadixTree.walk_snoc_of_walk hb' j).trans ha)

/-- Going down one level, with a new table where there was none. -/
theorem Levelled.ensureTable (h : m.Levelled dirs owned level) (hr : m.Ready) {t f : ℕ} {i : Fin 512}
    (ht : 2 ≤ level t) {rest : List (Fin 512)} (hrest : rest ≠ []) (hn : m.NoLargePage t (i :: rest))
    (he : Memory.ensureTable m t i = .ok (f, m')) :
    (m' = m ∧ nextTable (m.words t i) = some f) ∨
    (m'.Ready ∧ nextTable (m.words t i) = none ∧ (∀ j, m'.words f j = 0) ∧
      m'.Levelled dirs owned (Function.update level f (level t - 1))) := by
  rcases ensureTable_cases hr t i with ⟨hpre, he'⟩ | ⟨-, -, he'⟩ | ⟨g, m₁, hpre, htake, he', -, hwords⟩
  · rw [he'] at he
    cases he
    exact .inl ⟨rfl, hn.entry (p := []) rfl hrest hpre⟩
  · rw [he'] at he
    cases he
  · rw [he'] at he
    cases he
    have hlevel : ∀ a, a ≠ f → Function.update level f (level t - 1) a = level a :=
      fun a ha => Function.update_of_ne ha _ _
    have hf0 : level f = 0 := by
      by_contra hne
      exact h.used f (by omega) htake.free
    have htf : t ≠ f := by rintro rfl; omega
    have hzero : ∀ j, m'.words f j = 0 := by
      intro j
      rw [hwords, RadixTree.put_node _ _ _ _ htf.symm, Function.update_self]
    have hlink : nextTable (m'.words t i) = some f := by
      rw [hwords, RadixTree.put_same]
      exact nextTable_tableEntry htake.lt
    have hother : ∀ b j, b ≠ f → ¬(b = t ∧ j = i) → m'.words b j = m.words b j := by
      intro b j hb hbj
      rw [hwords, RadixTree.put_of_ne _ _ hbj, Function.update_of_ne hb]
    have hdf : ∀ d ∈ dirs, d ≠ f := by
      rintro d hd rfl
      have := h.dir d hd
      omega
    refine .inr ⟨htake.ready, nextTable_of_absent hpre, hzero, fun d hd => ?_, fun a j b ha hb => ?_, fun a ha => ?_, fun a j ha hj => ?_,
      fun g hg => ?_⟩
    · rw [hlevel d (hdf d hd)]
      exact h.dir d hd
    · by_cases haf : a = f
      · rw [haf, hzero j, nextTable_zero] at hb
        cases hb
      · rw [hlevel a haf] at ha ⊢
        by_cases hat : a = t ∧ j = i
        · obtain ⟨rfl, rfl⟩ := hat
          cases hlink.symm.trans hb
          rw [Function.update_self]
          omega
        · rw [hother a j haf hat] at hb
          have hb' := h.next a j b ha hb
          rw [hlevel b (by rintro rfl; omega)]
          exact hb'
    · rw [htake.free_iff]
      by_cases haf : a = f
      · simp [haf]
      · rw [hlevel a haf] at ha
        exact fun hfree => h.used a ha hfree.1
    · obtain ⟨d, hd, q, hq, hqa⟩ := ha
      rcases table_of_link hzero hlink hother hqa with hold | rfl
      · have hlast : m.LastTable dirs a := ⟨d, hd, q, hq, hold⟩
        have hl1 := h.lastTable_level hlast
        rw [hother a j (by rintro rfl; omega) (by rintro ⟨rfl, -⟩; omega)] at hj ⊢
        exact h.leaf a j hlast hj
      · rw [hzero j] at hj
        exact absurd hj (by decide)
    · obtain ⟨hg0, hgfree, hgpos⟩ := h.owned g hg
      have hgf : g ≠ f := by rintro rfl; exact hgfree htake.free
      rw [hlevel g hgf, htake.free_iff]
      exact ⟨hg0, fun hfree => hgfree hfree.1, hgpos⟩

/-- Going down to the last level: either every table was there and nothing changed,
or the last table is new and empty. -/
theorem Levelled.ensureTables {rest : List (Fin 512)} (last : Fin 512) {t pt : ℕ}
    (h : m.Levelled dirs owned level) (hr : m.Ready) (ht : level t = rest.length + 1)
    (hn : m.NoLargePage t (rest ++ [last])) (he : Memory.ensureTables m t rest = .ok (pt, m')) :
    m'.Ready ∧ ∃ level', m'.Levelled dirs owned level' ∧ level' pt = 1 ∧
      ((m' = m ∧ m.table t rest = some pt) ∨ (m.table t rest = none ∧ ∀ j, m'.words pt j = 0)) := by
  induction rest generalizing m t level with
  | nil =>
    cases he
    exact ⟨hr, level, h, ht, .inl ⟨rfl, rfl⟩⟩
  | cons i rest ih =>
    simp only [Memory.ensureTables] at he
    obtain ⟨⟨f, m₁⟩, hstep, hrest⟩ := Exec.bind_ok_iff.mp he
    rw [List.length_cons] at ht
    rcases h.ensureTable hr (by omega) (by simp) hn hstep with ⟨rfl, hnext⟩ | ⟨hr₁, habsent, hzero, h₁⟩
    · have hf := h.next t i f (by omega) hnext
      have hn' : m₁.NoLargePage f (rest ++ [last]) := by
        intro e l hl
        refine hn e l ?_
        rw [lookup, List.cons_append, RadixTree.lookup_cons_of_next (by simp) hnext]
        exact hl
      obtain ⟨hr', level', h', hpt, hcase⟩ := ih h hr (by omega) hn' hrest
      have htable : m₁.table t (i :: rest) = m₁.table f rest := by
        rw [table, RadixTree.walk_cons, hnext]
        rfl
      rw [htable]
      exact ⟨hr', level', h', hpt, hcase⟩
    · have hn' : m₁.NoLargePage f (rest ++ [last]) := by
        intro e l hl
        have hnone : m₁.lookup f (rest ++ [last]) = none := RadixTree.lookup_of_empty
          (fun j => by rw [hzero j, nextTable_zero]) (fun j => by rw [hzero j, has_zero]) _
        cases hnone.symm.trans hl
      obtain ⟨hr', level', h', hpt, hcase⟩ := ih h₁ hr₁ (by rw [Function.update_self]; omega) hn' hrest
      refine ⟨hr', level', h', hpt, .inr ⟨by rw [table, RadixTree.walk_cons, habsent]; rfl, ?_⟩⟩
      rcases hcase with ⟨rfl, htab⟩ | ⟨-, hz⟩
      · -- only the new table itself is reached from an empty table
        cases rest with
        | nil => cases htab; exact hzero
        | cons j rest =>
          rw [table, RadixTree.walk_cons, hzero j, nextTable_zero] at htab
          cases htab
      · exact hz

/-- Overwriting a leaf entry when only frames that are neither tables nor owned
any more become free. -/
theorem Levelled.put (h : m.Levelled dirs owned level) {pt : ℕ} {i : Fin 512} {entry : Word} {bm : Bitmap}
    {owned' : List ℕ} (hpt : level pt = 1) (hsub : ∀ f ∈ owned', f ∈ owned) (hnew : entryFrame entry ∈ owned')
    (hfree : ∀ k, PagedMemory.Free ⟨bm, m.words⟩ k → m.Free k ∨ (level k = 0 ∧ k ∉ owned'))
    (hleaf : ∀ a j, m.LastTable dirs a → ¬(a = pt ∧ j = i) → has pfPresent (m.words a j) = true →
      entryFrame (m.words a j) ∈ owned') :
    (PagedMemory.write ⟨bm, m.words⟩ pt i entry).Levelled dirs owned' level := by
  -- walks to the last level read only tables above it
  have hwalk : ∀ d ∈ dirs, ∀ q : List (Fin 512), q.length = 3 →
      (PagedMemory.write ⟨bm, m.words⟩ pt i entry).table d q = m.table d q := by
    intro d hd q hq
    refine RadixTree.walk_congr fun q' j a hq' ha => ?_
    have hlen := hq'.length_le
    rw [List.length_append, List.length_singleton] at hlen
    have := h.table_level hd (by omega) ha
    change nextTable (RadixTree.put m.words pt i entry a j) = _
    rw [RadixTree.put_node]
    rintro rfl
    omega
  refine ⟨h.dir, fun a j b ha hb => ?_, fun a ha hf => ?_, fun a j ha hj => ?_, fun f hf => ?_⟩
  · change nextTable (RadixTree.put m.words pt i entry a j) = _ at hb
    rw [RadixTree.put_node _ _ _ _ (by rintro rfl; omega)] at hb
    exact h.next a j b ha hb
  · rcases hfree a hf with hold | ⟨hzero, -⟩
    · exact h.used a ha hold
    · omega
  · obtain ⟨d, hd, q, hq, hqa⟩ := ha
    rw [hwalk d hd q hq] at hqa
    change has pfPresent (RadixTree.put m.words pt i entry a j) = true at hj
    change entryFrame (RadixTree.put m.words pt i entry a j) ∈ owned'
    by_cases hat : a = pt ∧ j = i
    · obtain ⟨rfl, rfl⟩ := hat
      rw [RadixTree.put_same]
      exact hnew
    · rw [RadixTree.put_of_ne _ _ hat] at hj ⊢
      exact hleaf a j ⟨d, hd, q, hq, hqa⟩ hat hj
  · obtain ⟨h0, hused, hpos⟩ := h.owned f (hsub f hf)
    refine ⟨h0, fun hnow => ?_, hpos⟩
    rcases hfree f hnow with hold | ⟨-, hgone⟩
    · exact hused hold
    · exact hgone hf

/-- The frame of the entry that is replaced is another than the new one, and no
other leaf entry refers to it. -/
def Replaceable (m : PagedMemory) (dirs : List ℕ) (pt : ℕ) (i : Fin 512) (entry : Word) : Prop :=
  has pfPresent (m.words pt i) = true →
    entryFrame (m.words pt i) ≠ entryFrame entry ∧
    ∀ pt' i', m.LastTable dirs pt' → has pfPresent (m.words pt' i') = true →
      entryFrame (m.words pt' i') = entryFrame (m.words pt i) → pt' = pt ∧ i' = i

/-- The write of a leaf: the replaced frame is owned no longer. -/
theorem Levelled.writeLeaf (h : m.Levelled dirs owned level) (hr : m.Ready) {pt : ℕ} {i : Fin 512}
    {phys flags : Word} (hpt : level pt = 1) (hnew : entryFrame (leafEntry phys flags) ∈ owned)
    (hlast : has pfPresent (m.words pt i) = true → m.LastTable dirs pt)
    (hreplace : m.Replaceable dirs pt i (leafEntry phys flags))
    (he : Memory.writeLeaf m pt i phys flags = .ok m') :
    m'.Ready ∧ m'.Levelled dirs
      (if has pfPresent (m.words pt i) then owned.filter (· ≠ entryFrame (m.words pt i)) else owned) level := by
  rcases writeLeaf_cases hr pt i phys flags with ⟨hpre, he'⟩ | ⟨-, -, he'⟩ | ⟨bm', hpre, hs, hm, he'⟩
  · rw [he'] at he
    cases he
    rw [if_neg (by simp [hpre])]
    exact ⟨⟨hr.physical, hr.fits⟩, h.put hpt (fun _ hf => hf) hnew (fun _ hk => .inl hk)
      fun a j ha _ hj => h.leaf a j ha hj⟩
  · rw [he'] at he
    cases he
  · rw [he'] at he
    cases he
    rw [if_pos hpre]
    obtain ⟨hne, hother⟩ := hreplace hpre
    obtain ⟨hold0, -, holdpos⟩ := h.owned _ (h.leaf pt i (hlast hpre) hpre)
    refine ⟨⟨hr.physical.of_marked hm hs holdpos, ?_⟩, h.put hpt (fun f hf => (List.mem_filter.mp hf).1) ?_ ?_ ?_⟩
    · change bm'.sizeInBlocks ≤ _
      rw [hm.blocks]
      exact hr.fits
    · exact List.mem_filter.mpr ⟨hnew, by simpa using hne.symm⟩
    · intro k hk
      by_cases hkold : k = entryFrame (m.words pt i)
      · exact .inr ⟨hkold ▸ hold0, by simp [hkold]⟩
      · refine .inl ⟨hm.blocks ▸ hk.1, ?_⟩
        rw [← hm.get_outside (k := k) (by omega)]
        exact hk.2
    · intro a j ha hnot hj
      refine List.mem_filter.mpr ⟨h.leaf a j ha hj, ?_⟩
      simpa using fun heq => hnot (hother a j ha hj heq)

end PagedMemory

/-! ### Runs -/

/-- Memory with the frames that were handed out and not given back. -/
structure Owners where
  memory : PagedMemory
  owned : List ℕ

inductive PageCall where
  | allocate (pages : ℤ)
  | map (pagedir : ℕ) (virt phys flags : Word)

namespace Owners

/-- The frame whose mapping a call replaces is given back. -/
def afterMap (s : Owners) (pagedir : ℕ) (virt : Word) : List ℕ :=
  match s.memory.translate pagedir virt with
  | some (entry, _) => s.owned.filter (· ≠ entryFrame entry)
  | none => s.owned

def step (s : Owners) : PageCall → Exec Owners
  | .allocate pages => do
    let a ← physicalAllocate s.memory.bitmap pages
    if a.halted then .error .halt
    else .ok ⟨⟨a.bitmap, s.memory.words⟩, List.range' (a.phys / pageSize) pages.toNat ++ s.owned⟩
  | .map pagedir virt phys flags => do
    let m ← virtualMapL s.memory pagedir virt phys flags
    .ok ⟨m, s.afterMap pagedir virt⟩

/-- Page counts are positive `int`s; a page of a known directory is mapped, off the
large pages, to a frame that is allocated. -/
def Legal (dirs : List ℕ) (s : Owners) : PageCall → Prop
  | .allocate pages => 0 < pages ∧ pages < 2 ^ 31
  | .map pagedir virt phys flags => pagedir ∈ dirs ∧ s.memory.NoLargePage pagedir (indices virt) ∧
    phys.toNat < 2 ^ 52 ∧ pteGetAddr flags = 0 ∧ phys.toNat / pageSize ∈ s.owned

instance (dirs : List ℕ) (s : Owners) : (c : PageCall) → Decidable (s.Legal dirs c)
  | .allocate pages => inferInstanceAs (Decidable (0 < pages ∧ pages < 2 ^ 31))
  | .map pagedir virt phys flags => inferInstanceAs (Decidable (pagedir ∈ dirs ∧
    s.memory.NoLargePage pagedir (indices virt) ∧ phys.toNat < 2 ^ 52 ∧ pteGetAddr flags = 0 ∧
    phys.toNat / pageSize ∈ s.owned))

/-- A page that is already mapped is mapped to another frame than before, and no
other leaf entry refers to the frame it had. -/
def Replaces (dirs : List ℕ) (s : Owners) : PageCall → Prop
  | .allocate _ => True
  | .map pagedir virt phys flags => ∀ pt, s.memory.table pagedir (upperIndices virt) = some pt →
    s.memory.Replaceable dirs pt (pte (stripSx virt)) (leafEntry phys flags)

/-- The allocator works and every leaf entry refers to an owned frame in use. -/
def Sound (dirs : List ℕ) (s : Owners) : Prop :=
  s.memory.Ready ∧ ∃ level, s.memory.Levelled dirs s.owned level

variable {dirs : List ℕ} {s s' : Owners}

theorem Sound.allocate (h : s.Sound dirs) {n : ℕ} (hn : 1 ≤ n) (hint : n < 2 ^ 31) {a : Allocation}
    (ha : physicalAllocate s.memory.bitmap n = .ok a) (hok : a.halted = false) :
    Sound dirs ⟨⟨a.bitmap, s.memory.words⟩, List.range' (a.phys / pageSize) n ++ s.owned⟩ := by
  obtain ⟨hr, level, hl⟩ := h
  rcases physicalAllocate_spec hr.physical hn hint with ⟨-, he⟩ | ⟨b, bm', hleast, hpos, hm, hp', he⟩
  · rw [he] at ha; cases ha; cases hok
  · rw [he] at ha; cases ha
    have hrun : s.memory.bitmap.FreeRun n b := hleast.1
    have hframe : b * blockSize / pageSize = b := by unfold blockSize pageSize; omega
    have hfree : ∀ k, PagedMemory.Free ⟨bm', s.memory.words⟩ k → s.memory.Free k ∧ ¬(b ≤ k ∧ k < b + n) := by
      rintro k ⟨hk, hget⟩
      have hout : ¬(b ≤ k ∧ k < b + n) := fun hin => by
        rw [hm.get_inside hin.1 hin.2] at hget
        cases hget
      exact ⟨⟨hm.blocks ▸ hk, by rw [← hm.get_outside (k := k) (by omega)]; exact hget⟩, hout⟩
    refine ⟨⟨hp', by rw [hm.blocks]; exact hr.fits⟩, level, hl.dir, hl.next,
      fun a ha hf => hl.used a ha (hfree a hf).1, fun a j ha hj => List.mem_append_right _ (hl.leaf a j ha hj),
      fun f hf => ?_⟩
    rcases List.mem_append.mp hf with hnew | hold
    · rw [hframe, List.mem_range'_1] at hnew
      have hwas : s.memory.Free f := ⟨by have := hrun.1; omega, hrun.get hnew.1 hnew.2⟩
      refine ⟨?_, fun hnow => (hfree f hnow).2 hnew, by omega⟩
      by_contra hne
      exact hl.used f (by omega) hwas
    · obtain ⟨h0, hused, hpos'⟩ := hl.owned f hold
      exact ⟨h0, fun hnow => hused (hfree f hnow).1, hpos'⟩

theorem Sound.map (h : s.Sound dirs) {pagedir : ℕ} {virt phys flags : Word} {m' : PagedMemory}
    (hlegal : s.Legal dirs (.map pagedir virt phys flags)) (hrep : s.Replaces dirs (.map pagedir virt phys flags))
    (he : virtualMapL s.memory pagedir virt phys flags = .ok m') :
    Sound dirs ⟨m', s.afterMap pagedir virt⟩ := by
  obtain ⟨hr, level, hl⟩ := h
  obtain ⟨hdir, hn, hphys, hflags, howned⟩ := hlegal
  have halign : virt.toNat % pageSize = 0 := by
    by_contra hne
    rw [virtualMapL, if_pos hne] at he
    cases he
  rw [← entryFrame_leafEntry hphys hflags] at howned
  cases htab : ensureTables s.memory pagedir (upperIndices virt) with
  | error e => rw [virtualMapL_of_stop halign htab] at he; cases he
  | ok r =>
    obtain ⟨pt, m₁⟩ := r
    rw [virtualMapL_of_tables halign htab] at he
    obtain ⟨hr₁, level', hl₁, hpt, hcase⟩ := hl.ensureTables (pte (stripSx virt)) hr (hl.dir _ hdir) hn htab
    have hafter : s.afterMap pagedir virt =
        if has pfPresent (m₁.words pt (pte (stripSx virt))) then
          s.owned.filter (· ≠ entryFrame (m₁.words pt (pte (stripSx virt)))) else s.owned := by
      unfold afterMap
      rw [hn.translate_eq]
      rcases hcase with ⟨rfl, hreach⟩ | ⟨hnone, hzero⟩
      · rw [hreach, Option.bind_some]
        split_ifs <;> rfl
      · rw [hnone, hzero, has_zero]
        rfl
    have hcond : (has pfPresent (m₁.words pt (pte (stripSx virt))) = true → m₁.LastTable dirs pt) ∧
        m₁.Replaceable dirs pt (pte (stripSx virt)) (leafEntry phys flags) := by
      rcases hcase with ⟨rfl, hreach⟩ | ⟨-, hzero⟩
      · exact ⟨fun _ => ⟨pagedir, hdir, _, rfl, hreach⟩, hrep pt hreach⟩
      · unfold PagedMemory.Replaceable
        rw [hzero, has_zero]
        simp
    obtain ⟨hr', hl'⟩ := hl₁.writeLeaf hr₁ hpt howned hcond.1 hcond.2 he
    rw [hafter]
    exact ⟨hr', level', hl'⟩

theorem Sound.step (h : s.Sound dirs) {c : PageCall} (hlegal : s.Legal dirs c) (hrep : s.Replaces dirs c)
    (he : s.step c = .ok s') : s'.Sound dirs := by
  cases c with
  | allocate pages =>
    obtain ⟨hpos, hint⟩ := hlegal
    obtain ⟨n, rfl⟩ := Int.eq_ofNat_of_zero_le hpos.le
    obtain ⟨a, ha, he⟩ := Exec.bind_ok_iff.mp he
    cases hhalt : a.halted with
    | true => simp [hhalt] at he
    | false =>
      simp only [hhalt, Bool.false_eq_true, if_false, Except.ok.injEq, Int.toNat_natCast] at he
      subst he
      exact h.allocate (by omega) (by exact_mod_cast hint) ha hhalt
  | map pagedir virt phys flags =>
    obtain ⟨m', hm', he⟩ := Exec.bind_ok_iff.mp he
    cases he
    exact h.map hlegal hrep hm'

theorem Sound.mapped_used (h : s.Sound dirs) {f : ℕ} (hf : s.memory.Mapped dirs f) : ¬s.memory.Free f := by
  obtain ⟨-, level, hl⟩ := h
  obtain ⟨pt, i, hlast, hpre, rfl⟩ := hf
  exact (hl.owned _ (hl.leaf pt i hlast hpre)).2.1

/-- What an allocation hands out was free, so it is not mapped. -/
theorem Sound.allocate_unmapped (h : s.Sound dirs) {pages : ℤ} (hpos : 0 < pages) (hint : pages < 2 ^ 31)
    {a : Allocation} (ha : physicalAllocate s.memory.bitmap pages = .ok a) (hok : a.halted = false) {f : ℕ}
    (hf : s.memory.Mapped dirs f) : ¬(a.phys / pageSize ≤ f ∧ f < a.phys / pageSize + pages.toNat) := by
  have hused := h.mapped_used hf
  obtain ⟨n, rfl⟩ := Int.eq_ofNat_of_zero_le hpos.le
  rcases physicalAllocate_spec h.1.physical (n := n) (by omega) (by exact_mod_cast hint) with
    ⟨-, he⟩ | ⟨b, bm', hleast, -, -, -, he⟩
  · rw [he] at ha; cases ha; cases hok
  · rw [he] at ha; cases ha
    have hrun : s.memory.bitmap.FreeRun n b := hleast.1
    have hframe : b * blockSize / pageSize = b := by unfold blockSize pageSize; omega
    rw [hframe, Int.toNat_natCast]
    rintro ⟨hlo, hhi⟩
    exact hused ⟨by have := hrun.1; omega, hrun.get hlo hhi⟩

end Owners

/-- Along every run of legal calls in which a page that is already mapped gets
another frame, and had a frame that no other leaf entry refers to: no frame of a
present leaf entry is free, and no allocation hands out such a frame. -/
theorem mapped_frames_stay_used (dirs : List ℕ) (s₀ s : Owners) (h₀ : s₀.Sound dirs) (calls : List PageCall)
    (hcalls : Guarded Owners.step (fun t c => t.Legal dirs c ∧ t.Replaces dirs c) s₀ calls)
    (hrun : run Owners.step s₀ calls = .ok s) :
    (∀ f, s.memory.Mapped dirs f → ¬s.memory.Free f) ∧
    ∀ pages a, 0 < pages → pages < 2 ^ 31 → physicalAllocate s.memory.bitmap pages = .ok a → a.halted = false →
      ∀ f, s.memory.Mapped dirs f → ¬(a.phys / pageSize ≤ f ∧ f < a.phys / pageSize + pages.toNat) := by
  have hs : s.Sound dirs :=
    run_invariant_of_guarded (fun t c t' ht hc => ht.step hc.1 hc.2) h₀ hcalls hrun
  exact ⟨fun f => hs.mapped_used, fun pages a hpos hint ha hok f => hs.allocate_unmapped hpos hint ha hok⟩

theorem blankMemory_sound : Owners.Sound [0] ⟨blankMemory, []⟩ := by
  refine ⟨blankMemory_ready, fun a => if a = 0 then 4 else 0, by simp, fun a i b _ hb => ?_, fun a ha hf => ?_,
    fun a i _ hi => ?_, by simp⟩
  · rw [show blankMemory.words a i = 0 from rfl, nextTable_zero] at hb
    cases hb
  · have h0 : a = 0 := by
      by_contra hne
      simp [hne] at ha
    subst h0
    exact absurd hf.2 (by decide)
  · rw [show blankMemory.words a i = 0 from rfl, has_zero] at hi
    cases hi

theorem blankMemory_first_map : ∃ s, run Owners.step ⟨blankMemory, []⟩
    [.allocate 1, .map 0 0x400000 0x1000 pfRw] = .ok s ∧ s.memory.Mapped [0] 1 ∧ ¬s.memory.Free 1 := by
  obtain ⟨s, hs, ht, hpre, hframe⟩ : ∃ s, run Owners.step ⟨blankMemory, []⟩
      [.allocate 1, .map 0 0x400000 0x1000 pfRw] = .ok s ∧ s.memory.table 0 [0, 0, 2] = some 4 ∧
      has pfPresent (s.memory.words 4 0) = true ∧ entryFrame (s.memory.words 4 0) = 1 := by decide +kernel
  have hmapped : s.memory.Mapped [0] 1 := ⟨4, 0, ⟨0, by simp, [0, 0, 2], rfl, ht⟩, hpre, hframe⟩
  have hnew : ∀ t, Owners.step ⟨blankMemory, []⟩ (.allocate 1) = .ok t →
      t.Legal [0] (.map 0 0x400000 0x1000 pfRw) ∧ t.memory.table 0 (upperIndices 0x400000) = none := by
    decide +kernel
  refine ⟨s, hs, hmapped, (mapped_frames_stay_used [0] _ s blankMemory_sound _ ?_ hs).1 1 hmapped⟩
  refine ⟨⟨by decide, trivial⟩, fun t ht => ⟨⟨(hnew t ht).1, fun pt hpt => ?_⟩, fun _ _ => trivial⟩⟩
  cases (hnew t ht).2.symm.trans hpt

/-- Mapping the page once more to its own frame, with one more flag: the frame is
given back while the page still refers to it, and the next allocation hands it out. -/
theorem remap_frees_mapped_frame : ∃ s, run Owners.step ⟨blankMemory, []⟩
      [.allocate 1, .map 0 0x400000 0x1000 pfRw, .map 0 0x400000 0x1000 (pfRw ||| pfUser)] = .ok s ∧
    Guarded Owners.step (Owners.Legal [0]) ⟨blankMemory, []⟩
      [.allocate 1, .map 0 0x400000 0x1000 pfRw, .map 0 0x400000 0x1000 (pfRw ||| pfUser)] ∧
    s.memory.Mapped [0] 1 ∧ s.memory.Free 1 ∧
    ∃ a, physicalAllocate s.memory.bitmap 1 = .ok a ∧ a.halted = false ∧ a.phys = 0x1000 := by
  obtain ⟨s, hs, ht, hpre, hframe, hrest⟩ : ∃ s, run Owners.step ⟨blankMemory, []⟩
      [.allocate 1, .map 0 0x400000 0x1000 pfRw, .map 0 0x400000 0x1000 (pfRw ||| pfUser)] = .ok s ∧
      s.memory.table 0 [0, 0, 2] = some 4 ∧ has pfPresent (s.memory.words 4 0) = true ∧
      entryFrame (s.memory.words 4 0) = 1 ∧ s.memory.Free 1 ∧
      ∃ a, physicalAllocate s.memory.bitmap 1 = .ok a ∧ a.halted = false ∧ a.phys = 0x1000 := by decide +kernel
  exact ⟨s, hs, by decide +kernel, ⟨4, 0, ⟨0, by simp, [0, 0, 2], rfl, ht⟩, hpre, hframe⟩, hrest⟩

end DualFuse.Memory
