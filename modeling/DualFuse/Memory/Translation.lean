import DualFuse.Memory.Paging

/-! Mapping a page and translating addresses afterwards. The tables on the path
are created one by one, each step a graft of a zeroed frame, so no lookup changes;
the last write then changes exactly the lookup of the mapped page. The software
walk agrees with the processor wherever no large page is on the path. -/

namespace DualFuse.Memory

open Library Utility

namespace PagedMemory

/-- `m'` is `m` with empty tables added along `path`. -/
structure Grown (m m' : PagedMemory) (pagedir : ℕ) (path : List (Fin 512)) : Prop where
  ready : m'.Ready
  wf : m'.WellFormed pagedir
  bytes : m'.bitmap.sizeInBytes = m.bitmap.sizeInBytes
  free : ∀ k, m'.Free k → m.Free k
  tables : ∀ q a, q.length ≤ 3 → m.table pagedir q = some a → m'.table pagedir q = some a
  lookups : ∀ q, q.length = 4 → m'.lookup pagedir q = m.lookup pagedir q
  created : ∀ q f, q.length ≤ 3 → m.table pagedir q = none → m'.table pagedir q = some f →
    q <+: path ∧ m.Free f ∧ (∃ t t', pagingPhysicalAllocate t = .ok (f * pageSize, t')) ∧
      ∀ j, ¬q ++ [j] <+: path → m'.words f j = 0
  kept : ∀ b j, ¬m.Free b → (∀ q, q ++ [j] <+: path → m.table pagedir q ≠ some b) →
    m'.words b j = m.words b j

variable {m m' m'' : PagedMemory} {pagedir : ℕ} {path path' : List (Fin 512)}

theorem Grown.refl (hr : m.Ready) (hw : m.WellFormed pagedir) (path : List (Fin 512)) :
    m.Grown m pagedir path :=
  ⟨hr, hw, rfl, fun _ h => h, fun _ _ _ h => h, fun _ _ => rfl, fun q f _ hn hs => by simp [hn] at hs,
    fun _ _ _ _ => rfl⟩

theorem Grown.trans (h : m.Grown m' pagedir path) (h' : m'.Grown m'' pagedir path') (hp : path <+: path')
    (hlen : path'.length ≤ 3) : m.Grown m'' pagedir path' := by
  have hshort : ∀ (q : List (Fin 512)) j, q ++ [j] <+: path' → q.length ≤ 3 := by
    intro q j hq
    have := hq.length_le
    rw [List.length_append, List.length_singleton] at this
    omega
  refine ⟨h'.ready, h'.wf, h'.bytes.trans h.bytes, fun k hk => h.free k (h'.free k hk),
    fun q a hq ha => h'.tables q a hq (h.tables q a hq ha),
    fun q hq => (h'.lookups q hq).trans (h.lookups q hq), fun q f hq hn hs => ?_, fun b j hb hoff => ?_⟩
  · cases hmid : m'.table pagedir q with
    | none =>
      obtain ⟨hpre, hfree, hget, hzero⟩ := h'.created q f hq hmid hs
      exact ⟨hpre, h.free f hfree, hget, hzero⟩
    | some g =>
      have hgf : g = f := Option.some.inj ((h'.tables q g hq hmid).symm.trans hs)
      subst hgf
      obtain ⟨hpre, hfree, hget, hzero⟩ := h.created q g hq hn hmid
      refine ⟨hpre.trans hp, hfree, hget, fun j hj => ?_⟩
      rw [h'.kept g j (h.wf.used q g hq hmid), hzero j fun hpre => hj (hpre.trans hp)]
      -- only the path to `g` itself could have written one of its entries
      intro q' hq' hg
      exact hj (h.wf.tree q' q g (hshort q' j hq') hq hg hmid ▸ hq')
  · rw [h'.kept b j (fun hf => hb (h.free b hf)), h.kept b j hb fun q hq => hoff q (hq.trans hp)]
    intro q hq hqb
    cases hold : m.table pagedir q with
    | none => exact hb (h.created q b (hshort q j hq) hold hqb).2.1
    | some a =>
      have := (h.tables q a (hshort q j hq) hold).symm.trans hqb
      exact hoff q hq (hold.trans this)

/-- One step down the path. -/
theorem Grown.step (hr : m.Ready) (hw : m.WellFormed pagedir) {p rest : List (Fin 512)} {t f : ℕ} {i : Fin 512}
    (hp : p.length < 3) (ht : m.table pagedir p = some t) (hrest : rest ≠ [])
    (hn : m.NoLargePage pagedir (p ++ i :: rest)) (h : ensureTable m t i = .ok (f, m')) :
    m.Grown m' pagedir (p ++ [i]) ∧ m'.table pagedir (p ++ [i]) = some f := by
  rcases ensureTable_cases hr t i with ⟨hpre, he⟩ | ⟨-, -, he⟩ | ⟨g, m₁, hpre, htake, he, hget, hwords⟩
  · rw [he] at h
    cases h
    exact ⟨Grown.refl hr hw _, (RadixTree.walk_snoc_of_walk ht i).trans (hn.entry ht hrest hpre)⟩
  · rw [he] at h
    cases h
  · rw [he] at h
    cases h
    have htf : t ≠ f := fun htg => hw.used p t hp.le ht (htg ▸ htake.free)
    have habsent := nextTable_of_absent hpre
    have hnew : m'.words t i = tableEntry (f * pageSize) := by rw [hwords, RadixTree.put_same]
    have hzero : ∀ j, m'.words f j = 0 := by
      intro j
      rw [hwords, RadixTree.put_node _ _ _ _ htf.symm, Function.update_self]
    have hother : ∀ b j, b ≠ f → ¬(b = t ∧ j = i) → m'.words b j = m.words b j := by
      intro b j hb hbj
      rw [hwords, RadixTree.put_of_ne _ _ hbj, Function.update_of_ne hb]
    have hgraft : RadixTree.Grafted nextTable (has pfPresent) m.words m'.words 3 pagedir t f p i :=
      { depth := hp
        place := ht
        absent := habsent
        notThere := hpre
        fresh := fun q hq hg => hw.used q f hq hg htake.free
        link := by rw [hnew]; exact nextTable_tableEntry htake.lt
        empty := fun j => by rw [hzero j]; decide
        emptyThere := fun j => by rw [hzero j]; decide
        other := hother }
    have hwalk : ∀ q, q.length ≤ 3 → m'.table pagedir q = if q = p ++ [i] then some f else m.table pagedir q :=
      fun q hq => hgraft.walk_eq hw.tree hq
    have hlen : (p ++ [i]).length ≤ 3 := by simp; omega
    have hon : m.table pagedir (p ++ [i]) = none := (RadixTree.walk_snoc_of_walk ht i).trans habsent
    refine ⟨⟨htake.ready, ⟨hgraft.tree hw.tree, fun q a hq ha => ?_⟩, htake.marked.bytes, fun k hk => ((htake.free_iff k).mp hk).1,
      fun q a hq ha => ?_, fun q hq => hgraft.lookup_eq hw.tree hq, fun q b hq hnone hb => ?_,
      fun b j hb hoff => ?_⟩, by rw [hwalk _ hlen, if_pos rfl]⟩
    · rw [htake.free_iff]
      rw [hwalk q hq] at ha
      split_ifs at ha with hqp
      · cases ha; simp
      · exact fun hfree => hw.used q a hq ha hfree.1
    · rw [hwalk q hq, if_neg, ha]
      rintro rfl
      rw [hon] at ha
      cases ha
    · rw [hwalk q hq] at hb
      split_ifs at hb with hqp
      · cases hb
        exact ⟨hqp ▸ List.prefix_refl _, htake.free, ⟨m, _, hget.choose_spec⟩, fun j _ => hzero j⟩
      · rw [hnone] at hb; cases hb
    · refine hother b j (fun hbg => hb (hbg ▸ htake.free)) ?_
      rintro ⟨rfl, rfl⟩
      exact hoff p (List.prefix_refl _) ht

/-- All tables of a path: they exist in the end, or memory ran out on the way. -/
theorem Grown.ensureTables (rest : List (Fin 512)) (last : Fin 512) {p : List (Fin 512)} {t : ℕ} (hr : m.Ready)
    (hw : m.WellFormed pagedir) (hp : p.length + rest.length = 3) (ht : m.table pagedir p = some t)
    (hn : m.NoLargePage pagedir (p ++ rest ++ [last])) :
    (∃ pt m', Memory.ensureTables m t rest = .ok (pt, m') ∧ m.Grown m' pagedir (p ++ rest) ∧
      m'.table pagedir (p ++ rest) = some pt) ∨
    (Memory.ensureTables m t rest = .error .halt ∧
      ∃ l : List ℕ, l.length < rest.length ∧ ∀ k, m.Free k → k ∈ l) := by
  induction rest generalizing m p t with
  | nil =>
    rw [List.append_nil] at *
    exact .inl ⟨t, m, rfl, Grown.refl hr hw _, ht⟩
  | cons i rest ih =>
    rw [List.length_cons] at hp
    have hn' : m.NoLargePage pagedir (p ++ i :: (rest ++ [last])) := by simpa using hn
    cases hstep : ensureTable m t i with
    | error e =>
      right
      rcases ensureTable_cases hr t i with ⟨-, he⟩ | ⟨-, hnone, he⟩ | ⟨_, _, -, -, he, -⟩
      · rw [he] at hstep; cases hstep
      · exact ⟨by simp only [Memory.ensureTables, he, Exec.error_bind], [], by simp, fun k hk => absurd hk (hnone k)⟩
      · rw [he] at hstep; cases hstep
    | ok r =>
      obtain ⟨f, m₁⟩ := r
      obtain ⟨hg, hf⟩ := Grown.step hr hw (by omega) ht (by simp) hn' hstep
      have hpath : p ++ [i] ++ rest = p ++ i :: rest := by simp
      have hn₁ : m₁.NoLargePage pagedir (p ++ [i] ++ rest ++ [last]) := by
        intro e l hl
        rw [hg.lookups _ (by simp; omega)] at hl
        exact hn e l (by simpa using hl)
      simp only [Memory.ensureTables, hstep, Exec.ok_bind]
      rcases ih hg.ready hg.wf (by simp; omega) hf hn₁ with ⟨pt, m', he, hg', hpt⟩ | ⟨he, l, hl, hcover⟩
      · rw [hpath] at hg' hpt
        exact .inl ⟨pt, m', he, hg.trans hg' (by simp) (by simp; omega), hpt⟩
      · refine .inr ⟨he, f :: l, by simpa using hl, fun k hk => ?_⟩
        rcases ensureTable_cases hr t i with ⟨-, he'⟩ | ⟨-, -, he'⟩ | ⟨g, m₂, -, htake, he', -⟩
        · rw [he'] at hstep; cases hstep
          exact List.mem_cons_of_mem _ (hcover k hk)
        · rw [he'] at hstep; cases hstep
        · rw [he'] at hstep; cases hstep
          by_cases hkf : k = f
          · simp [hkf]
          · exact List.mem_cons_of_mem _ (hcover k ((htake.free_iff k).mpr ⟨hk, hkf⟩))

/-- When the last table already had an entry, no table was created. -/
theorem Grown.not_created_of_leaf (h : m.Grown m' pagedir path) (hpath : path.length ≤ 3) {pt : ℕ} {i : Fin 512}
    (hpt : m'.table pagedir path = some pt) (hpre : has pfPresent (m'.words pt i) = true) {q : List (Fin 512)}
    {f : ℕ} (hq : q.length ≤ 3) (hnone : m.table pagedir q = none) : m'.table pagedir q ≠ some f := by
  intro hf
  cases hold : m.table pagedir path with
  | none =>
    obtain ⟨-, -, -, hzero⟩ := h.created path pt hpath hold hpt
    have hlong : ¬path ++ [i] <+: path := fun hpre' => by simpa using hpre'.length_le
    rw [hzero i hlong] at hpre
    exact absurd hpre (by decide)
  | some a =>
    obtain ⟨t, rfl⟩ := (h.created q f hq hnone hf).1
    unfold table at hold hnone
    rw [RadixTree.walk_append, hnone] at hold
    cases hold

/-! ### The software walk -/

/-- Without large pages on its path the software walk reads what the processor reads. -/
theorem pagingVirtualToPhysical_eq {dm : DirectMap} {virt : Word} (hc : ¬dm.Covers virt)
    (hn : m.NoLargePage pagedir (indices virt)) :
    pagingVirtualToPhysical dm (some pagedir) m virt =
      match m.translate pagedir virt with
      | none => 0
      | some (entry, _) => pteGetAddr entry + (virt &&& 0xFFF) := by
  have hpage : page (virt &&& ~~~0xFFF) = page virt := by
    have := pPhysAddr_toNat virt
    unfold page pageSize
    rw [show (virt &&& ~~~0xFFF : Word) = pPhysAddr virt from rfl, this]
    omega
  have hidx := indices_eq_of_page hpage
  simp only [indices, upperIndices, List.cons_append, List.nil_append, List.cons.injEq, and_true] at hidx
  obtain ⟨h4, h3, h2, h1⟩ := hidx
  unfold pagingVirtualToPhysical translate
  simp only [if_neg hc, h4, h3, h2, h1]
  unfold indices upperIndices at hn ⊢
  simp only [List.cons_append, List.nil_append] at hn ⊢
  generalize pml4e (stripSx virt) = i4, pdpte (stripSx virt) = i3, pde (stripSx virt) = i2,
    pte (stripSx virt) = i1 at hn ⊢
  cases p4 : has pfPresent (m.words pagedir i4) with
  | false => simp [lookup, RadixTree.lookup, nextTable_of_absent p4, p4]
  | true =>
    have n4 := NoLargePage.entry (p := []) hn rfl (by simp) p4
    have t4 : m.table pagedir [i4] = some _ := (RadixTree.walk_snoc_of_walk (p := []) rfl i4).trans n4
    cases p3 : has pfPresent (m.words (entryFrame (m.words pagedir i4)) i3) with
    | false => simp [lookup, RadixTree.lookup, n4, nextTable_of_absent p3, p3]
    | true =>
      have n3 := NoLargePage.entry (p := [i4]) hn t4 (by simp) p3
      have t3 : m.table pagedir [i4, i3] = some _ := (RadixTree.walk_snoc_of_walk t4 i3).trans n3
      cases p2 : has pfPresent (m.words (entryFrame (m.words (entryFrame (m.words pagedir i4)) i3)) i2) with
      | false => simp [lookup, RadixTree.lookup, n4, n3, nextTable_of_absent p2, p2]
      | true =>
        have n2 := NoLargePage.entry (p := [i4, i3]) hn t3 (by simp) p2
        simp only [lookup, RadixTree.lookup, n4, n3, n2, Bool.not_true, Bool.false_eq_true, if_false]
        split_ifs <;> rfl

end PagedMemory

/-! ### Mapping and then translating -/

section Offset
variable {virt off : Word} (halign : virt.toNat % pageSize = 0) (hoff : off.toNat < pageSize)
include halign hoff

theorem toNat_add_offset : (virt + off).toNat = virt.toNat + off.toNat := by
  have := virt.isLt
  unfold pageSize at *
  rw [BitVec.toNat_add, Nat.mod_eq_of_lt (by omega)]

theorem page_add_offset : page (virt + off) = page virt := by
  unfold page
  rw [toNat_add_offset halign hoff]
  unfold pageSize at *
  omega

theorem offset_of_add : (virt + off) &&& 0xFFF = off := by
  apply BitVec.eq_of_toNat_eq
  have h := Nat.and_two_pow_sub_one_eq_mod (virt + off).toNat 12
  rw [toNat_add_offset halign hoff] at h
  rw [BitVec.toNat_and, toNat_add_offset halign hoff]
  unfold pageSize at *
  exact h.trans (by omega)

end Offset

/-- What holds after the page of `virt` is mapped to `phys`. -/
structure MappedTo (dm : DirectMap) (m m' : PagedMemory) (pagedir : ℕ) (virt phys : Word) : Prop where
  mapped : ∀ off : Word, off.toNat < pageSize →
    pagingVirtualToPhysical dm (some pagedir) m' (virt + off) = pPhysAddr phys + off
  others : ∀ v, Canonical v → page v ≠ page virt → m'.translate pagedir v = m.translate pagedir v
  othersSoftware : ∀ v, Canonical v → page v ≠ page virt → m.NoLargePage pagedir (indices v) →
    pagingVirtualToPhysical dm (some pagedir) m' v = pagingVirtualToPhysical dm (some pagedir) m v
  created : ∀ q f, q.length ≤ 3 → m.table pagedir q = none → m'.table pagedir q = some f →
    q <+: indices virt ∧ m.Free f ∧ ¬m'.Free f ∧ (∃ t t', pagingPhysicalAllocate t = .ok (f * pageSize, t')) ∧
      ∀ j, ¬q ++ [j] <+: indices virt → m'.words f j = 0

/-- The write of the leaf after the tables are there. -/
theorem MappedTo.of_grown {dm : DirectMap} {m m₁ : PagedMemory} {pagedir pt : ℕ} {virt phys flags : Word}
    {bm : Bitmap} {path : List (Fin 512)} {i : Fin 512} (hindices : indices virt = path ++ [i])
    (hg : m.Grown m₁ pagedir path) (hpt : m₁.table pagedir path = some pt)
    (halign : virt.toNat % pageSize = 0) (hcanon : Canonical virt)
    (hout : ∀ off : Word, off.toNat < pageSize → ¬dm.Covers (virt + off)) (hphys : phys.toNat < 2 ^ 52)
    (hflags : pteGetAddr flags = 0)
    (hfree : ∀ q f, q.length ≤ 3 → m.table pagedir q = none → m₁.table pagedir q = some f →
      ¬PagedMemory.Free ⟨bm, m₁.words⟩ f) :
    MappedTo dm m (PagedMemory.write ⟨bm, m₁.words⟩ pt i (leafEntry phys flags)) pagedir virt phys := by
  set m' := PagedMemory.write ⟨bm, m₁.words⟩ pt i (leafEntry phys flags) with hm'
  have hpath : path.length = 3 := by
    have := congrArg List.length hindices
    simp [indices, upperIndices] at this
    omega
  have hself : m'.translate pagedir virt = some (leafEntry phys flags, []) := by
    rw [PagedMemory.translate, hindices]
    exact RadixTree.lookup_put_self hg.wf.tree hpt hpath (has_present_leafEntry phys flags)
  have hothers : ∀ v, Canonical v → page v ≠ page virt → m'.translate pagedir v = m.translate pagedir v := by
    intro v hv hne
    have hlen : (indices v).length = 4 := rfl
    have hne' : indices v ≠ path ++ [i] := fun h => hne (page_eq_of_indices hv hcanon (h.trans hindices.symm))
    exact (RadixTree.lookup_put_leaf hg.wf.tree hpt hpath _ hlen hne').trans (hg.lookups _ hlen)
  refine ⟨fun off hoff => ?_, hothers, fun v hv hne hlarge => ?_, fun q f hq hnone hf => ?_⟩
  · have hpage := indices_eq_of_page (page_add_offset halign hoff)
    have htrans : m'.translate pagedir (virt + off) = some (leafEntry phys flags, []) := by
      rw [PagedMemory.translate, hpage]
      exact hself
    have hn : m'.NoLargePage pagedir (indices (virt + off)) := by
      intro e rest h
      have := htrans.symm.trans h
      simp only [Option.some.injEq, Prod.mk.injEq] at this
      exact this.2.symm
    rw [PagedMemory.pagingVirtualToPhysical_eq (hout off hoff) hn, htrans]
    simp only [pteGetAddr_leafEntry hphys hflags, offset_of_add halign hoff]
  · by_cases hcover : dm.Covers v
    · simp [pagingVirtualToPhysical, hcover]
    · have hlarge' : m'.NoLargePage pagedir (indices v) := by
        intro e rest h
        exact hlarge e rest ((hothers v hv hne).symm.trans h)
      rw [PagedMemory.pagingVirtualToPhysical_eq hcover hlarge, PagedMemory.pagingVirtualToPhysical_eq hcover hlarge',
        hothers v hv hne]
  · have hf₁ : m₁.table pagedir q = some f := (RadixTree.walk_put_leaf hg.wf.tree hpt hpath _ hq).symm.trans hf
    obtain ⟨hpre, hfreeOld, hget, hzero⟩ := hg.created q f hq hnone hf₁
    refine ⟨hindices ▸ hpre.trans (List.prefix_append _ _), hfreeOld, hfree q f hq hnone hf₁, hget, fun j hj => ?_⟩
    have hnot : ¬(f = pt ∧ j = i) := by
      rintro ⟨rfl, rfl⟩
      have hqp : q = path := hg.wf.tree q path f hq hpath.le hf₁ hpt
      exact hj (by rw [hindices, hqp])
    have hsame : m'.words f j = m₁.words f j := RadixTree.put_of_ne _ _ hnot
    rw [hsame]
    exact hzero j fun h => hj (hindices ▸ h.trans (List.prefix_append _ _))

/-- `m'` is `m` with one more page, and the tables it needs. -/
structure PagedMemory.Added (m m' : PagedMemory) (pagedir : ℕ) (virt entry : Word) : Prop where
  ready : m'.Ready
  wf : m'.WellFormed pagedir
  free : ∀ k, m'.Free k → m.Free k
  new : m'.translate pagedir virt = some (entry, [])
  lookups : ∀ q, q.length = 4 → q ≠ indices virt → m'.lookup pagedir q = m.lookup pagedir q
  tables : ∀ q a, q.length ≤ 3 → m'.table pagedir q = some a →
    m.table pagedir q = some a ∨ (q <+: indices virt ∧ q ≠ [] ∧ m.Free a)
  kept : ∀ b, ¬m.Free b → (∀ q, q <+: indices virt → q.length ≤ 3 → m.table pagedir q ≠ some b) →
    m'.words b = m.words b

/-- Mapping a page that is not there yet adds it, or halts for lack of memory. -/
theorem virtualMapL_added {m : PagedMemory} {pagedir : ℕ} {virt : Word} (phys flags : Word) (hr : m.Ready)
    (hw : m.WellFormed pagedir) (halign : virt.toNat % pageSize = 0)
    (hfresh : m.translate pagedir virt = none) :
    virtualMapL m pagedir virt phys flags = .error .halt ∨
    ∃ m', virtualMapL m pagedir virt phys flags = .ok m' ∧ m.Added m' pagedir virt (leafEntry phys flags) := by
  have hn : m.NoLargePage pagedir (indices virt) := fun e rest h => by cases hfresh.symm.trans h
  rcases PagedMemory.Grown.ensureTables (upperIndices virt) (pte (stripSx virt)) (p := []) hr hw rfl rfl hn with
    ⟨pt, m₁, he, hg, hpt⟩ | ⟨he, -⟩
  · rw [List.nil_append] at hg hpt
    rw [virtualMapL_of_tables halign he]
    have habsent : has pfPresent (m₁.words pt (pte (stripSx virt))) = false := by
      have hl : m₁.lookup pagedir (indices virt) = none := (hg.lookups _ rfl).trans hfresh
      rw [indices, PagedMemory.lookup, RadixTree.lookup_append_of_walk (by simp) hpt] at hl
      simpa [RadixTree.lookup] using hl
    have hpre : upperIndices virt <+: indices virt := List.prefix_append _ _
    rcases writeLeaf_cases hg.ready pt (pte (stripSx virt)) phys flags with
      ⟨-, he'⟩ | ⟨hpre', -, -⟩ | ⟨_, hpre', -⟩
    · refine .inr ⟨_, he', ⟨hg.ready.physical, hg.ready.fits⟩, ⟨RadixTree.tree_put_leaf hg.wf.tree hpt rfl _, ?_⟩,
        hg.free, RadixTree.lookup_put_self hg.wf.tree hpt rfl (has_present_leafEntry _ _), fun q hq hne => ?_,
        fun q a hq ha => ?_, fun b hb hoff => ?_⟩
      · intro q a hq ha
        exact hg.wf.used q a hq ((RadixTree.walk_put_leaf hg.wf.tree hpt rfl _ hq).symm.trans ha)
      · exact (RadixTree.lookup_put_leaf hg.wf.tree hpt rfl _ hq hne).trans (hg.lookups q hq)
      · have ha₁ : m₁.table pagedir q = some a := (RadixTree.walk_put_leaf hg.wf.tree hpt rfl _ hq).symm.trans ha
        cases hold : m.table pagedir q with
        | some c => exact .inl ((hg.tables q c hq hold).symm.trans ha₁)
        | none =>
          obtain ⟨hq', hfree, -, -⟩ := hg.created q a hq hold ha₁
          refine .inr ⟨hq'.trans hpre, ?_, hfree⟩
          rintro rfl
          cases hold
      · have hbpt : b ≠ pt := by
          rintro rfl
          cases hold : m.table pagedir (upperIndices virt) with
          | none => exact hb (hg.created _ _ (by simp [upperIndices]) hold hpt).2.1
          | some c =>
            have := (hg.tables _ c (by simp [upperIndices]) hold).symm.trans hpt
            exact hoff _ hpre (by simp [upperIndices]) (hold.trans this)
        funext j
        change RadixTree.put m₁.words pt _ _ b j = _
        rw [RadixTree.put_node _ _ _ _ hbpt]
        refine hg.kept b j hb fun q hq => hoff q ?_ ?_
        · exact ((List.prefix_append q [j]).trans hq).trans hpre
        · have := hq.length_le
          simp [upperIndices] at this
          omega
    · rw [habsent] at hpre'; cases hpre'
    · rw [habsent] at hpre'; cases hpre'
  · exact .inl (virtualMapL_of_stop halign he)

theorem blankMemory_translate (virt : Word) : blankMemory.translate 0 virt = none :=
  PagedMemory.lookup_of_zero rfl 0 _

theorem blankMemory_wellFormed : blankMemory.WellFormed 0 := by
  refine ⟨fun p q a _ _ hp hq => ?_, fun p a _ hp => ?_⟩
  · rw [(PagedMemory.table_of_zero (m := blankMemory) rfl hp).1, (PagedMemory.table_of_zero (m := blankMemory) rfl hq).1]
  · obtain ⟨-, rfl⟩ := PagedMemory.table_of_zero (m := blankMemory) rfl hp
    exact fun hfree => absurd hfree.2 (by decide)

end DualFuse.Memory
