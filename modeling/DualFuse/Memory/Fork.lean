import DualFuse.Memory.AddressSpace

/-! Fork of an address space. The copy gives every user page of the source that
the loops visit a page of the new directory, always with the flags `PF_RW` and
`PF_USER`: backed by a new frame with the same contents, or by the same frame when
the page is shared. Whether this is what fork promises depends on the flags of
the source, and freeing either directory is right only when its user pages have
frames of their own. -/

namespace DualFuse.Memory

open Library Utility

namespace PagedMemory

/-- The top-level slot of a path is absent from the directory, so it belongs to user space. -/
def UserSlot (m : PagedMemory) (dir : ℕ) (path : List (Fin 512)) : Prop :=
  ∃ i rest, path = i :: rest ∧ has pfPresent (m.words dir i) = false

/-- Writing a frame that is no table of a directory. -/
theorem WellFormed.update {m m' : PagedMemory} {dir f : ℕ} (hw : m.WellFormed dir) {w : Fin 512 → Word}
    (hwords : m'.words = Function.update m.words f w) (hfree : ∀ k, m'.Free k → m.Free k)
    (hf : ∀ q, q.length ≤ 3 → m.table dir q ≠ some f) :
    m'.WellFormed dir ∧ (∀ q, q.length ≤ 3 → m'.table dir q = m.table dir q) ∧
      ∀ q, q.length = 4 → m'.lookup dir q = m.lookup dir q := by
  have hsame : ∀ q a, q.length ≤ 3 → m.table dir q = some a → m'.words a = m.words a := by
    intro q a hq ha
    rw [hwords, Function.update_of_ne]
    rintro rfl
    exact hf q hq ha
  have htable : ∀ q, q.length ≤ 3 → m'.table dir q = m.table dir q := by
    intro q hq
    refine RadixTree.walk_congr fun q' i a hq' ha => ?_
    have := hq'.length_le
    rw [List.length_append, List.length_singleton] at this
    rw [hsame q' a (by omega) ha]
  refine ⟨⟨fun p q a hp hq ha ha' => ?_, fun q a hq ha hfr => ?_⟩, htable, fun q hq => ?_⟩
  · exact hw.tree p q a hp hq ((htable p hp).symm.trans ha) ((htable q hq).symm.trans ha')
  · exact hw.used q a hq ((htable q hq).symm.trans ha) (hfree a hfr)
  · exact RadixTree.lookup_congr fun p a hp ha => hsame p a (by omega) ha

end PagedMemory

theorem indices_pathToVirt {path : List (Fin 512)} (h : path.length = 4) : indices (pathToVirt path) = path := by
  obtain ⟨a, b, c, d, rfl⟩ := List.length_eq_four.mp h
  exact indices_bitsToVirtAddr a b c d

theorem pathToVirt_aligned {path : List (Fin 512)} (h : path.length = 4) :
    (pathToVirt path).toNat % pageSize = 0 := by
  obtain ⟨a, b, c, d, rfl⟩ := List.length_eq_four.mp h
  rw [pathToVirt, bitsToVirtAddr_toNat, pageSize]
  omega

/-- The entry of a copied page. -/
def copyEntry (frame : ℕ) : Word := leafEntry (BitVec.ofNat 64 (frame * pageSize)) (pfRw ||| pfUser)

/-- What is known of a source and a new target directory before the copy: the
tables of the source and the frames of its user pages are in use and not the
target, and user pages lie in slots that the target does not have. -/
structure ForkContext (m : PagedMemory) (source target : ℕ) : Prop where
  ready : m.Ready
  wf : m.WellFormed target
  tables : ∀ q a, q.length ≤ 3 → m.table source q = some a → ¬m.Free a ∧ a ≠ target
  frames : ∀ path entry, path.length = 4 → m.lookup source path = some (entry, []) → has pfUser entry = true →
    ¬m.Free (entryFrame entry) ∧ entryFrame entry ≠ target
  slots : ∀ path entry rest, path.length = 4 → m.lookup source path = some (entry, rest) →
    has pfUser entry = true → m.UserSlot target path

/-- The state of the copy after the pages `done`, whose frames are `frame`. -/
structure Copied (m₀ m : PagedMemory) (target : ℕ) (done : List UserPage) (frame : List (Fin 512) → ℕ) : Prop where
  ready : m.Ready
  wf : m.WellFormed target
  free : ∀ k, m.Free k → m₀.Free k
  kept : ∀ b, ¬m₀.Free b → b ≠ target → m.words b = m₀.words b
  newTables : ∀ q a, q.length ≤ 3 → m₀.UserSlot target q → m.table target q = some a → m₀.Free a
  length : ∀ p ∈ done, p.1.length = 4
  mapped : ∀ p ∈ done, m.lookup target p.1 = some (copyEntry (frame p.1), []) ∧ frame p.1 < 2 ^ 40
  shared : ∀ p ∈ done, has pfShared p.2 = true → frame p.1 = entryFrame p.2
  fresh : ∀ p ∈ done, has pfShared p.2 = false → m₀.Free (frame p.1) ∧ ¬m.Free (frame p.1) ∧
    (∀ q, q.length ≤ 3 → m.table target q ≠ some (frame p.1)) ∧
    m.words (frame p.1) = m₀.words (entryFrame p.2)
  apart : ∀ p ∈ done, ∀ p' ∈ done, has pfShared p.2 = false → has pfShared p'.2 = false →
    frame p.1 = frame p'.1 → p.1 = p'.1
  unmapped : ∀ path, path.length = 4 → m₀.UserSlot target path → path ∉ done.map Prod.fst →
    m.lookup target path = none
  kernel : ∀ path, path.length = 4 → ¬m₀.UserSlot target path → m.lookup target path = m₀.lookup target path

theorem Copied.init {m : PagedMemory} {source target : ℕ} (h : ForkContext m source target)
    (frame : List (Fin 512) → ℕ) : Copied m m target [] frame := by
  refine ⟨h.ready, h.wf, fun _ h => h, fun _ _ _ => rfl, fun q a _ hslot ha => ?_, by simp, by simp, by simp,
    by simp, by simp, fun path _ hslot _ => ?_, fun _ _ _ => rfl⟩
  · obtain ⟨i, rest, rfl, habsent⟩ := hslot
    rw [PagedMemory.table, RadixTree.walk_cons, nextTable_of_absent habsent] at ha
    cases ha
  · obtain ⟨i, rest, rfl, habsent⟩ := hslot
    cases rest with
    | nil => simp [PagedMemory.lookup, RadixTree.lookup, habsent]
    | cons j rest => simp [PagedMemory.lookup, RadixTree.lookup, nextTable_of_absent habsent, habsent]

section Step
variable {m₀ m m₁ m' : PagedMemory} {target f : ℕ} {done : List UserPage} {frame : List (Fin 512) → ℕ}
  {p : UserPage} {virt : Word}

/-- One more page, after its frame `f` was made ready in `m₁`. -/
theorem Copied.add (h : Copied m₀ m target done frame) (hlen : p.1.length = 4) (hslot : m₀.UserSlot target p.1)
    (hnew : p.1 ∉ done.map Prod.fst) (hvirt : indices virt = p.1)
    (hfree : ∀ k, m₁.Free k → m.Free k)
    (htables : ∀ q, q.length ≤ 3 → m₁.table target q = m.table target q)
    (hlookups : ∀ q, q.length = 4 → m₁.lookup target q = m.lookup target q)
    (hwords : ∀ b, ¬m.Free b → m₁.words b = m.words b) (hf : f < 2 ^ 40)
    (hshared : has pfShared p.2 = true → f = entryFrame p.2)
    (hfresh : has pfShared p.2 = false → m.Free f ∧ ¬m₁.Free f ∧ m₁.words f = m₀.words (entryFrame p.2))
    (ha : m₁.Added m' target virt (copyEntry f)) :
    Copied m₀ m' target (done ++ [p]) (Function.update frame p.1 f) := by
  have hne : ∀ p' ∈ done, p'.1 ≠ p.1 := fun p' hp' heq => hnew (heq ▸ List.mem_map_of_mem (f := Prod.fst) hp')
  have hother : ∀ p' ∈ done, Function.update frame p.1 f p'.1 = frame p'.1 :=
    fun p' hp' => Function.update_of_ne (hne p' hp') _ _
  have hself : Function.update frame p.1 f p.1 = f := Function.update_self _ _ _
  have hlook : ∀ q, q.length = 4 → q ≠ p.1 → m'.lookup target q = m.lookup target q := fun q hq hne =>
    (ha.lookups q hq (hvirt ▸ hne)).trans (hlookups q hq)
  -- tables on the path of `p` are the directory itself or frames that were free at first
  have honpath : ∀ q a, q <+: indices virt → q.length ≤ 3 → m₁.table target q = some a →
      a = target ∨ m₀.Free a := by
    intro q a hq hq3 hqa
    rw [htables q hq3] at hqa
    cases q with
    | nil => exact .inl (Option.some.inj hqa).symm
    | cons i q =>
      obtain ⟨j, rest, hp, habsent⟩ := hslot
      rw [hvirt, hp] at hq
      obtain ⟨rfl, -⟩ := List.cons_prefix_cons.mp hq
      exact .inr (h.newTables _ a hq3 ⟨i, q, rfl, habsent⟩ hqa)
  have hnotTable : ∀ g, ¬m₁.Free g → (∀ q, q.length ≤ 3 → m.table target q ≠ some g) →
      (∀ q, q.length ≤ 3 → m'.table target q ≠ some g) ∧ m'.words g = m₁.words g := by
    intro g hg hng
    refine ⟨fun q hq hqg => ?_, ha.kept g hg fun q _ hq hqg => hng q hq ((htables q hq).symm.trans hqg)⟩
    rcases ha.tables q g hq hqg with hold | ⟨-, -, hfr⟩
    · exact hng q hq ((htables q hq).symm.trans hold)
    · exact hg hfr
  have hmem : ∀ p', p' ∈ done ++ [p] → p' ∈ done ∨ p' = p := by simp
  refine ⟨ha.ready, ha.wf, fun k hk => h.free k (hfree k (ha.free k hk)), fun b hb hbt => ?_,
    fun q a hq hqs hqa => ?_, fun p' hp' => ?_, fun p' hp' => ?_, fun p' hp' hs => ?_, fun p' hp' hs => ?_,
    fun p' hp' p'' hp'' hs hs' heq => ?_, fun path hpath hslot' hout => ?_, fun path hpath hslot' => ?_⟩
  · have hbm : ¬m.Free b := fun hfr => hb (h.free b hfr)
    rw [ha.kept b (fun hfr => hbm (hfree b hfr)), hwords b hbm, h.kept b hb hbt]
    intro q hq hq3 hqb
    rcases honpath q b hq hq3 hqb with rfl | hfr
    · exact hbt rfl
    · exact hb hfr
  · rcases ha.tables q a hq hqa with hold | ⟨-, -, hfr⟩
    · exact h.newTables q a hq hqs ((htables q hq).symm.trans hold)
    · exact h.free a (hfree a hfr)
  · rcases hmem p' hp' with hp' | rfl
    · exact h.length p' hp'
    · exact hlen
  · rcases hmem p' hp' with hp' | rfl
    · rw [hother p' hp', hlook p'.1 (h.length p' hp') (hne p' hp')]
      exact h.mapped p' hp'
    · rw [hself]
      refine ⟨?_, hf⟩
      have := ha.new
      rwa [PagedMemory.translate, hvirt] at this
  · rcases hmem p' hp' with hp' | rfl
    · rw [hother p' hp']
      exact h.shared p' hp' hs
    · rw [hself]
      exact hshared hs
  · rcases hmem p' hp' with hp' | rfl
    · rw [hother p' hp']
      obtain ⟨hfr, hused, hnt, hcontents⟩ := h.fresh p' hp' hs
      have hused₁ : ¬m₁.Free (frame p'.1) := fun hk => hused (hfree _ hk)
      obtain ⟨hnt', hw'⟩ := hnotTable _ hused₁ hnt
      exact ⟨hfr, fun hk => hused₁ (ha.free _ hk), hnt', by rw [hw', hwords _ hused, hcontents]⟩
    · rw [hself]
      obtain ⟨hfr, hused, hcontents⟩ := hfresh hs
      obtain ⟨hnt', hw'⟩ := hnotTable f hused fun q hq hqf => h.wf.used q f hq hqf hfr
      exact ⟨h.free f hfr, fun hk => hused (ha.free _ hk), hnt', by rw [hw', hcontents]⟩
  · rcases hmem p' hp' with hold | rfl <;> rcases hmem p'' hp'' with hold' | rfl
    · rw [hother p' hold, hother p'' hold'] at heq
      exact h.apart p' hold p'' hold' hs hs' heq
    · rw [hother p' hold, hself] at heq
      exact absurd (heq ▸ (hfresh hs').1) (h.fresh p' hold hs).2.1
    · rw [hother p'' hold', hself] at heq
      exact absurd (heq ▸ (hfresh hs).1) (h.fresh p'' hold' hs').2.1
    · rfl
  · rw [List.map_append, List.mem_append] at hout
    push Not at hout
    rw [hlook path hpath (by simpa using hout.2)]
    exact h.unmapped path hpath hslot' hout.1
  · rw [hlook path hpath (by rintro rfl; exact hslot' hslot)]
    exact h.kernel path hpath hslot'

end Step

theorem copyFrame_self (m : PagedMemory) (k : ℕ) : copyFrame m k k = m := by
  simp [copyFrame, Function.update_eq_self]

/-- The body of the loops: one more page is copied, or memory runs out. -/
theorem Copied.duplicatePage {m₀ m : PagedMemory} {source target : ℕ} {done : List UserPage}
    {frame : List (Fin 512) → ℕ} {p : UserPage} (hc : ForkContext m₀ source target)
    (h : Copied m₀ m target done frame) (hp : p ∈ m₀.userPagesOf source) (hnew : p.1 ∉ done.map Prod.fst) :
    duplicatePage target m p = .error .halt ∨
    ∃ m' f, Memory.duplicatePage target m p = .ok m' ∧
      Copied m₀ m' target (done ++ [p]) (Function.update frame p.1 f) := by
  obtain ⟨hlen, hl, huser, -⟩ := PagedMemory.mem_userPagesOf.mp hp
  have hslot := hc.slots p.1 p.2 [] hlen hl huser
  obtain ⟨hused, hne⟩ := hc.frames p.1 p.2 hlen hl huser
  have hframe : ∀ k, k * pageSize / pageSize = k := fun k => Nat.mul_div_cancel k (by decide)
  have hvirt := indices_pathToVirt hlen
  have hfresh : m.lookup target p.1 = none := h.unmapped p.1 hlen hslot hnew
  unfold Memory.duplicatePage
  rw [pteGetAddr_eq_frame, hframe]
  cases hs : has pfShared p.2 with
  | true =>
    simp only [if_true, Exec.ok_bind, hframe, copyFrame_self]
    rcases virtualMapL_added (BitVec.ofNat 64 (entryFrame p.2 * pageSize)) (pfRw ||| pfUser) h.ready h.wf
      (pathToVirt_aligned hlen) (by rw [PagedMemory.translate, hvirt]; exact hfresh) with he | ⟨m', he, ha⟩
    · exact .inl he
    · exact .inr ⟨m', entryFrame p.2, he, h.add hlen hslot hnew hvirt (fun _ hk => hk) (fun _ _ => rfl)
        (fun _ _ => rfl) (fun _ _ => rfl) (entryFrame_lt _) (fun _ => rfl) (fun hs' => by simp [hs] at hs') ha⟩
  | false =>
    rcases pagingPhysicalAllocate_cases h.ready with ⟨-, he⟩ | ⟨f, m₁, ht, hw₁, he⟩
    · exact .inl (by rw [he]; rfl)
    · simp only [Bool.false_eq_true, if_false, he, Exec.ok_bind, hframe]
      have hsrc : entryFrame p.2 ≠ f := fun heq => hused (h.free _ (heq ▸ ht.free))
      have hw₂ : (copyFrame m₁ f (entryFrame p.2)).words = Function.update m.words f (m.words (entryFrame p.2)) := by
        simp only [copyFrame, hw₁, Function.update_idem, Function.update_of_ne hsrc]
      have hfree₂ : ∀ k, (copyFrame m₁ f (entryFrame p.2)).Free k → m.Free k ∧ k ≠ f :=
        fun k hk => (ht.free_iff k).mp hk
      obtain ⟨hwf₂, htables, hlookups⟩ := h.wf.update hw₂ (fun k hk => (hfree₂ k hk).1)
        fun q hq hqf => h.wf.used q f hq hqf ht.free
      rcases virtualMapL_added (BitVec.ofNat 64 (f * pageSize)) (pfRw ||| pfUser)
        (m := copyFrame m₁ f (entryFrame p.2)) ⟨ht.ready.physical, ht.ready.fits⟩ hwf₂ (pathToVirt_aligned hlen)
        (by rw [PagedMemory.translate, hvirt, hlookups _ hlen]; exact hfresh) with he' | ⟨m', he', ha⟩
      · exact .inl he'
      · refine .inr ⟨m', f, he', h.add hlen hslot hnew hvirt (fun k hk => (hfree₂ k hk).1) htables hlookups
          (fun b hb => ?_) ht.lt (fun hs' => by simp [hs] at hs') (fun _ => ⟨ht.free, fun hk => (hfree₂ f hk).2 rfl, ?_⟩) ha⟩
        · rw [hw₂, Function.update_of_ne]
          rintro rfl
          exact hb ht.free
        · rw [hw₂, Function.update_self, h.kept _ hused hne]

theorem PagedMemory.not_mem_done {m : PagedMemory} {dir : ℕ} {done todo : List UserPage} {p : UserPage}
    (h : m.userPagesOf dir = done ++ p :: todo) : p.1 ∉ done.map Prod.fst := by
  have hnodup := m.userPagesOf_nodup dir
  rw [h, List.map_append, List.map_cons] at hnodup
  exact fun hmem => (List.nodup_append.mp hnodup).2.2 _ hmem _ (by simp) rfl

/-- The loops of the copy, as one run over the user pages of the source. -/
theorem pageDirectoryUserDuplicate_eq {m : PagedMemory} {source target : ℕ} (hc : ForkContext m source target) :
    Extends (duplicatePage target) (m.userPagesOf source) (fun done m' => ∃ frame, Copied m m' target done frame) ∧
    pageDirectoryUserDuplicate m source target = run (duplicatePage target) m (m.userPagesOf source) := by
  have hext : Extends (duplicatePage target) (m.userPagesOf source)
      (fun done m' => ∃ frame, Copied m m' target done frame) := by
    rintro done p todo m₁ m₂ hall ⟨frame, h⟩ hstep
    rcases h.duplicatePage hc (by rw [hall]; simp) (PagedMemory.not_mem_done hall) with he | ⟨m', f, he, h'⟩
    · rw [he] at hstep; cases hstep
    · rw [he] at hstep; cases hstep
      exact ⟨_, h'⟩
  refine ⟨hext, ?_⟩
  rw [pageDirectoryUserDuplicate, PagedMemory.userPagesOf]
  rw [PagedMemory.userPagesOf] at hext
  refine forUserPages_eq hext (eq_nil_append_append_nil _) ?_ ⟨fun _ => 0, Copied.init hc _⟩
  rintro done m' ⟨frame, h⟩ q a hq ha
  obtain ⟨hused, hne⟩ := hc.tables q a hq ha
  exact h.kept a hused hne

theorem pageDirectoryUserDuplicate_copied {m m' : PagedMemory} {source target : ℕ} (hc : ForkContext m source target)
    (he : pageDirectoryUserDuplicate m source target = .ok m') :
    ∃ frame, Copied m m' target (m.userPagesOf source) frame := by
  obtain ⟨hext, heq⟩ := pageDirectoryUserDuplicate_eq hc
  rw [heq] at he
  have h := run_history hext (eq_nil_append_append_nil _) ⟨fun _ => 0, Copied.init hc _⟩ he
  rwa [List.nil_append] at h

/-- The copy ends or memory runs out; it never leaves the bitmap. -/
theorem pageDirectoryUserDuplicate_stop {m : PagedMemory} {source target : ℕ} {e : Stop}
    (hc : ForkContext m source target) (he : pageDirectoryUserDuplicate m source target = .error e) : e = .halt := by
  obtain ⟨hext, heq⟩ := pageDirectoryUserDuplicate_eq hc
  rw [heq] at he
  refine run_stop_of_history hext ?_ (eq_nil_append_append_nil _) ⟨fun _ => 0, Copied.init hc _⟩ he
  rintro done p todo m₁ e' hall ⟨frame, h⟩ hstep
  rcases h.duplicatePage hc (by rw [hall]; simp) (PagedMemory.not_mem_done hall) with he' | ⟨_, _, he', -⟩
  · rw [he'] at hstep; cases hstep; rfl
  · rw [he'] at hstep; cases hstep

/-! ### The entry of a copied page -/

section CopyEntry
variable {f : ℕ} (hf : f < 2 ^ 40)
include hf

theorem copyEntry_eq : copyEntry f = BitVec.ofNat 64 (f * pageSize) ||| pfPresent ||| (pfRw ||| pfUser) := by
  have : pPhysAddr (BitVec.ofNat 64 (f * pageSize)) = BitVec.ofNat 64 (f * pageSize) := by
    apply BitVec.eq_of_toNat_eq
    rw [pPhysAddr_toNat, ofNat_frame_toNat hf]
    unfold pageSize
    omega
  rw [copyEntry, leafEntry, this]

theorem entryFrame_copyEntry : entryFrame (copyEntry f) = f := by
  have hlt : f * pageSize < 2 ^ 52 := by unfold pageSize; omega
  rw [copyEntry, entryFrame_leafEntry (by rw [ofNat_frame_toNat hf]; exact hlt) (by decide), ofNat_frame_toNat hf]
  exact Nat.mul_div_cancel f (by decide)

theorem has_copyEntry {flag : Word} (hflag : pteGetAddr flag = 0) :
    has flag (copyEntry f) = has flag (pfPresent ||| (pfRw ||| pfUser)) := by
  rw [copyEntry_eq hf, has_or, has_or flag _ pfPresent, has_ofNat_frame hf hflag, Bool.false_or]
  simp only [has_or]

end CopyEntry

end DualFuse.Memory
