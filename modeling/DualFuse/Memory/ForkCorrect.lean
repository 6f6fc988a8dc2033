import DualFuse.Memory.Fork

/-! What fork promises, and exactly when the copy keeps it. A new directory starts
as a copy of the kernel's, which has no user pages. The copy keeps the promise if
and only if every user page of the source is writable, executable, not shared and
without bit 7, and no two of them have the same frame: all other pages lose a
flag, are skipped, or are freed once for each of their mappings. -/

namespace DualFuse.Memory

open Library Utility

namespace PagedMemory

/-- A present page with the user flag, as the processor finds it. -/
structure IsUserPage (m : PagedMemory) (dir : ℕ) (path : List (Fin 512)) (entry : Word) (rest : List (Fin 512)) :
    Prop where
  length : path.length = 4
  lookup : m.lookup dir path = some (entry, rest)
  user : has pfUser entry = true

/-- The frames that freeing a directory gives back, in order
(`pageDirectoryFree_eq_freedFrames`). -/
def freedFrames (m : PagedMemory) (dir : ℕ) : List ℕ := (m.userPagesOf dir).map fun p => entryFrame p.2

variable {m m' : PagedMemory} {dir : ℕ} {path : List (Fin 512)} {entry : Word} {rest : List (Fin 512)}

theorem mem_userPagesOf_iff : (path, entry) ∈ m.userPagesOf dir ↔
    m.IsUserPage dir path entry [] ∧ has pfPs entry = false := by
  rw [mem_userPagesOf]
  exact ⟨fun ⟨hlen, hl, hu, hps⟩ => ⟨⟨hlen, hl, hu⟩, hps⟩, fun ⟨h, hps⟩ => ⟨h.length, h.lookup, h.user, hps⟩⟩

/-- Without bit 7 a page is not a large one. -/
theorem IsUserPage.rest_eq (h : m.IsUserPage dir path entry rest) (hps : has pfPs entry = false) : rest = [] := by
  by_contra hne
  obtain ⟨hnext, hpre⟩ := RadixTree.next_of_lookup_rest h.lookup hne
  simp [nextTable, hpre, hps] at hnext

theorem IsUserPage.unique (h : m.IsUserPage dir path entry rest) {entry' : Word} {rest' : List (Fin 512)}
    (h' : m.IsUserPage dir path entry' rest') : entry = entry' ∧ rest = rest' := by
  have := h.lookup.symm.trans h'.lookup
  simpa using this

/-- A frame is given back once when the user pages have frames of their own. -/
theorem count_freedFrames_of_apart (hmem : (path, entry) ∈ m.userPagesOf dir)
    (hapart : ∀ p ∈ m.userPagesOf dir, ∀ p' ∈ m.userPagesOf dir, entryFrame p.2 = entryFrame p'.2 → p.1 = p'.1) :
    (m.freedFrames dir).count (entryFrame entry) = 1 := by
  have hnodup : (m.freedFrames dir).Nodup := by
    refine List.Nodup.map_on (fun p hp p' hp' heq => ?_) (m.userPagesOf_nodup dir).of_map
    have hpath := hapart p hp p' hp' heq
    obtain ⟨-, hl, -⟩ := mem_userPagesOf.mp hp
    obtain ⟨-, hl', -⟩ := mem_userPagesOf.mp hp'
    rw [hpath, hl'] at hl
    simp only [Option.some.injEq, Prod.mk.injEq, and_true] at hl
    exact Prod.ext hpath hl.symm
  exact List.count_eq_one_of_mem hnodup (List.mem_map.mpr ⟨_, hmem, rfl⟩)

/-- A frame that is given back once belongs to one user page. -/
theorem path_eq_of_count {path' : List (Fin 512)} {entry' : Word} (hmem : (path, entry) ∈ m.userPagesOf dir)
    (hmem' : (path', entry') ∈ m.userPagesOf dir) (hframe : entryFrame entry = entryFrame entry')
    (hcount : (m.freedFrames dir).count (entryFrame entry) = 1) : path = path' := by
  by_contra hne
  have hnodup : [(path, entry), (path', entry')].Nodup := by simp [hne]
  obtain ⟨l, hperm, hsub⟩ : [(path, entry), (path', entry')].Subperm (m.userPagesOf dir) :=
    hnodup.subperm (by simp [hmem, hmem'])
  have hle := (hsub.map fun p => entryFrame p.2).count_le (entryFrame entry)
  rw [(hperm.map fun p => entryFrame p.2).count_eq] at hle
  have htwo : List.count (entryFrame entry) ([(path, entry), (path', entry')].map fun p => entryFrame p.2) = 2 := by
    simp [← hframe]
  rw [htwo] at hle
  have hle' : 2 ≤ (m.freedFrames dir).count (entryFrame entry) := hle
  omega

end PagedMemory

def freeFrame (m : PagedMemory) (f : ℕ) : Exec PagedMemory := do
  let bm ← physicalFree m.bitmap (f * pageSize) 1
  .ok ⟨bm, m.words⟩

theorem pageDirectoryFree_eq_freedFrames (m : PagedMemory) (dir : ℕ) :
    pageDirectoryFree m dir = run freeFrame m (m.freedFrames dir) := by
  have hpage : freePage = fun m p => freeFrame m (entryFrame p.2) := by
    funext m p
    rw [freePage, pteGetAddr_eq_frame]
    rfl
  rw [pageDirectoryFree_eq, hpage, PagedMemory.freedFrames, run, run, List.foldlM_map]

/-- The permission flags of two entries agree. -/
def SamePermissions (e e' : Word) : Prop :=
  has pfRw e = has pfRw e' ∧ has pfUser e = has pfUser e' ∧ has pfNoExecute e = has pfNoExecute e'

/-- The promise of fork, from the memory `m` before to the memory `m'` after. -/
structure ForkCorrect (m m' : PagedMemory) (source target : ℕ) : Prop where
  copied : ∀ path e rest, m.IsUserPage source path e rest → ∃ e', m'.lookup target path = some (e', []) ∧
    SamePermissions e e' ∧ m'.words (entryFrame e') = m.words (entryFrame e)
  fresh : ∀ path e e', m.IsUserPage source path e [] → m'.lookup target path = some (e', []) →
    has pfShared e = false → m.Free (entryFrame e') ∧
    ∀ dir ∈ [source, target], ∀ path₁ e₁, m'.IsUserPage dir path₁ e₁ [] → entryFrame e₁ = entryFrame e' →
      dir = target ∧ path₁ = path
  shared : ∀ path e e', m.IsUserPage source path e [] → m'.lookup target path = some (e', []) →
    has pfShared e = true → entryFrame e' = entryFrame e ∧ has pfShared e' = true
  unchanged : ∀ path, path.length = 4 → m'.lookup source path = m.lookup source path
  contents : ∀ path e, m.IsUserPage source path e [] → m'.words (entryFrame e) = m.words (entryFrame e)
  freesNoMapped : ∀ dir other, (dir = source ∧ other = target ∨ dir = target ∧ other = source) →
    ∀ f ∈ m'.freedFrames dir, ∀ path e, m'.IsUserPage other path e [] → entryFrame e ≠ f
  freesOnce : ∀ dir ∈ [source, target], ∀ path e, m'.IsUserPage dir path e [] → has pfShared e = false →
    (m'.freedFrames dir).count (entryFrame e) = 1

/-- Every user page is writable, executable, private and without bit 7, and has a
frame of its own. -/
structure PlainUserPages (m : PagedMemory) (source : ℕ) : Prop where
  flags : ∀ path e rest, m.IsUserPage source path e rest →
    has pfRw e = true ∧ has pfNoExecute e = false ∧ has pfShared e = false ∧ has pfPs e = false
  apart : ∀ path e path' e', m.IsUserPage source path e [] → m.IsUserPage source path' e' [] →
    entryFrame e = entryFrame e' → path = path'

section Iff
variable {m₀ m m' : PagedMemory} {source target : ℕ} {frame : List (Fin 512) → ℕ}

/-- The memory `m` before a new directory was taken, seen from the memory `m₀` after. -/
structure NewDirectory (m m₀ : PagedMemory) (source target : ℕ) : Prop where
  context : ForkContext m₀ source target
  free : ∀ k, m₀.Free k → m.Free k
  words : ∀ b, b ≠ target → m₀.words b = m.words b
  lookups : ∀ path, path.length = 4 → m₀.lookup source path = m.lookup source path
  noUser : ∀ path entry rest, path.length = 4 → m₀.lookup target path = some (entry, rest) →
    has pfUser entry = false

theorem NewDirectory.userPage_iff (hd : NewDirectory m m₀ source target) {path : List (Fin 512)} {e : Word}
    {rest : List (Fin 512)} : m₀.IsUserPage source path e rest ↔ m.IsUserPage source path e rest :=
  ⟨fun h => ⟨h.length, (hd.lookups path h.length) ▸ h.lookup, h.user⟩,
    fun h => ⟨h.length, (hd.lookups path h.length).trans h.lookup, h.user⟩⟩

variable (hd : NewDirectory m m₀ source target) (hcopy : Copied m₀ m' target (m₀.userPagesOf source) frame)
include hd hcopy

theorem Copied.source_lookup {path : List (Fin 512)} (hlen : path.length = 4) :
    m'.lookup source path = m.lookup source path := by
  rw [← hd.lookups path hlen]
  refine RadixTree.lookup_congr fun p a hp ha => ?_
  obtain ⟨hused, hne⟩ := hd.context.tables p a (by omega) ha
  exact hcopy.kept a hused hne

theorem Copied.source_userPage {path : List (Fin 512)} {e : Word} {rest : List (Fin 512)} :
    m'.IsUserPage source path e rest ↔ m.IsUserPage source path e rest :=
  ⟨fun h => ⟨h.length, (hcopy.source_lookup hd h.length) ▸ h.lookup, h.user⟩,
    fun h => ⟨h.length, (hcopy.source_lookup hd h.length).trans h.lookup, h.user⟩⟩

/-- The user pages of the new directory are the copies. -/
theorem Copied.target_lookup {path : List (Fin 512)} {e' : Word} {rest : List (Fin 512)} (hlen : path.length = 4)
    (hslot : m₀.UserSlot target path) (hl : m'.lookup target path = some (e', rest)) :
    ∃ e, (path, e) ∈ m₀.userPagesOf source ∧ m.IsUserPage source path e [] ∧ has pfPs e = false ∧
      e' = copyEntry (frame path) ∧ rest = [] := by
  by_cases hmem : path ∈ (m₀.userPagesOf source).map Prod.fst
  · obtain ⟨p, hp, rfl⟩ := List.mem_map.mp hmem
    obtain ⟨hpage, hps⟩ := PagedMemory.mem_userPagesOf_iff.mp hp
    have := (hcopy.mapped p hp).1.symm.trans hl
    simp only [Option.some.injEq, Prod.mk.injEq] at this
    exact ⟨p.2, hp, hd.userPage_iff.mp hpage, hps, this.1.symm, this.2.symm⟩
  · rw [hcopy.unmapped path hlen hslot hmem] at hl
    cases hl

theorem Copied.target_userPage {path : List (Fin 512)} {e' : Word} (h : m'.IsUserPage target path e' []) :
    ∃ e, (path, e) ∈ m₀.userPagesOf source ∧ m.IsUserPage source path e [] ∧ has pfPs e = false ∧
      e' = copyEntry (frame path) := by
  by_cases hslot : m₀.UserSlot target path
  · obtain ⟨e, hmem, hpage, hps, he', -⟩ := hcopy.target_lookup hd h.length hslot h.lookup
    exact ⟨e, hmem, hpage, hps, he'⟩
  · have hno := hd.noUser path e' [] h.length ((hcopy.kernel path h.length hslot) ▸ h.lookup)
    exact absurd h.user (by simp [hno])

theorem Copied.source_frame {path : List (Fin 512)} {e : Word} (h : m.IsUserPage source path e []) :
    ¬m₀.Free (entryFrame e) ∧ m'.words (entryFrame e) = m.words (entryFrame e) ∧
      m₀.words (entryFrame e) = m.words (entryFrame e) := by
  have h₀ := hd.userPage_iff.mpr h
  obtain ⟨hused, hne⟩ := hd.context.frames path e h₀.length h₀.lookup h₀.user
  have hw := hd.words _ hne
  exact ⟨hused, (hcopy.kept _ hused hne).trans hw, hw⟩

/-- The copy keeps the promise for plain user pages. -/
theorem Copied.correct (hplain : PlainUserPages m source) : ForkCorrect m m' source target := by
  have hmem : ∀ path e rest, m.IsUserPage source path e rest → rest = [] ∧ (path, e) ∈ m₀.userPagesOf source := by
    intro path e rest h
    obtain ⟨-, -, -, hps⟩ := hplain.flags path e rest h
    obtain rfl := h.rest_eq hps
    exact ⟨rfl, PagedMemory.mem_userPagesOf_iff.mpr ⟨hd.userPage_iff.mpr h, hps⟩⟩
  have hprivate : ∀ path e, m.IsUserPage source path e [] → has pfShared e = false :=
    fun path e h => (hplain.flags path e [] h).2.2.1
  -- every page of the new directory has a frame of its own that was free before
  have hnew : ∀ path e', m'.IsUserPage target path e' [] → m₀.Free (entryFrame e') ∧
      ∀ path₁ e₁, m'.IsUserPage target path₁ e₁ [] → entryFrame e₁ = entryFrame e' → path₁ = path := by
    intro path e' h
    obtain ⟨e, hp, hpage, -, rfl⟩ := hcopy.target_userPage hd h
    have hlt := (hcopy.mapped _ hp).2
    rw [entryFrame_copyEntry hlt]
    refine ⟨(hcopy.fresh _ hp (hprivate _ _ hpage)).1, fun path₁ e₁ h₁ heq => ?_⟩
    obtain ⟨e₂, hp₂, hpage₂, -, rfl⟩ := hcopy.target_userPage hd h₁
    rw [entryFrame_copyEntry (hcopy.mapped _ hp₂).2] at heq
    exact hcopy.apart _ hp₂ _ hp (hprivate _ _ hpage₂) (hprivate _ _ hpage) heq
  have hsource : ∀ path e, m'.IsUserPage source path e [] → ¬m₀.Free (entryFrame e) :=
    fun path e h => (hcopy.source_frame hd ((hcopy.source_userPage hd).mp h)).1
  have htarget : ∀ path e e', m.IsUserPage source path e [] → m'.lookup target path = some (e', []) →
      m'.IsUserPage target path e' [] := by
    intro path e e' h hl
    have hp := (hmem path e [] h).2
    obtain ⟨hmapped, hlt⟩ := hcopy.mapped _ hp
    refine ⟨h.length, hl, ?_⟩
    have := hmapped.symm.trans hl
    simp only [Option.some.injEq, Prod.mk.injEq, and_true] at this
    rw [← this, has_copyEntry hlt (by decide)]
    decide
  refine ⟨fun path e rest h => ?_, fun path e e' h hl _ => ?_, fun path e e' h _ hs => ?_,
    fun path hlen => hcopy.source_lookup hd hlen, fun path e h => (hcopy.source_frame hd h).2.1,
    fun dir other hdir f hf path e h heq => ?_, fun dir hdir path e h _ => ?_⟩
  · obtain ⟨rfl, hp⟩ := hmem path e rest h
    obtain ⟨hmapped, hlt⟩ := hcopy.mapped _ hp
    obtain ⟨hrw, hnx, hsh, -⟩ := hplain.flags path e [] h
    refine ⟨_, hmapped, ⟨?_, ?_, ?_⟩, ?_⟩
    · rw [hrw, has_copyEntry hlt (by decide)]; decide
    · rw [h.user, has_copyEntry hlt (by decide)]; decide
    · rw [hnx, has_copyEntry hlt (by decide)]; decide
    · rw [entryFrame_copyEntry hlt, (hcopy.fresh _ hp hsh).2.2.2]
      exact (hcopy.source_frame hd h).2.2
  · have ht := htarget path e e' h hl
    obtain ⟨hfree, huniq⟩ := hnew path e' ht
    refine ⟨hd.free _ hfree, fun dir hdir path₁ e₁ h₁ heq => ?_⟩
    rcases List.mem_pair.mp hdir with rfl | rfl
    · exact absurd (heq ▸ hfree) (hsource path₁ e₁ h₁)
    · exact ⟨rfl, huniq path₁ e₁ h₁ heq⟩
  · rw [hprivate path e h] at hs
    cases hs
  · obtain ⟨p, hp, rfl⟩ := List.mem_map.mp hf
    obtain ⟨hpage, -⟩ := PagedMemory.mem_userPagesOf_iff.mp hp
    rcases hdir with ⟨rfl, rfl⟩ | ⟨rfl, rfl⟩
    · exact hsource _ _ hpage (heq ▸ (hnew path e h).1)
    · exact hsource _ _ h (heq ▸ (hnew _ _ hpage).1)
  · rcases List.mem_pair.mp hdir with rfl | rfl
    · have hpage := (hcopy.source_userPage hd).mp h
      have hps := (hplain.flags path e [] hpage).2.2.2
      refine PagedMemory.count_freedFrames_of_apart (PagedMemory.mem_userPagesOf_iff.mpr ⟨h, hps⟩) ?_
      intro p hp p' hp' heq
      have h1 := (hcopy.source_userPage hd).mp (PagedMemory.mem_userPagesOf_iff.mp hp).1
      have h2 := (hcopy.source_userPage hd).mp (PagedMemory.mem_userPagesOf_iff.mp hp').1
      exact hplain.apart _ _ _ _ h1 h2 heq
    · have hps : has pfPs e = false := by
        obtain ⟨e₀, hp, -, -, rfl⟩ := hcopy.target_userPage hd h
        rw [has_copyEntry (hcopy.mapped _ hp).2 (by decide)]
        decide
      refine PagedMemory.count_freedFrames_of_apart (PagedMemory.mem_userPagesOf_iff.mpr ⟨h, hps⟩) ?_
      intro p hp p' hp' heq
      exact (hnew _ _ (PagedMemory.mem_userPagesOf_iff.mp hp').1).2 _ _ (PagedMemory.mem_userPagesOf_iff.mp hp).1 heq

/-- Where the promise holds the user pages were plain. -/
theorem Copied.plain (h : ForkCorrect m m' source target) : PlainUserPages m source := by
  have hflags : ∀ path e rest, m.IsUserPage source path e rest →
      has pfRw e = true ∧ has pfNoExecute e = false ∧ has pfShared e = false ∧ has pfPs e = false := by
    intro path e rest hpage
    have h₀ := hd.userPage_iff.mpr hpage
    obtain ⟨e', hl, ⟨hrw, -, hnx⟩, -⟩ := h.copied path e rest hpage
    obtain ⟨e₁, hp, hpage₁, hps, rfl, -⟩ := hcopy.target_lookup hd hpage.length
      (hd.context.slots path e rest h₀.length h₀.lookup h₀.user) hl
    obtain ⟨rfl, rfl⟩ := hpage.unique hpage₁
    have hlt := (hcopy.mapped _ hp).2
    rw [has_copyEntry hlt (by decide)] at hrw hnx
    refine ⟨hrw.trans (by decide), hnx.trans (by decide), ?_, hps⟩
    cases hs : has pfShared e with
    | false => rfl
    | true =>
      have := (h.shared path e _ hpage hl hs).2
      rw [has_copyEntry hlt (by decide)] at this
      exact absurd this (by decide)
  refine ⟨hflags, fun path e path' e' hpage hpage' heq => ?_⟩
  obtain ⟨-, -, hs, hps⟩ := hflags path e [] hpage
  obtain ⟨-, -, -, hps'⟩ := hflags path' e' [] hpage'
  have h1 := (hcopy.source_userPage hd).mpr hpage
  have h2 := (hcopy.source_userPage hd).mpr hpage'
  exact PagedMemory.path_eq_of_count (PagedMemory.mem_userPagesOf_iff.mpr ⟨h1, hps⟩)
    (PagedMemory.mem_userPagesOf_iff.mpr ⟨h2, hps'⟩) heq (h.freesOnce source (by simp) path e h1 hs)

end Iff

/-! ### The new directory -/

/-- Before a clone: tables and user frames of the source are in use, the kernel's
directory is a tree without user pages, and user pages lie in slots that it does
not have. -/
structure CloneContext (m : PagedMemory) (model source : ℕ) : Prop where
  ready : m.Ready
  wf : m.WellFormed model
  noUser : ∀ path entry rest, path.length = 4 → m.lookup model path = some (entry, rest) → has pfUser entry = false
  tables : ∀ q a, q.length ≤ 3 → m.table source q = some a → ¬m.Free a
  frames : ∀ path entry, m.IsUserPage source path entry [] → ¬m.Free (entryFrame entry)
  slots : ∀ path entry rest, m.IsUserPage source path entry rest → m.UserSlot model path

theorem pageDirectoryAllocate_cases {m : PagedMemory} (hr : m.Ready) {model : ℕ} (hmodel : ¬m.Free model) :
    pageDirectoryAllocate true m model = .error .halt ∨
    ∃ f m', m.Takes m' f ∧ m'.words = Function.update m.words f (m.words model) ∧
      pageDirectoryAllocate true m model = .ok (f, m') := by
  have heq : pageDirectoryAllocate true m model = pagingPhysicalAllocate m >>= fun r =>
      .ok (r.1 / pageSize, ⟨r.2.bitmap, Function.update r.2.words (r.1 / pageSize) (r.2.words model)⟩) := by
    unfold pageDirectoryAllocate pagingPhysicalAllocate
    cases physicalAllocate m.bitmap 1 with
    | error e => rfl
    | ok a => cases hh : a.halted <;> simp [hh]
  rw [heq]
  rcases pagingPhysicalAllocate_cases hr with ⟨-, he⟩ | ⟨f, m₁, ht, hw, he⟩
  · exact .inl (by rw [he]; rfl)
  · have hframe : f * pageSize / pageSize = f := Nat.mul_div_cancel f (by decide)
    have hne : model ≠ f := fun h => hmodel (h ▸ ht.free)
    refine .inr ⟨f, ⟨m₁.bitmap, Function.update m₁.words f (m₁.words model)⟩,
      ⟨ht.free, ht.pos, ht.marked, ⟨ht.ready.physical, ht.ready.fits⟩⟩, ?_, by rw [he, Exec.ok_bind, hframe]⟩
    simp only [hw, Function.update_idem, Function.update_of_ne hne]

section NewRoot
variable {m m₀ : PagedMemory} {model source f : ℕ} (hc : CloneContext m model source) (ht : m.Takes m₀ f)
  (hw : m₀.words = Function.update m.words f (m.words model))
include hc ht hw

theorem CloneContext.newRoot_table {i : Fin 512} {q : List (Fin 512)} (hq : q.length ≤ 2) :
    m₀.table f (i :: q) = m.table model (i :: q) := by
  unfold PagedMemory.table
  rw [RadixTree.walk_cons, RadixTree.walk_cons, show m₀.words f i = m.words model i by rw [hw, Function.update_self]]
  cases hn : nextTable (m.words model i) with
  | none => rfl
  | some a =>
    refine RadixTree.walk_congr fun q' j b hq' hb => ?_
    have := hq'.length_le
    rw [List.length_append, List.length_singleton] at this
    rw [hw, Function.update_of_ne]
    rintro rfl
    refine hc.wf.used (i :: q') b (by simp; omega) ?_ ht.free
    rw [PagedMemory.table, RadixTree.walk_cons, hn]
    exact hb

theorem CloneContext.newRoot_lookup {path : List (Fin 512)} (hlen : path.length = 4) :
    m₀.lookup f path = m.lookup model path := by
  obtain ⟨i, j, k, l, rfl⟩ := List.length_eq_four.mp hlen
  unfold PagedMemory.lookup
  have hroot : m₀.words f i = m.words model i := by rw [hw, Function.update_self]
  cases hn : nextTable (m.words model i) with
  | none => simp only [RadixTree.lookup, hroot, hn]
  | some a =>
    rw [RadixTree.lookup_cons_of_next (by simp) (hroot ▸ hn), RadixTree.lookup_cons_of_next (by simp) hn]
    refine RadixTree.lookup_congr fun p b hp hb => ?_
    rw [hw, Function.update_of_ne]
    rintro rfl
    refine hc.wf.used (i :: p) b (by simp at hp ⊢; omega) ?_ ht.free
    rw [PagedMemory.table, RadixTree.walk_cons, hn]
    exact hb

theorem CloneContext.newDirectory : NewDirectory m m₀ source f := by
  have hfree : ∀ k, m₀.Free k → m.Free k := fun k hk => ((ht.free_iff k).mp hk).1
  have hwords : ∀ b, b ≠ f → m₀.words b = m.words b := fun b hb => by rw [hw, Function.update_of_ne hb]
  have hsource : ∀ q a, q.length ≤ 3 → m.table source q = some a → a ≠ f :=
    fun q a hq ha haf => hc.tables q a hq ha (haf ▸ ht.free)
  have htables : ∀ q, q.length ≤ 3 → m₀.table source q = m.table source q := by
    intro q hq
    refine RadixTree.walk_congr fun q' i a hq' ha => ?_
    have := hq'.length_le
    rw [List.length_append, List.length_singleton] at this
    rw [hwords a (hsource q' a (by omega) ha)]
  have hlookups : ∀ path, path.length = 4 → m₀.lookup source path = m.lookup source path :=
    fun path hlen => RadixTree.lookup_congr fun p a hp ha => hwords a (hsource p a (by omega) ha)
  have hpage : ∀ path e rest, path.length = 4 → m₀.lookup source path = some (e, rest) → has pfUser e = true →
      m.IsUserPage source path e rest := fun path e rest hlen hl hu => ⟨hlen, (hlookups path hlen) ▸ hl, hu⟩
  have hroot : ∀ p a, p.length ≤ 3 → m₀.table f p = some a →
      (p = [] ∧ a = f) ∨ (p ≠ [] ∧ m.table model p = some a) := by
    intro p a hp ha
    cases p with
    | nil => exact .inl ⟨rfl, (Option.some.inj ha).symm⟩
    | cons i p => exact .inr ⟨by simp, (hc.newRoot_table ht hw (q := p) (by simp at hp; omega)) ▸ ha⟩
  refine ⟨⟨ht.ready, ⟨fun p q a hp hq hpa hqa => ?_, fun p a hp hpa hk => ?_⟩, fun q a hq ha => ?_,
    fun path e hlen hl hu => ?_, fun path e rest hlen hl hu => ?_⟩, hfree, hwords, hlookups,
    fun path e rest hlen hl => hc.noUser path e rest hlen (hc.newRoot_lookup ht hw hlen ▸ hl)⟩
  · rcases hroot p a hp hpa with ⟨rfl, rfl⟩ | ⟨-, hpa'⟩ <;> rcases hroot q _ hq hqa with ⟨rfl, h⟩ | ⟨-, hqa'⟩
    · rfl
    · exact absurd ht.free (hc.wf.used q _ hq hqa')
    · exact absurd ht.free (h ▸ hc.wf.used p _ hp hpa')
    · exact hc.wf.tree p q a hp hq hpa' hqa'
  · rcases hroot p a hp hpa with ⟨rfl, rfl⟩ | ⟨-, hpa'⟩
    · exact ((ht.free_iff a).mp hk).2 rfl
    · exact hc.wf.used p a hp hpa' (hfree a hk)
  · have ha' := (htables q hq) ▸ ha
    exact ⟨fun hk => hc.tables q a hq ha' (hfree a hk), hsource q a hq ha'⟩
  · have hused := hc.frames path e (hpage path e [] hlen hl hu)
    exact ⟨fun hk => hused (hfree _ hk), fun heq => hused (heq ▸ ht.free)⟩
  · obtain ⟨i, t, rfl, habsent⟩ := hc.slots path e rest (hpage path e rest hlen hl hu)
    exact ⟨i, t, rfl, by rw [hw, Function.update_self]; exact habsent⟩

end NewRoot

/-- A clone keeps the promise of fork exactly when the user pages of the source are
plain, and it fails only for lack of memory. Freeing a directory afterwards gives
back the frames of its user pages. -/
theorem clone_correct_iff_plain (m : PagedMemory) (model source : ℕ) (hc : CloneContext m model source) :
    (∀ target m', taskInfoPdClone m model source = .ok (target, m') →
      (ForkCorrect m m' source target ↔ PlainUserPages m source) ∧
      ∀ dir, pageDirectoryFree m' dir = run freeFrame m' (m'.freedFrames dir)) ∧
    ∀ e, taskInfoPdClone m model source = .error e → e = .halt := by
  unfold taskInfoPdClone
  rcases pageDirectoryAllocate_cases hc.ready (hc.wf.used [] model (Nat.zero_le _) rfl) with
    he | ⟨new, m₀, ht, hw, he⟩
  · rw [he]
    exact ⟨fun target m' h => (by cases h), fun e h => (by cases h; rfl)⟩
  · have hd := hc.newDirectory ht hw
    rw [he, Exec.ok_bind]
    dsimp only
    cases hdup : pageDirectoryUserDuplicate m₀ source new with
    | error e =>
      obtain rfl := pageDirectoryUserDuplicate_stop hd.context hdup
      exact ⟨fun target m' h => (by cases h), fun e h => (by cases h; rfl)⟩
    | ok m₁ =>
      obtain ⟨frame, hcopy⟩ := pageDirectoryUserDuplicate_copied hd.context hdup
      refine ⟨fun target m' h => ?_, fun e h => by cases h⟩
      cases h
      exact ⟨⟨hcopy.plain hd, hcopy.correct hd⟩, pageDirectoryFree_eq_freedFrames m₁⟩

/-- Sixteen frames, of which the first eight are in use. -/
def halfUsed : Bitmap where
  bytes := fun k => if k = 0 then 0xff#8 else 0#8
  sizeInBlocks := 16
  sizeInBytes := 2
  lastDeepFragmented := 0
  memStart := 0
  covered := sixteen_covered
  addressable := sixteen_addressable

/-- The kernel's directory in frame 1 is empty; the directory in frame 2 maps one
page at `0x400000` to frame 6, shared or not. -/
def forkMemory (shared : Bool) : PagedMemory where
  bitmap := halfUsed
  words := fun a i =>
    if a = 2 ∧ i = 0 then tableEntry 0x3000
    else if a = 3 ∧ i = 0 then tableEntry 0x4000
    else if a = 4 ∧ i = 2 then tableEntry 0x5000
    else if a = 5 ∧ i = 0 then leafEntry 0x6000 (pfRw ||| pfUser ||| if shared then pfShared else 0)
    else 0

/-- Entries refer to the frames 3 to 6, and those of user pages have plain flags
unless the page is shared. -/
theorem forkMemory_entries (shared : Bool) (a : ℕ) (i : Fin 512) :
    (∀ b ∈ nextTable ((forkMemory shared).words a i), b ∈ [3, 4, 5, 6]) ∧
    (has pfUser ((forkMemory shared).words a i) = true →
      entryFrame ((forkMemory shared).words a i) ∈ [3, 4, 5, 6] ∧
      has pfRw ((forkMemory shared).words a i) = true ∧ has pfNoExecute ((forkMemory shared).words a i) = false ∧
      (shared = false → has pfShared ((forkMemory shared).words a i) = false) ∧
      has pfPs ((forkMemory shared).words a i) = false) := by
  unfold forkMemory
  dsimp only
  cases shared <;> split_ifs <;> first | contradiction | decide +kernel

theorem halfUsed_physical : halfUsed.Physical :=
  ⟨rfl, ⟨fun k hk => absurd hk (Nat.not_lt_zero k), Nat.zero_le _⟩, by decide⟩

theorem forkMemory_used (shared : Bool) {a : ℕ} (ha : a ∈ [1, 2, 3, 4, 5, 6]) : ¬(forkMemory shared).Free a := by
  have hget : ∀ a ∈ [1, 2, 3, 4, 5, 6], halfUsed.get a = true := by decide
  exact fun hfree => absurd hfree.2 (by rw [show (forkMemory shared).bitmap = halfUsed from rfl, hget a ha]; decide)

theorem forkMemory_userPages : (forkMemory false).userPagesOf 2 =
    [([0, 0, 2, 0], leafEntry 0x6000 (pfRw ||| pfUser))] := by decide +kernel

theorem forkMemory_zero (shared : Bool) {a : ℕ} (ha : a = 1) (i : Fin 512) : (forkMemory shared).words a i = 0 := by
  subst ha
  rfl

section ForkMemory
variable (shared : Bool)

theorem forkMemory_table {q : List (Fin 512)} {a : ℕ} (h : (forkMemory shared).table 2 q = some a) :
    a ∈ [2, 3, 4, 5, 6] := by
  refine RadixTree.walk_mem (S := (· ∈ [2, 3, 4, 5, 6])) (fun a i b _ hb => ?_) (by simp) h
  exact List.mem_cons_of_mem _ ((forkMemory_entries shared a i).1 b hb)

theorem forkMemory_userPage {path : List (Fin 512)} {e : Word} {rest : List (Fin 512)}
    (h : (forkMemory shared).IsUserPage 2 path e rest) :
    entryFrame e ∈ [3, 4, 5, 6] ∧ has pfRw e = true ∧ has pfNoExecute e = false ∧
      (shared = false → has pfShared e = false) ∧ has pfPs e = false := by
  obtain ⟨p, a, i, -, rfl, -⟩ := RadixTree.walk_of_lookup h.lookup
  exact (forkMemory_entries shared a i).2 h.user

theorem forkMemory_context : CloneContext (forkMemory shared) 1 2 := by
  have hkernel : ∀ q a, (forkMemory shared).table 1 q = some a → q = [] ∧ a = 1 := by
    intro q a h
    cases q with
    | nil => exact ⟨rfl, (Option.some.inj h).symm⟩
    | cons i q =>
      rw [PagedMemory.table, RadixTree.walk_cons, forkMemory_zero shared rfl, nextTable_zero] at h
      cases h
  refine ⟨⟨halfUsed_physical, show 16 ≤ 2 ^ 40 by norm_num⟩, ⟨fun p q a _ _ hp hq => ?_, fun p a _ hp => ?_⟩,
    fun path e rest _ h => ?_, fun q a _ ha => ?_, fun path e h => ?_, fun path e rest h => ?_⟩
  · rw [(hkernel p a hp).1, (hkernel q a hq).1]
  · obtain ⟨-, rfl⟩ := hkernel p a hp
    exact forkMemory_used shared (by simp)
  · have hnone : (forkMemory shared).lookup 1 path = none :=
      RadixTree.lookup_of_empty (fun i => by rw [forkMemory_zero shared rfl, nextTable_zero])
        (fun i => by rw [forkMemory_zero shared rfl, has_zero]) _
    cases hnone.symm.trans h
  · exact forkMemory_used shared (List.mem_cons_of_mem _ (forkMemory_table shared ha))
  · exact forkMemory_used shared (List.mem_cons_of_mem _ (List.mem_cons_of_mem _ (forkMemory_userPage shared h).1))
  · obtain ⟨i, t, rfl⟩ := List.exists_cons_of_length_pos (show 0 < path.length by rw [h.length]; norm_num)
    exact ⟨i, t, rfl, by rw [forkMemory_zero shared rfl, has_zero]⟩

end ForkMemory

theorem forkMemory_clone_correct : ∃ r, taskInfoPdClone (forkMemory false) 1 2 = .ok r ∧
    ForkCorrect (forkMemory false) r.2 2 r.1 := by
  obtain ⟨⟨target, m'⟩, hr, -⟩ : ∃ r, taskInfoPdClone (forkMemory false) 1 2 = .ok r ∧ r.1 = 8 := by decide +kernel
  have h := ((clone_correct_iff_plain (forkMemory false) 1 2 (forkMemory_context false)).1 target m' hr).1
  refine ⟨_, hr, h.mpr ⟨fun path e rest hpage => ?_, fun path e path' e' h₁ h₂ _ => ?_⟩⟩
  · obtain ⟨-, hrw, hnx, hsh, hps⟩ := forkMemory_userPage false hpage
    exact ⟨hrw, hnx, hsh rfl, hps⟩
  · have hps : ∀ path e, (forkMemory false).IsUserPage 2 path e [] → path = [0, 0, 2, 0] := by
      intro path e hpage
      have hmem := PagedMemory.mem_userPagesOf_iff.mpr ⟨hpage, (forkMemory_userPage false hpage).2.2.2.2⟩
      rw [forkMemory_userPages, List.mem_singleton, Prod.mk.injEq] at hmem
      exact hmem.1
    rw [hps path e h₁, hps path' e' h₂]

/-- A shared page loses its mark in the clone, and freeing the clone gives back the
frame that the source still maps. -/
theorem forkMemory_shared_page_freed : CloneContext (forkMemory true) 1 2 ∧
    ∃ r, taskInfoPdClone (forkMemory true) 1 2 = .ok r ∧ ¬ForkCorrect (forkMemory true) r.2 2 r.1 ∧
      ∃ m', pageDirectoryFree r.2 r.1 = .ok m' ∧ m'.Free 6 ∧
        m'.lookup 2 [0, 0, 2, 0] = some (leafEntry 0x6000 (pfRw ||| pfUser ||| pfShared), []) := by
  have hsource : (forkMemory true).lookup 2 [0, 0, 2, 0] =
      some (leafEntry 0x6000 (pfRw ||| pfUser ||| pfShared), []) := by decide +kernel
  obtain ⟨r, hr, htarget, hfree⟩ : ∃ r, taskInfoPdClone (forkMemory true) 1 2 = .ok r ∧
      r.2.lookup r.1 [0, 0, 2, 0] = some (leafEntry 0x6000 (pfRw ||| pfUser), []) ∧
      ∃ m', pageDirectoryFree r.2 r.1 = .ok m' ∧ m'.Free 6 ∧
        m'.lookup 2 [0, 0, 2, 0] = some (leafEntry 0x6000 (pfRw ||| pfUser ||| pfShared), []) := by decide +kernel
  refine ⟨forkMemory_context true, r, hr, fun h => ?_, hfree⟩
  have hmark := (h.shared _ _ _ ⟨rfl, hsource, by decide⟩ htarget (by decide)).2
  exact absurd hmark (by decide)

end DualFuse.Memory
