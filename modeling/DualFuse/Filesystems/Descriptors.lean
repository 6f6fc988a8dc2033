import DualFuse.Filesystems.Vfs

/-! The bitmap and the tree of a descriptor table agree. Each operation adds or
removes one entry, and works on its own entries only, so the tables of other tasks
keep theirs. The table of a new program is the exception: the loader opens three
files in it before the files of the caller are copied, and the bitmap of the caller
replaces the one that knows of them. -/

namespace DualFuse.Filesystems

open Library Utility

/-- The descriptors that a bitmap of `rlimitFdsHard / 8` bytes has room for. -/
def fdLimit : ℕ := 1024

/-- Everything but the halt of a duplicate key may stop a call. -/
def NotHalted (e : Stop) : Prop := e ≠ .halt

namespace TaskFiles

/-- The table holds the object under the descriptor. -/
def Has (s : TaskFiles) (i a : ℕ) : Prop := s.infoFiles.firstFile.Has i a

def Opened (s : TaskFiles) (i : ℕ) : Prop := ∃ a, s.Has i a

/-- The tree is a search tree of allocated objects that carry their own descriptor. -/
structure Kept (s : TaskFiles) : Prop where
  ordered : s.infoFiles.firstFile.Ordered
  balanced : AvlHeader.Balanced s.infoFiles.firstFile
  small : ∀ i a, s.Has i a → i < fdLimit
  file : ∀ i a, s.Has i a → a ≠ 0 ∧ ∃ f, s.heap a = some f ∧ f.id = i ∧ f.closeFlags = 0

/-- The objects of other tables are untouched, and none enters this one. -/
def Frame (s s' : TaskFiles) : Prop :=
  ∀ a f, s.heap a = some f → (∀ i, ¬s.Has i a) → s'.heap a = some f ∧ ∀ i, ¬s'.Has i a

theorem Frame.refl (s : TaskFiles) : Frame s s := fun _ _ h hn => ⟨h, hn⟩

theorem Frame.trans {s s' s'' : TaskFiles} (h : Frame s s') (h' : Frame s' s'') : Frame s s'' := by
  intro a f ha hn
  obtain ⟨ha', hn'⟩ := h a f ha hn
  exact h' a f ha' hn'

theorem Kept.avlLookup {s : TaskFiles} (h : s.Kept) {i a : ℕ} (ha : s.Has i a) :
    AvlHeader.avlLookup s.infoFiles.firstFile i = a := by
  rw [AvlHeader.avlLookup_eq_find, (h.ordered.find_eq_some_iff i a).mpr ha]
  rfl

theorem Kept.has_avlLookup {s : TaskFiles} (h : s.Kept) {i : ℕ}
    (hi : AvlHeader.avlLookup s.infoFiles.firstFile i ≠ 0) :
    s.Has i (AvlHeader.avlLookup s.infoFiles.firstFile i) := by
  rw [AvlHeader.avlLookup_eq_find] at *
  cases hf : s.infoFiles.firstFile.find i with
  | none =>
    rw [hf] at hi
    exact absurd rfl hi
  | some a => exact (h.ordered.find_eq_some_iff i a).mp hf

/-- Two descriptors never share an object. -/
theorem Kept.key_unique {s : TaskFiles} (h : s.Kept) {i j a : ℕ} (hi : s.Has i a) (hj : s.Has j a) : i = j := by
  obtain ⟨-, f, hf, hid, -⟩ := h.file i a hi
  obtain ⟨-, f', hf', hid', -⟩ := h.file j a hj
  rw [hf] at hf'
  cases hf'
  exact Int.ofNat_inj.mp (hid.symm.trans hid')

/-! ### Adding, changing and removing an entry -/

/-- One entry more, with a new object. -/
structure Added (s s' : TaskFiles) (id file : ℕ) (f : OpenFile) : Prop where
  nonzero : file ≠ 0
  fresh : s.heap file = none
  heap : s'.heap = Function.update s.heap file (some f)
  files : ∃ t, s'.infoFiles = { s.infoFiles with firstFile := t } ∧
    AvlHeader.Allocated id file s.infoFiles.firstFile t

section Added
variable {s s' : TaskFiles} {id file : ℕ} {f : OpenFile}

theorem Added.has_iff (h : Added s s' id file f) (i a : ℕ) : s'.Has i a ↔ (i = id ∧ a = file) ∨ s.Has i a := by
  obtain ⟨t, ht, hspec⟩ := h.files
  rw [Has, ht]
  exact hspec.has i a

theorem Added.opened_iff (h : Added s s' id file f) (i : ℕ) : s'.Opened i ↔ i = id ∨ s.Opened i := by
  simp only [Opened, h.has_iff]
  constructor
  · rintro ⟨a, ⟨hi, -⟩ | ha⟩
    · exact .inl hi
    · exact .inr ⟨a, ha⟩
  · rintro (hi | ⟨a, ha⟩)
    · exact ⟨file, .inl ⟨hi, rfl⟩⟩
    · exact ⟨a, .inr ha⟩

theorem Added.not_has (h : Added s s' id file f) (hk : s.Kept) (i : ℕ) : ¬s.Has i file := by
  intro hi
  obtain ⟨-, g, hg, -⟩ := hk.file i file hi
  rw [h.fresh] at hg
  cases hg

theorem Added.kept (h : Added s s' id file f) (hk : s.Kept) (hid : id < fdLimit) (hf : f.id = id)
    (hc : f.closeFlags = 0) : s'.Kept := by
  obtain ⟨t, ht, hspec⟩ := h.files
  refine ⟨ht ▸ hspec.ordered, ht ▸ hspec.balanced, fun i a ha => ?_, fun i a ha => ?_⟩
  · rcases (h.has_iff i a).mp ha with ⟨rfl, -⟩ | ha
    · exact hid
    · exact hk.small i a ha
  · rw [h.heap]
    rcases (h.has_iff i a).mp ha with ⟨rfl, rfl⟩ | ha
    · exact ⟨h.nonzero, f, by rw [Function.update_self], hf, hc⟩
    · have hne : a ≠ file := fun he => h.not_has hk i (he ▸ ha)
      rw [Function.update_of_ne hne]
      exact hk.file i a ha

theorem Added.frame (h : Added s s' id file f) : Frame s s' := by
  intro a g ha hn
  have hne : a ≠ file := fun he => by
    rw [he, h.fresh] at ha
    cases ha
  refine ⟨by rw [h.heap, Function.update_of_ne hne, ha], fun i hi => ?_⟩
  rcases (h.has_iff i a).mp hi with ⟨-, he⟩ | hi
  · exact hne he
  · exact hn i hi

theorem Added.modify (h : Added s s' id file f) (g : OpenFile → OpenFile) :
    ∃ s'', s'.modify file g = .ok s'' ∧ Added s s'' id file (g f) := by
  have hread : s'.read file = .ok f := read_eq h.nonzero (by rw [h.heap, Function.update_self])
  refine ⟨s'.write file (g f), by rw [TaskFiles.modify, hread, Exec.ok_bind], h.nonzero, h.fresh, ?_, h.files⟩
  rw [write_heap, h.heap, Function.update_idem]

end Added

/-- One entry less, whose object is freed. -/
theorem Kept.remove {s : TaskFiles} (hk : s.Kept) (s' : TaskFiles) {i a : ℕ} (ha : s.Has i a)
    (hheap : s'.heap = Function.update s.heap a none)
    (htree : AvlHeader.Unregistered i s.infoFiles.firstFile s'.infoFiles.firstFile) :
    s'.Kept ∧ Frame s s' ∧ ∀ j, s'.Opened j ↔ s.Opened j ∧ j ≠ i := by
  have hhas : ∀ j b, s'.Has j b ↔ s.Has j b ∧ j ≠ i := htree.has
  refine ⟨⟨htree.ordered, htree.balanced, fun j b hb => hk.small j b ((hhas j b).mp hb).1, fun j b hb => ?_⟩,
    fun b g hb hn => ?_, fun j => ?_⟩
  · obtain ⟨hb, hji⟩ := (hhas j b).mp hb
    have hba : b ≠ a := fun he => hji (hk.key_unique (he ▸ hb) ha)
    rw [hheap, Function.update_of_ne hba]
    exact hk.file j b hb
  · have hba : b ≠ a := fun he => hn i (he ▸ ha)
    exact ⟨by rw [hheap, Function.update_of_ne hba, hb], fun j hj => hn j ((hhas j b).mp hj).1⟩
  · simp only [Opened, hhas]
    exact ⟨fun ⟨b, hb, hji⟩ => ⟨⟨b, hb⟩, hji⟩, fun ⟨⟨b, hb⟩, hji⟩ => ⟨b, hb, hji⟩⟩

/-! ### The functions of the table -/

/-- An `int` below the limit is its own key. -/
theorem wrapInt_of_lt {n : ℕ} (h : n < fdLimit) : wrapInt n = n := by
  unfold fdLimit at h
  rw [wrapInt, Int.bmod_eq_of_le] <;> omega

theorem intToSize_of_lt {n : ℕ} (h : n < fdLimit) : intToSize n = n :=
  intToSize_of_nonneg (h.trans (by decide))

/-- A table that was allocated or copied. -/
def Limited (files : TaskInfoFiles) : Prop := files.rlimitFdsSoft = fdLimit ∧ files.rlimitFdsHard = fdLimit

theorem Limited.bitmapGenericGet {files : TaskInfoFiles} (h : Limited files) {i : ℕ} (hi : i < fdLimit) :
    files.bitmapGenericGet i = .ok (BitArray.get files.fdBitmap i) := by
  rw [TaskInfoFiles.bitmapGenericGet, if_pos]
  rw [h.2]
  unfold fdLimit at *
  omega

theorem Limited.bitmapGenericSet {files : TaskInfoFiles} (h : Limited files) {i : ℕ} (hi : i < fdLimit) (b : Bool) :
    files.bitmapGenericSet i b = .ok { files with fdBitmap := BitArray.set files.fdBitmap i b } := by
  rw [TaskInfoFiles.bitmapGenericSet, if_pos]
  rw [h.2]
  unfold fdLimit at *
  omega

theorem Limited.fsIdFindFrom {files : TaskInfoFiles} (h : Limited files) {n i : ℕ} (hi : i + n ≤ fdLimit) :
    Exec.Meets NotHalted (fun r => r.1 < fdLimit ∧ BitArray.get files.fdBitmap r.1 = false ∧
      (∀ j, i ≤ j → j < r.1 → BitArray.get files.fdBitmap j = true) ∧
      r.2 = { files with fdBitmap := BitArray.set files.fdBitmap r.1 true }) (files.fsIdFindFrom n i) := by
  induction n generalizing i with
  | zero => exact Stop.noConfusion
  | succ n ih =>
    rw [TaskInfoFiles.fsIdFindFrom, h.bitmapGenericGet (by omega), Exec.ok_bind]
    cases hbit : BitArray.get files.fdBitmap i with
    | true =>
      rw [if_pos rfl]
      refine (ih (by omega)).mono fun r ⟨hlt, hfree, hlow, hfiles⟩ => ⟨hlt, hfree, fun j hij hj => ?_, hfiles⟩
      rcases hij.eq_or_lt with rfl | hij
      · exact hbit
      · exact hlow j hij hj
    | false =>
      rw [if_neg Bool.false_ne_true, h.bitmapGenericSet (by omega), Exec.ok_bind]
      exact ⟨by omega, hbit, fun j hij hj => absurd hj (not_lt.mpr hij), rfl⟩

theorem Kept.fsRegisterNode {s : TaskFiles} (hk : s.Kept) (alloc : Allocator) {id : ℕ} (hid : id < fdLimit)
    (habsent : ¬s.Opened id) :
    Exec.Meets NotHalted (fun r => Added s r.2 id r.1 { OpenFile.zero with id := id }) (s.fsRegisterNode alloc id) := by
  rw [TaskFiles.fsRegisterNode]
  cases hplace : alloc.place s.heap with
  | none => exact Stop.noConfusion
  | some file =>
    obtain ⟨hne, hfresh⟩ := alloc.fresh s.heap file hplace
    obtain ⟨t, ht, hspec⟩ := AvlHeader.avlAllocateL_spec file hk.ordered hk.balanced
      fun a ha => habsent ⟨a, ha⟩
    simp only [AvlHeader.avlAllocate, ht, Exec.ok_bind, wrapInt_of_lt hid]
    exact ⟨hne, hfresh, rfl, t, rfl, hspec⟩

/-- An object and its descriptor leave the table; the bit stays. -/
theorem fsUnregisterNode_eq {s : TaskFiles} (ho : s.infoFiles.firstFile.Ordered)
    (hb : AvlHeader.Balanced s.infoFiles.firstFile) {a i : ℕ} {f : OpenFile} (ha : a ≠ 0) (hf : s.heap a = some f)
    (hid : f.id = i) (hi : i < fdLimit) :
    ∃ t ret, s.fsUnregisterNode a = .ok (ret, s.withFiles { s.infoFiles with firstFile := t }) ∧
      AvlHeader.Unregistered i s.infoFiles.firstFile t := by
  obtain ⟨t, target, ht, hspec⟩ := AvlHeader.avlUnregisterL_spec i ho hb
  refine ⟨t, target != 0, ?_, hspec⟩
  simp only [fsUnregisterNode, read_eq ha hf, Exec.ok_bind, hid, intToSize_of_lt hi, AvlHeader.avlUnregister, ht]

/-! ### Agreement of bitmap and tree -/

/-- The bitmap marks exactly these descriptors. -/
def Marks (s : TaskFiles) (p : ℕ → Prop) : Prop := ∀ i < fdLimit, BitArray.get s.infoFiles.fdBitmap i = true ↔ p i

structure Consistent (s : TaskFiles) : Prop where
  limited : Limited s.infoFiles
  kept : s.Kept
  marks : s.Marks s.Opened

/-- A descriptor is marked and not yet in the tree. -/
structure Reserved (s : TaskFiles) (id : ℕ) : Prop where
  limited : Limited s.infoFiles
  kept : s.Kept
  small : id < fdLimit
  absent : ¬s.Opened id
  marks : s.Marks fun i => s.Opened i ∨ i = id

theorem Consistent.reserve {s : TaskFiles} (h : s.Consistent) {id : ℕ} (hid : id < fdLimit) (habsent : ¬s.Opened id) :
    (s.withFiles { s.infoFiles with fdBitmap := BitArray.set s.infoFiles.fdBitmap id true }).Reserved id := by
  refine ⟨h.limited, ⟨h.kept.ordered, h.kept.balanced, h.kept.small, h.kept.file⟩, hid, habsent, fun i hi => ?_⟩
  rw [withFiles_infoFiles, BitArray.get_set]
  by_cases he : i = id
  · simp [he]
  · rw [if_neg he, h.marks i hi]
    exact ⟨.inl, fun h => h.resolve_right he⟩

theorem Consistent.fsIdFind {s : TaskFiles} (h : s.Consistent) :
    Exec.Meets NotHalted (fun r => (s.withFiles r.2).Reserved r.1 ∧ Frame s (s.withFiles r.2) ∧
      (∀ i, (s.withFiles r.2).Opened i ↔ s.Opened i) ∧ ∀ j < r.1, s.Opened j) s.infoFiles.fsIdFind := by
  have hlimit : 0 + s.infoFiles.rlimitFdsSoft ≤ fdLimit := by rw [h.limited.1, zero_add]
  refine (h.limited.fsIdFindFrom hlimit).mono ?_
  rintro ⟨id, files⟩ ⟨hid, hbit, hlow, hfiles⟩
  dsimp only at hid hbit hlow hfiles ⊢
  subst hfiles
  refine ⟨h.reserve hid fun hopen => ?_, Frame.refl s, fun _ => Iff.rfl, fun j hj => ?_⟩
  · rw [(h.marks id hid).mpr hopen] at hbit
    cases hbit
  · exact (h.marks j (hj.trans hid)).mp (hlow j j.zero_le hj)

/-- A new object stands in the table, under a descriptor that was free. -/
def Placed (s s' : TaskFiles) (file : ℕ) : Prop :=
  ∃ s₁ id f, s₁.Reserved id ∧ Frame s s₁ ∧ Added s₁ s' id file f ∧ f.id = id ∧ f.closeFlags = 0

section Placed
variable {s s' : TaskFiles} {file : ℕ}

theorem Placed.consistent (h : Placed s s' file) : s'.Consistent := by
  obtain ⟨s₁, id, f, hr, -, ha, hid, hc⟩ := h
  have hfiles : s'.infoFiles.fdBitmap = s₁.infoFiles.fdBitmap ∧ Limited s'.infoFiles := by
    obtain ⟨t, ht, -⟩ := ha.files
    rw [ht]
    exact ⟨rfl, hr.limited⟩
  refine ⟨hfiles.2, ha.kept hr.kept hr.small hid hc, fun i hi => ?_⟩
  rw [hfiles.1, hr.marks i hi, ha.opened_iff, or_comm]

theorem Placed.frame (h : Placed s s' file) : Frame s s' := by
  obtain ⟨s₁, id, f, -, hframe, ha, -⟩ := h
  exact hframe.trans ha.frame

theorem Placed.has (h : Placed s s' file) : ∃ id, s'.Has id file := by
  obtain ⟨s₁, id, f, -, -, ha, -⟩ := h
  exact ⟨id, (ha.has_iff id file).mpr (.inl ⟨rfl, rfl⟩)⟩

theorem Placed.modify (h : Placed s s' file) {g : OpenFile → OpenFile} (hid : ∀ f, (g f).id = f.id)
    (hc : ∀ f : OpenFile, f.closeFlags = 0 → (g f).closeFlags = 0) :
    Exec.Meets NotHalted (fun s'' => Placed s s'' file) (s'.modify file g) := by
  obtain ⟨s₁, id, f, hr, hframe, ha, hfid, hfc⟩ := h
  obtain ⟨s'', hmodify, ha'⟩ := ha.modify g
  rw [hmodify]
  exact ⟨s₁, id, g f, hr, hframe, ha', by rw [hid, hfid], hc f hfc⟩

end Placed

/-- What every whole operation does. -/
def Moved (s s' : TaskFiles) : Prop := s'.Consistent ∧ Frame s s'

theorem Moved.refl {s : TaskFiles} (h : s.Consistent) : Moved s s := ⟨h, Frame.refl s⟩

theorem Placed.moved {s s' : TaskFiles} {file : ℕ} (h : Placed s s' file) : Moved s s' := ⟨h.consistent, h.frame⟩

/-- An entry and its bit leave together. -/
theorem Consistent.release {s : TaskFiles} (h : s.Consistent) {i a : ℕ} (ha : s.Has i a) {t : AvlHeader}
    (ht : AvlHeader.Unregistered i s.infoFiles.firstFile t) :
    Moved s ⟨Function.update s.heap a none,
      { s.infoFiles with firstFile := t, fdBitmap := BitArray.set s.infoFiles.fdBitmap i false }⟩ ∧
    ∀ j, Opened ⟨Function.update s.heap a none,
      { s.infoFiles with firstFile := t, fdBitmap := BitArray.set s.infoFiles.fdBitmap i false }⟩ j ↔
        s.Opened j ∧ j ≠ i := by
  obtain ⟨hk, hframe, hopened⟩ := h.kept.remove ⟨Function.update s.heap a none,
    { s.infoFiles with firstFile := t, fdBitmap := BitArray.set s.infoFiles.fdBitmap i false }⟩ ha rfl ht
  refine ⟨⟨⟨h.limited, hk, fun j hj => ?_⟩, hframe⟩, hopened⟩
  rw [hopened, BitArray.get_set]
  by_cases he : j = i
  · simp [he]
  · rw [if_neg he, h.marks j hj]
    exact ⟨fun hx => ⟨hx, he⟩, And.left⟩

section Operations
variable {s : TaskFiles} (alloc : Allocator)

theorem Reserved.fsRegisterNode {s₁ : TaskFiles} {id : ℕ} (h : s₁.Reserved id) (hframe : Frame s s₁) :
    Exec.Meets NotHalted (fun r => Placed s r.2 r.1) (s₁.fsRegisterNode alloc id) := by
  refine (h.kept.fsRegisterNode alloc h.small h.absent).mono fun r hr => ?_
  exact ⟨s₁, id, _, h, hframe, hr, rfl, rfl⟩

/-- The object stands under the lowest descriptor that was free. -/
structure OpenedAt (s s' : TaskFiles) (id file : ℕ) : Prop where
  placed : Placed s s' file
  has : s'.Has id file
  absent : ¬s.Opened id
  lowest : ∀ j < id, s.Opened j
  opened : ∀ i, s'.Opened i ↔ i = id ∨ s.Opened i

theorem OpenedAt.modify {s' : TaskFiles} {id file : ℕ} (h : OpenedAt s s' id file) {g : OpenFile → OpenFile}
    (hid : ∀ f, (g f).id = f.id) (hc : ∀ f : OpenFile, f.closeFlags = 0 → (g f).closeFlags = 0) :
    Exec.Meets NotHalted (fun s'' => OpenedAt s s'' id file) (s'.modify file g) := by
  have hplaced := h.placed.modify hid hc
  unfold TaskFiles.modify at hplaced ⊢
  cases hread : s'.read file with
  | error e =>
    rw [hread] at hplaced
    exact hplaced
  | ok f =>
    rw [hread] at hplaced
    exact ⟨hplaced, h.has, h.absent, h.lowest, h.opened⟩

theorem Consistent.fsOpenTarget (h : s.Consistent) (flags mode : ℕ) :
    Exec.Meets NotHalted (fun r => ∃ id, OpenedAt s r.2 id r.1) (s.fsOpenTarget alloc flags mode) := by
  refine h.fsIdFind.bind ?_
  rintro ⟨id, files⟩ ⟨hr, hframe, hsame, hlow⟩
  refine (hr.kept.fsRegisterNode alloc hr.small hr.absent).bind ?_
  rintro ⟨target, s'⟩ ha
  have hat : OpenedAt s s' id target :=
    ⟨⟨_, id, _, hr, hframe, ha, rfl, rfl⟩, (ha.has_iff id target).mpr (.inl ⟨rfl, rfl⟩),
      fun ho => hr.absent ((hsame id).mpr ho), hlow, fun i => by rw [ha.opened_iff, hsame]⟩
  have hfilled : Exec.Meets NotHalted (fun s'' => OpenedAt s s'' id target) (s'.modify target fun f =>
      { f with mode := mode, flags := flags, pointer := 0, tmp1 := 0 }) := hat.modify (fun _ => rfl) fun _ hc => hc
  exact hfilled.bind fun s'' hat' => ⟨id, hat'⟩

theorem Consistent.fsOpenAbort (h : s.Consistent) {i a : ℕ} (ha : s.Has i a) :
    Exec.Meets NotHalted (fun s' => Moved s s' ∧ ∀ j, s'.Opened j ↔ s.Opened j ∧ j ≠ i) (s.fsOpenAbort a) := by
  obtain ⟨hne, f, hf, hid, -⟩ := h.kept.file i a ha
  have hi := h.kept.small i a ha
  obtain ⟨t, ret, hun, ht⟩ := fsUnregisterNode_eq h.kept.ordered h.kept.balanced hne hf hid hi
  have hlimited : Limited { s.infoFiles with firstFile := t } := h.limited
  have hread : (s.withFiles { s.infoFiles with firstFile := t }).read a = .ok f := read_eq hne hf
  simp only [TaskFiles.fsOpenAbort, hun, Exec.ok_bind, hread, hid, intToSize_of_lt hi,
    withFiles_infoFiles, TaskInfoFiles.fsIdRemove, hlimited.bitmapGenericSet hi]
  exact h.release ha ht

section OpenedAt
variable {s' : TaskFiles} {id target : ℕ}

theorem OpenedAt.fsOpenMount (hp : OpenedAt s s' id target) (flags mountPoint : ℕ) :
    Exec.Meets NotHalted (fun s'' => OpenedAt s s'' id target) (s'.fsOpenMount flags target mountPoint) :=
  hp.modify (fun _ => rfl) fun _ hc => hc

/-- An open that fails leaves the descriptors as they were. -/
theorem OpenedAt.fsOpenAbort (hp : OpenedAt s s' id target) :
    Exec.Meets NotHalted (fun s'' => Moved s s'' ∧ ∀ i, s''.Opened i ↔ s.Opened i) (s'.fsOpenAbort target) := by
  refine (hp.placed.consistent.fsOpenAbort hp.has).mono fun s'' hm => ?_
  refine ⟨⟨hm.1.1, hp.placed.frame.trans hm.1.2⟩, fun i => ?_⟩
  rw [hm.2, hp.opened]
  constructor
  · rintro ⟨hi | hi, hne⟩
    · exact absurd hi hne
    · exact hi
  · exact fun hi => ⟨.inr hi, fun he => hp.absent (he ▸ hi)⟩

/-- What was open before the last try was open before the first. -/
theorem OpenedAt.trans {t : TaskFiles} (hm : Moved s t) (hopened : ∀ i, t.Opened i ↔ s.Opened i)
    (hp : OpenedAt t s' id target) : OpenedAt s s' id target := by
  obtain ⟨s₁, i, f, hr, hframe, ha⟩ := hp.placed
  refine ⟨⟨s₁, i, f, hr, hm.2.trans hframe, ha⟩, hp.has, fun hi => hp.absent ((hopened id).mpr hi),
    fun j hj => (hopened j).mp (hp.lowest j hj), fun j => ?_⟩
  rw [hp.opened, hopened]

end OpenedAt

/-- `fsOpenGeneric` opens the lowest free descriptor, or returns null or an error. -/
def OpenResult (s : TaskFiles) (r : ℕ × TaskFiles) : Prop :=
  Moved s r.2 ∧ ((∃ id, OpenedAt s r.2 id r.1) ∨
    (r.1 = 0 ∨ retIsErr r.1 = true) ∧ ∀ i, r.2.Opened i ↔ s.Opened i)

theorem retIsErr_errorValue (e : Fin 4095) : retIsErr (errorValue e) = true := by
  have he := e.isLt
  unfold retIsErr errorValue wrap
  rw [decide_eq_true_eq]
  omega

theorem Consistent.fsOpenGeneric (h : s.Consistent) (flags mode : ℕ) (answer : OpenAnswer) :
    Exec.Meets NotHalted (OpenResult s) (fsOpenGeneric alloc flags mode answer s) := by
  induction answer generalizing s with
  | noMountPoint =>
    refine (h.fsOpenTarget alloc flags mode).bind ?_
    rintro ⟨target, s'⟩ ⟨id, hp⟩
    exact hp.fsOpenAbort.bind fun s'' hm => ⟨hm.1, .inr ⟨.inl rfl, hm.2⟩⟩
  | opened mountPoint =>
    refine (h.fsOpenTarget alloc flags mode).bind ?_
    rintro ⟨target, s'⟩ ⟨id, hp⟩
    exact (hp.fsOpenMount flags mountPoint).bind fun s'' hp' => ⟨hp'.placed.moved, .inl ⟨id, hp'⟩⟩
  | failed mountPoint ret =>
    refine (h.fsOpenTarget alloc flags mode).bind ?_
    rintro ⟨target, s'⟩ ⟨id, hp⟩
    refine (hp.fsOpenMount flags mountPoint).bind fun s'' hp' => hp'.fsOpenAbort.bind fun s'' hm => ?_
    exact ⟨hm.1, .inr ⟨.inr (retIsErr_errorValue ret), hm.2⟩⟩
  | symlink mountPoint resolved ih =>
    refine (h.fsOpenTarget alloc flags mode).bind ?_
    rintro ⟨target, s'⟩ ⟨id, hp⟩
    refine (hp.fsOpenMount flags mountPoint).bind fun s'' hp' => hp'.fsOpenAbort.bind fun t hm => ?_
    refine (ih hm.1.1).mono fun r hr => ⟨⟨hr.1.1, hm.1.2.trans hr.1.2⟩, ?_⟩
    rcases hr.2 with ⟨id', hat⟩ | ⟨herr, hsame⟩
    · exact .inl ⟨id', hat.trans hm.1 hm.2⟩
    · exact .inr ⟨herr, fun i => (hsame i).trans (hm.2 i)⟩

/-- Closing frees the object, and the bit unless the file retains it. -/
theorem fsCloseGeneric_eq (hl : Limited s.infoFiles) (ho : s.infoFiles.firstFile.Ordered)
    (hb : AvlHeader.Balanced s.infoFiles.firstFile) {a i : ℕ} {f : OpenFile} (ha : a ≠ 0) (hf : s.heap a = some f)
    (hid : f.id = i) (hi : i < fdLimit) (closed : Bool) :
    ∃ t, AvlHeader.Unregistered i s.infoFiles.firstFile t ∧
      s.fsCloseGeneric a closed = .ok (closed, ⟨Function.update s.heap a none,
        { s.infoFiles with
          firstFile := t
          fdBitmap := if f.closeFlags &&& vfsCloseFlagRetainId = 0 then BitArray.set s.infoFiles.fdBitmap i false
            else s.infoFiles.fdBitmap }⟩) := by
  obtain ⟨t, ret, hun, ht⟩ := fsUnregisterNode_eq ho hb ha hf hid hi
  have hlimited : Limited { s.infoFiles with firstFile := t } := hl
  refine ⟨t, ht, ?_⟩
  have hread : (s.withFiles { s.infoFiles with firstFile := t }).read a = .ok f := read_eq ha hf
  simp only [fsCloseGeneric, hun, Exec.ok_bind, hread, hid, intToSize_of_lt hi,
    withFiles_infoFiles, TaskInfoFiles.fsIdRemove, hlimited.bitmapGenericSet hi]
  split_ifs
  · rfl
  · rfl

theorem Consistent.fsUserClose (h : s.Consistent) (fd : ℤ) (closed : Bool) :
    Exec.Meets NotHalted (fun r => Moved s r.2) (s.fsUserClose fd closed) := by
  rw [TaskFiles.fsUserClose]
  split_ifs with hnode
  · exact Moved.refl h
  · have ha : s.Has (intToSize fd) (s.fsUserGetNode fd) := h.kept.has_avlLookup hnode
    obtain ⟨hne, f, hf, hid, hc⟩ := h.kept.file _ _ ha
    have hi := h.kept.small _ _ ha
    obtain ⟨t, ht, hclose⟩ := fsCloseGeneric_eq h.limited h.kept.ordered h.kept.balanced hne hf hid hi closed
    rw [hclose, Exec.ok_bind, hc, if_pos (Nat.zero_and _)]
    exact (h.release ha ht).1

/-- A duplicate that succeeds is a new entry with a copy of the original. -/
theorem Kept.fsDuplicateAs (hk : s.Kept) {id original : ℕ} {f : OpenFile} (hid : id < fdLimit)
    (habsent : ¬s.Opened id) (hne : original ≠ 0) (hf : s.heap original = some f) (duplicated : Bool) :
    Exec.Meets NotHalted (fun r => r.1 ≠ 0 → Added s r.2 id r.1 { f with id := id })
      (s.fsDuplicateAs alloc original id duplicated) := by
  refine (hk.fsRegisterNode alloc hid habsent).bind ?_
  rintro ⟨orphan, s'⟩ ha
  dsimp only at ha ⊢
  have hother : original ≠ orphan := fun he => by
    rw [he, ha.fresh] at hf
    cases hf
  have hread : s'.read original = .ok f := read_eq hne (by rw [ha.heap, Function.update_of_ne hother, hf])
  obtain ⟨s'', hmodify, ha'⟩ := ha.modify fun o => { f with id := o.id }
  rw [hread, Exec.ok_bind, hmodify, Exec.ok_bind]
  cases duplicated with
  | false => exact fun h => absurd rfl h
  | true => exact fun _ => ha'

theorem fsUserDuplicateNode_of_lt {original suggid : ℕ} {duplicated : Bool} (h : suggid < fdLimit) :
    s.fsUserDuplicateNode alloc original suggid duplicated = s.fsDuplicateAs alloc original suggid duplicated := by
  have hne : suggid ≠ noId := by
    unfold fdLimit at h
    unfold noId
    omega
  rw [fsUserDuplicateNode, if_neg hne]
  rfl

/-- A reserved descriptor receives a copy of an object of the table. -/
theorem Reserved.fsDuplicateAs {s₁ : TaskFiles} {id original : ℕ} {f : OpenFile} (h : s₁.Reserved id)
    (hframe : Frame s s₁) (hne : original ≠ 0) (hf : s₁.heap original = some f) (hc : f.closeFlags = 0)
    (duplicated : Bool) :
    Exec.Meets NotHalted (fun r => r.1 ≠ 0 → Placed s r.2 r.1) (s₁.fsDuplicateAs alloc original id duplicated) :=
  (h.kept.fsDuplicateAs alloc h.small h.absent hne hf duplicated).mono fun _ hr hr0 =>
    ⟨s₁, id, _, h, hframe, hr hr0, rfl, hc⟩

/-- The flag that `dup` and `dup2` clear. -/
theorem Placed.clearCloseOnExec {s' : TaskFiles} {file : ℕ} (hp : Placed s s' file) :
    Exec.Meets NotHalted (fun s'' => Placed s s'' file)
      (s'.modify file fun f => { f with closeOnExec := false }) :=
  hp.modify (fun _ => rfl) fun _ hc => hc

theorem Consistent.syscallDup (h : s.Consistent) (fd : BitVec 32) (duplicated : Bool) :
    Exec.Meets NotHalted (fun r => Moved s r.2) (s.syscallDup alloc fd duplicated) := by
  rw [TaskFiles.syscallDup]
  split_ifs with hnode
  · exact Moved.refl h
  · obtain ⟨-, f, hf, -, hc⟩ := h.kept.file _ _ (h.kept.has_avlLookup hnode)
    have hdup : Exec.Meets NotHalted (fun r => r.1 ≠ 0 → Placed s r.2 r.1)
        (s.fsUserDuplicateNode alloc (s.fsUserGetNode fd.toInt) noId duplicated) := by
      rw [fsUserDuplicateNode, if_pos rfl]
      refine h.fsIdFind.bind ?_
      rintro ⟨id, files⟩ ⟨hr, hframe, -⟩
      exact hr.fsDuplicateAs alloc hframe hnode hf hc duplicated
    refine hdup.bind ?_
    rintro ⟨orphan, s'⟩ hp
    by_cases hzero : orphan = 0
    · -- the null pointer that a failed duplication returns is written through
      subst hzero
      exact Stop.noConfusion
    · refine (hp hzero).clearCloseOnExec.bind fun s'' hp' => ?_
      obtain ⟨id, hid⟩ := hp'.has
      obtain ⟨hne, g, hg, -⟩ := hp'.consistent.kept.file _ _ hid
      rw [read_eq hne hg, Exec.ok_bind]
      exact hp'.moved

/-- A file that retains its bit is closed: its descriptor stays reserved. -/
theorem Consistent.retain (h : s.Consistent) {i a : ℕ} (ha : s.Has i a) {t : AvlHeader}
    (ht : AvlHeader.Unregistered i s.infoFiles.firstFile t) :
    TaskFiles.Reserved ⟨Function.update s.heap a none, { s.infoFiles with firstFile := t }⟩ i ∧
      Frame s ⟨Function.update s.heap a none, { s.infoFiles with firstFile := t }⟩ ∧
      ∀ j b, j ≠ i → s.Has j b → Function.update s.heap a none b = s.heap b := by
  obtain ⟨hk, hframe, hopened⟩ := h.kept.remove ⟨Function.update s.heap a none,
    { s.infoFiles with firstFile := t }⟩ ha rfl ht
  have hi := h.kept.small i a ha
  refine ⟨⟨h.limited, hk, hi, fun ho => ((hopened i).mp ho).2 rfl, fun j hj => ?_⟩, hframe, fun j b hj hb => ?_⟩
  · beta_reduce
    rw [hopened]
    by_cases he : j = i
    · simp only [he, ne_eq, not_true_eq_false, and_false, or_true, iff_true]
      exact (h.marks i hi).mpr ⟨a, ha⟩
    · simp only [he, ne_eq, not_false_eq_true, and_true, or_false]
      exact h.marks j hj
  · have hba : b ≠ a := fun he => hj (h.kept.key_unique (he ▸ hb) ha)
    exact Function.update_of_ne hba _ _

/-- A descriptor below the limit is the same number as an `int`. -/
theorem toInt_of_lt {fd : BitVec 32} (h : fd.toNat < fdLimit) : fd.toInt = fd.toNat := by
  unfold fdLimit at h
  rw [BitVec.toInt_eq_toNat_cond, if_pos (by omega)]

theorem intToSize_toInt {fd : BitVec 32} (h : intToSize fd.toInt < fdLimit) : intToSize fd.toInt = fd.toNat := by
  have hlt := fd.isLt
  rw [BitVec.toInt_eq_toNat_cond] at *
  unfold intToSize fdLimit at *
  split_ifs at * <;> omega

/-- The descriptor that `dup2` names is reserved, also where it was open before. -/
theorem Consistent.syscallDup2Reserve (h : s.Consistent) {newFd : BitVec 32} (hnew : newFd.toNat < fdLimit)
    (closed : Bool) :
    Exec.Meets NotHalted (fun s₁ => s₁.Reserved newFd.toNat ∧ Frame s s₁ ∧
      ∀ i a, i ≠ newFd.toNat → s.Has i a → s₁.heap a = s.heap a) (s.syscallDup2Reserve newFd closed) := by
  rw [TaskFiles.syscallDup2Reserve]
  split_ifs with hnode
  · rw [h.limited.bitmapGenericSet hnew, Exec.ok_bind]
    refine ⟨h.reserve hnew ?_, Frame.refl s, fun _ _ _ _ => rfl⟩
    rintro ⟨a, ha⟩
    exact (h.kept.file _ a ha).1 ((h.kept.avlLookup ha).symm.trans hnode)
  · have ha := h.kept.has_avlLookup hnode
    generalize AvlHeader.avlLookup s.infoFiles.firstFile newFd.toNat = browse at hnode ha ⊢
    obtain ⟨-, f, hf, hid, hc⟩ := h.kept.file _ browse ha
    -- the flag that makes the close keep the bit
    let s' := s.write browse { f with closeFlags := f.closeFlags ||| vfsCloseFlagRetainId }
    have hnode' : s'.fsUserGetNode newFd.toInt = browse := by
      rw [toInt_of_lt hnew, fsUserGetNode, intToSize_of_lt hnew]
      exact h.kept.avlLookup ha
    have hf' : s'.heap browse = some { f with closeFlags := f.closeFlags ||| vfsCloseFlagRetainId } :=
      Function.update_self ..
    obtain ⟨t, ht, hclose⟩ := fsCloseGeneric_eq (s := s') h.limited h.kept.ordered h.kept.balanced hnode hf' hid hnew
      closed
    have hflag : ¬(f.closeFlags ||| vfsCloseFlagRetainId) &&& vfsCloseFlagRetainId = 0 := by
      rw [hc]
      decide
    rw [if_neg hflag, write_heap, Function.update_idem] at hclose
    have hmodify : (s.modify browse fun f => { f with closeFlags := f.closeFlags ||| vfsCloseFlagRetainId }) = .ok s' := by
      rw [modify, read_eq hnode hf, Exec.ok_bind]
    rw [hmodify, Exec.ok_bind, TaskFiles.fsUserClose, hnode', if_neg hnode, hclose, Exec.ok_bind, Exec.ok_bind]
    cases closed with
    | false => exact Stop.noConfusion
    | true => exact h.retain ha ht

theorem Consistent.syscallDup2 (h : s.Consistent) {oldFd newFd : BitVec 32}
    (hnew : s.fsUserGetNode oldFd.toInt ≠ 0 → oldFd ≠ newFd → newFd.toNat < fdLimit) (closed duplicated : Bool) :
    Exec.Meets NotHalted (fun r => Moved s r.2) (s.syscallDup2 alloc oldFd newFd closed duplicated) := by
  rw [TaskFiles.syscallDup2]
  split_ifs with hnode hsame
  · exact Moved.refl h
  · exact Moved.refl h
  · have hnew := hnew hnode hsame
    have ha : s.Has _ (s.fsUserGetNode oldFd.toInt) := h.kept.has_avlLookup hnode
    obtain ⟨-, f, hf, hid, hc⟩ := h.kept.file _ _ ha
    have hother : intToSize oldFd.toInt ≠ newFd.toNat := by
      rw [intToSize_toInt (h.kept.small _ _ ha)]
      exact fun he => hsame (BitVec.eq_of_toNat_eq he)
    refine (h.syscallDup2Reserve hnew closed).bind ?_
    rintro s₁ ⟨hr, hframe, hheap⟩
    dsimp only
    rw [fsUserDuplicateNode_of_lt alloc hnew]
    have hf₁ := (hheap _ _ hother ha).trans hf
    refine (hr.fsDuplicateAs alloc hframe hnode hf₁ hc duplicated).bind ?_
    rintro ⟨orphan, s'⟩ hp
    dsimp only
    split_ifs with hzero
    · exact Stop.noConfusion
    · exact (hp hzero).clearCloseOnExec.bind fun s'' hp' => hp'.moved

end Operations

/-! ### Copies of a table -/

section Copies
variable {s : TaskFiles} (alloc : Allocator) (respectCoe : Bool) (duplicated : ℕ → Bool)

/-- The object is copied. -/
def Inherits (respectCoe : Bool) (f : OpenFile) : Prop := respectCoe = false ∨ f.closeOnExec = false

/-- The objects of the tree are those of another table. -/
structure Foreign (s : TaskFiles) (t : AvlHeader) : Prop where
  small : ∀ i a, t.Has i a → i < fdLimit
  file : ∀ i a, t.Has i a → a ≠ 0 ∧ ∃ f, s.heap a = some f ∧ f.id = i ∧ f.closeFlags = 0
  apart : ∀ i a, t.Has i a → ∀ j, ¬s.Has j a

theorem Foreign.frame {s s' : TaskFiles} {t : AvlHeader} (h : Foreign s t) (hframe : Frame s s') : Foreign s' t := by
  refine ⟨h.small, fun i a ha => ?_, fun i a ha => ?_⟩
  · obtain ⟨hne, f, hf, hrest⟩ := h.file i a ha
    exact ⟨hne, f, (hframe a f hf (h.apart i a ha)).1, hrest⟩
  · obtain ⟨-, f, hf, -⟩ := h.file i a ha
    exact (hframe a f hf (h.apart i a ha)).2

theorem Foreign.sub {s : TaskFiles} {t u : AvlHeader} (h : Foreign s t) (hsub : ∀ i a, u.Has i a → t.Has i a) :
    Foreign s u :=
  ⟨fun i a ha => h.small i a (hsub i a ha), fun i a ha => h.file i a (hsub i a ha),
    fun i a ha => h.apart i a (hsub i a ha)⟩

/-- The descriptors of the tree whose files are copied. -/
def Copied (respectCoe : Bool) (heap : Heap) (t : AvlHeader) (i : ℕ) : Prop :=
  ∃ a f, t.Has i a ∧ heap a = some f ∧ Inherits respectCoe f

/-- A copy keeps the bits of the target and adds the copied descriptors. -/
structure CopyOf (respectCoe : Bool) (t : AvlHeader) (s s' : TaskFiles) : Prop where
  kept : s'.Kept
  files : ∃ u, s'.infoFiles = { s.infoFiles with firstFile := u }
  frame : Frame s s'
  opened : ∀ i, s'.Opened i ↔ s.Opened i ∨ Copied respectCoe s.heap t i

theorem Foreign.copied_congr {s s' : TaskFiles} {t : AvlHeader} (h : Foreign s t) (hframe : Frame s s') (i : ℕ) :
    Copied respectCoe s'.heap t i ↔ Copied respectCoe s.heap t i := by
  unfold Copied
  refine exists_congr fun a => exists_congr fun f => and_congr_right fun ha => and_congr_left fun _ => ?_
  obtain ⟨-, g, hg, -⟩ := h.file i a ha
  rw [hg, (hframe a g hg (h.apart i a ha)).1]

theorem Kept.taskFileCopy (hk : s.Kept) {k file : ℕ} {t : AvlHeader} (hf : Foreign s t) (hfile : t.Has k file)
    (habsent : (∃ f, s.heap file = some f ∧ Inherits respectCoe f) → ¬s.Opened k) :
    Exec.Meets NotHalted (fun s' => s'.Kept ∧ (∃ u, s'.infoFiles = { s.infoFiles with firstFile := u }) ∧ Frame s s' ∧
      ∀ i, s'.Opened i ↔ s.Opened i ∨ (i = k ∧ ∃ f, s.heap file = some f ∧ Inherits respectCoe f))
      (s.taskFileCopy alloc respectCoe duplicated file) := by
  obtain ⟨hne, f, hread, hid, hc⟩ := hf.file k file hfile
  have hsmall := hf.small k file hfile
  rw [TaskFiles.taskFileCopy, read_eq hne hread, Exec.ok_bind, hid, intToSize_of_lt hsmall,
    fsUserDuplicateNode_of_lt alloc hsmall]
  by_cases hinherits : Inherits respectCoe f
  · have hcond : (!respectCoe || !f.closeOnExec) = true := by
      rcases hinherits with h | h <;> simp [h]
    rw [if_pos hcond]
    refine (hk.fsDuplicateAs alloc hsmall (habsent ⟨f, hread, hinherits⟩) hne hread (duplicated file)).bind ?_
    rintro ⟨orphan, s'⟩ ha
    dsimp only at ha ⊢
    split_ifs with hzero
    · exact Stop.noConfusion
    · have ha := ha hzero
      obtain ⟨u, hu, -⟩ := ha.files
      refine ⟨ha.kept hk hsmall rfl hc, ⟨u, hu⟩, ha.frame, fun i => ?_⟩
      rw [ha.opened_iff]
      constructor
      · rintro (hi | hi)
        · exact .inr ⟨hi, f, hread, hinherits⟩
        · exact .inl hi
      · rintro (hi | ⟨hi, -⟩)
        · exact .inr hi
        · exact .inl hi
  · have hcond : ¬(!respectCoe || !f.closeOnExec) = true := by
      intro h
      apply hinherits
      simpa [Inherits] using h
    rw [if_neg hcond]
    refine ⟨hk, ⟨_, rfl⟩, Frame.refl s, fun i => ⟨.inl, ?_⟩⟩
    rintro (hi | ⟨-, g, hg, hg'⟩)
    · exact hi
    · rw [hread] at hg
      cases hg
      exact absurd hg' hinherits

theorem copied_node_iff (heap : Heap) (k : ℕ) (l r : AvlHeader) (h : ℤ) (v i : ℕ) :
    Copied respectCoe heap (.node k l r h v) i ↔ Copied respectCoe heap l i ∨
      (i = k ∧ ∃ f, heap v = some f ∧ Inherits respectCoe f) ∨ Copied respectCoe heap r i := by
  simp only [Copied, SearchTree.has_node]
  grind

/-- The tree is walked in order; keys of the walked part are smaller than those to
come, so no descriptor is added twice. -/
theorem Kept.taskFilesCopyInorder (hk : s.Kept) {t : AvlHeader} (ht : t.Ordered) (hf : Foreign s t)
    (habsent : ∀ i, Copied respectCoe s.heap t i → ¬s.Opened i) :
    Exec.Meets NotHalted (CopyOf respectCoe t s) (taskFilesCopyInorder alloc respectCoe duplicated t s) := by
  induction t generalizing s with
  | nil =>
    refine ⟨hk, ⟨_, rfl⟩, Frame.refl s, fun i => ⟨.inl, ?_⟩⟩
    rintro (hi | ⟨a, f, ha, -⟩)
    · exact hi
    · exact ha.elim
  | node k l r h v ihl ihr =>
    obtain ⟨hol, hor, hlk, hkr⟩ := ht
    have hfl : Foreign s l := hf.sub fun i a ha => .inr (.inl ha)
    have hfr : Foreign s r := hf.sub fun i a ha => .inr (.inr ha)
    have hnode := copied_node_iff respectCoe s.heap k l r h v
    refine (ihl hk hol hfl fun i hi => habsent i ((hnode i).mpr (.inl hi))).bind fun s₁ h₁ => ?_
    have hv : s₁.heap v = s.heap v := by
      obtain ⟨-, f, hfv, -⟩ := hf.file k v (.inl ⟨rfl, rfl⟩)
      rw [hfv]
      exact (h₁.frame v f hfv (hf.apart k v (.inl ⟨rfl, rfl⟩))).1
    have habsent₁ : (∃ f, s₁.heap v = some f ∧ Inherits respectCoe f) → ¬s₁.Opened k := by
      rw [hv, h₁.opened]
      rintro hcopied (hi | ⟨a, f, ha, -⟩)
      · exact habsent k ((hnode k).mpr (.inr (.inl ⟨rfl, hcopied⟩))) hi
      · exact lt_irrefl k (hlk k a ha)
    refine (h₁.kept.taskFileCopy alloc respectCoe duplicated (hf.frame h₁.frame) (.inl ⟨rfl, rfl⟩) habsent₁).bind ?_
    rintro s₂ ⟨hk₂, ⟨u₂, hu₂⟩, hframe₂, hopened₂⟩
    have hframe := h₁.frame.trans hframe₂
    have habsent₂ : ∀ i, Copied respectCoe s₂.heap r i → ¬s₂.Opened i := by
      intro i hcopied
      rw [hfr.copied_congr respectCoe hframe] at hcopied
      obtain ⟨a, -, ha, -⟩ := id hcopied
      have hki := hkr i a ha
      rw [hopened₂, h₁.opened]
      rintro ((hi | ⟨b, f, hb, -⟩) | ⟨hi, -⟩)
      · exact habsent i ((hnode i).mpr (.inr (.inr hcopied))) hi
      · exact lt_asymm hki (hlk i b hb)
      · exact hki.ne' hi
    refine (ihr hk₂ hor (hfr.frame hframe) habsent₂).mono fun s₃ h₃ => ?_
    obtain ⟨u₁, hu₁⟩ := h₁.files
    obtain ⟨u₃, hu₃⟩ := h₃.files
    refine ⟨h₃.kept, ⟨u₃, by rw [hu₃, hu₂, hu₁]⟩, hframe.trans h₃.frame, fun i => ?_⟩
    rw [h₃.opened, hopened₂, h₁.opened, hfr.copied_congr respectCoe hframe, hv, hnode, or_assoc, or_assoc]

theorem Kept.absent_of_taskFileCopy (hk : s.Kept) {k file : ℕ} {t : AvlHeader} (hf : Foreign s t)
    (hfile : t.Has k file) (hcopied : ∃ f, s.heap file = some f ∧ Inherits respectCoe f) {s' : TaskFiles}
    (hs' : s.taskFileCopy alloc respectCoe duplicated file = .ok s') : ¬s.Opened k := by
  rintro ⟨a, ha⟩
  obtain ⟨f, hread, hinherits⟩ := hcopied
  obtain ⟨hne, f', hread', hid, -⟩ := hf.file k file hfile
  rw [hread] at hread'
  cases hread'
  have hsmall := hf.small k file hfile
  have hcond : (!respectCoe || !f.closeOnExec) = true := by
    rcases hinherits with h | h <;> simp [h]
  rw [TaskFiles.taskFileCopy, read_eq hne hread, Exec.ok_bind, if_pos hcond, hid, intToSize_of_lt hsmall,
    fsUserDuplicateNode_of_lt alloc hsmall, TaskFiles.fsDuplicateAs, TaskFiles.fsRegisterNode] at hs'
  cases hplace : alloc.place s.heap with
  | none =>
    rw [hplace] at hs'
    cases hs'
  | some place =>
    rw [hplace] at hs'
    dsimp only at hs'
    rw [AvlHeader.avlAllocate, AvlHeader.avlAllocateL_present place hk.ordered ha] at hs'
    cases hs'

/-- A copy that ends found none of its descriptors in the target. -/
theorem Kept.absent_of_copied (hk : s.Kept) {t : AvlHeader} (ht : t.Ordered) (hf : Foreign s t) {s' : TaskFiles}
    (hs' : TaskFiles.taskFilesCopyInorder alloc respectCoe duplicated t s = .ok s') :
    ∀ i, Copied respectCoe s.heap t i → ¬s.Opened i := by
  induction t generalizing s s' with
  | nil =>
    rintro i ⟨a, f, ha, -⟩
    exact ha.elim
  | node k l r h v ihl ihr =>
    obtain ⟨hol, hor, hlk, hkr⟩ := id ht
    have hfl : Foreign s l := hf.sub fun i a ha => .inr (.inl ha)
    have hfr : Foreign s r := hf.sub fun i a ha => .inr (.inr ha)
    simp only [TaskFiles.taskFilesCopyInorder, Exec.bind_ok_iff] at hs'
    obtain ⟨s₁, hl, s₂, hv, hr⟩ := hs'
    have habsent := ihl hk hol hfl hl
    have h₁ := hk.taskFilesCopyInorder alloc respectCoe duplicated hol hfl habsent
    rw [hl] at h₁
    have hheap : s₁.heap v = s.heap v := by
      obtain ⟨-, f, hfv, -⟩ := hf.file k v (.inl ⟨rfl, rfl⟩)
      rw [hfv]
      exact (h₁.frame v f hfv (hf.apart k v (.inl ⟨rfl, rfl⟩))).1
    have hf₁ := hf.frame h₁.frame
    have habsent₁ : (∃ f, s₁.heap v = some f ∧ Inherits respectCoe f) → ¬s₁.Opened k := fun hcopied =>
      h₁.kept.absent_of_taskFileCopy alloc respectCoe duplicated hf₁ (.inl ⟨rfl, rfl⟩) hcopied hv
    have h₂ := h₁.kept.taskFileCopy alloc respectCoe duplicated hf₁ (.inl ⟨rfl, rfl⟩) habsent₁
    rw [hv] at h₂
    obtain ⟨hk₂, -, hframe₂, hopened₂⟩ := h₂
    have hframe := h₁.frame.trans hframe₂
    have habsent₂ := ihr hk₂ hor (hfr.frame hframe) hr
    intro i hi ho
    rw [copied_node_iff] at hi
    have ho₁ : s₁.Opened i := (h₁.opened i).mpr (.inl ho)
    rcases hi with hi | ⟨rfl, hi⟩ | hi
    · exact habsent i hi ho
    · exact habsent₁ (hheap ▸ hi) ho₁
    · exact habsent₂ i ((hfr.copied_congr respectCoe hframe i).mpr hi) ((hopened₂ i).mpr (.inl ho₁))

/-- The copy of a table onto another one. It holds the bits of all descriptors of the
original, its own descriptors and those of the files that are copied. -/
theorem Consistent.taskFilesCopyInto (h : s.Consistent) {target : TaskFiles} (hk : target.Kept)
    (hf : Foreign target s.infoFiles.firstFile)
    (habsent : ∀ i, Copied respectCoe target.heap s.infoFiles.firstFile i → ¬target.Opened i) :
    Exec.Meets NotHalted (fun s' => s'.Kept ∧ Limited s'.infoFiles ∧ s'.Marks s.Opened ∧
      (∀ i, s'.Opened i ↔ target.Opened i ∨ Copied respectCoe target.heap s.infoFiles.firstFile i) ∧ Frame target s')
      (taskFilesCopyInto alloc respectCoe duplicated s.infoFiles target) := by
  have hk' : (target.withFiles { target.infoFiles with
      rlimitFdsHard := s.infoFiles.rlimitFdsHard
      rlimitFdsSoft := s.infoFiles.rlimitFdsSoft
      fdBitmap := s.infoFiles.fdBitmap }).Kept := ⟨hk.ordered, hk.balanced, hk.small, hk.file⟩
  refine (hk'.taskFilesCopyInorder alloc respectCoe duplicated h.kept.ordered
    ⟨hf.small, hf.file, hf.apart⟩ habsent).mono fun s' hs' => ?_
  obtain ⟨u, hu⟩ := hs'.files
  refine ⟨hs'.kept, by rw [hu]; exact h.limited, fun i hi => ?_, hs'.opened, hs'.frame⟩
  rw [hu]
  exact h.marks i hi

/-- A table that was just allocated. -/
theorem consistent_allocated (heap : Heap) :
    Consistent ⟨heap, taskInfoFilesAllocate⟩ ∧ ∀ i, ¬Opened ⟨heap, taskInfoFilesAllocate⟩ i := by
  refine ⟨⟨⟨rfl, rfl⟩, ⟨trivial, trivial, fun _ _ ha => ha.elim, fun _ _ ha => ha.elim⟩, fun i _ => ?_⟩,
    fun i ⟨_, ha⟩ => ha.elim⟩
  have hbit : BitArray.get taskInfoFilesAllocate.fdBitmap i = false := by
    rw [BitArray.get_eq]
    exact BitVec.getLsbD_zero
  rw [hbit]
  exact ⟨fun h => absurd h Bool.false_ne_true, fun ⟨_, ha⟩ => ha.elim⟩

/-- The files of a table, seen from a new table. -/
theorem Kept.foreign (h : s.Kept) {t : TaskFiles} (hm : Frame ⟨s.heap, taskInfoFilesAllocate⟩ t) :
    Foreign t s.infoFiles.firstFile := by
  have hframe : Foreign ⟨s.heap, taskInfoFilesAllocate⟩ s.infoFiles.firstFile :=
    ⟨h.small, h.file, fun _ _ _ _ ha => ha.elim⟩
  exact hframe.frame hm

theorem Kept.copied_congr (h : s.Kept) {t : TaskFiles} (hm : Frame ⟨s.heap, taskInfoFilesAllocate⟩ t) (i : ℕ) :
    Copied respectCoe t.heap s.infoFiles.firstFile i ↔ Copied respectCoe s.heap s.infoFiles.firstFile i :=
  (h.foreign (Frame.refl _)).copied_congr respectCoe hm i

/-- A fork copies every file. -/
theorem Consistent.copied_iff (h : s.Consistent) (i : ℕ) :
    Copied false s.heap s.infoFiles.firstFile i ↔ s.Opened i := by
  constructor
  · rintro ⟨a, f, ha, -⟩
    exact ⟨a, ha⟩
  · rintro ⟨a, ha⟩
    obtain ⟨-, f, hf, -⟩ := h.kept.file i a ha
    exact ⟨a, f, ha, hf, .inl rfl⟩

end Copies

end TaskFiles

/-! ### The files of the loader -/

namespace TaskFiles

theorem wrapInt_neg_of_retIsErr {ret : ℕ} (h : retIsErr ret = true) : wrapInt ret < 0 := by
  unfold retIsErr wrap at h
  rw [decide_eq_true_eq] at h
  unfold wrapInt
  rw [Int.bmod_def]
  split_ifs <;> omega

section Loader
variable {s : TaskFiles} (alloc : Allocator)

/-- Where the descriptors below `n` are open, the next one is opened or the call fails. -/
theorem Consistent.fsUserOpen (h : s.Consistent) {n : ℕ} (hn : ∀ i, s.Opened i ↔ i < n) {flags : ℕ}
    (hflags : flags &&& fasync = 0) (mode : ℕ) (answer : OpenAnswer) :
    Exec.Meets NotHalted (fun r => Moved s r.2 ∧ ((wrapInt r.1 < 0 ∧ ∃ m, ∀ i, r.2.Opened i ↔ i < m) ∨
      (r.1 = n ∧ n < fdLimit ∧ ∀ i, r.2.Opened i ↔ i < n + 1))) (s.fsUserOpen alloc flags mode answer) := by
  rw [TaskFiles.fsUserOpen, if_neg (not_not.mpr hflags)]
  refine (h.fsOpenGeneric alloc flags mode answer).bind ?_
  rintro ⟨file, s'⟩ ⟨hm, hres⟩
  dsimp only at hm hres ⊢
  have hnext : ∀ {id}, OpenedAt s s' id file → id = n ∧ ∀ i, s'.Opened i ↔ i < n + 1 := by
    intro id hat
    have hid : id = n := by
      have h₁ : ¬id < n := fun hlt => hat.absent ((hn id).mpr hlt)
      have h₂ : ¬n < id := fun hlt => lt_irrefl n ((hn n).mp (hat.lowest n hlt))
      omega
    refine ⟨hid, fun i => ?_⟩
    rw [hat.opened, hn, hid]
    omega
  split_ifs with herr
  · refine ⟨hm, .inl ⟨wrapInt_neg_of_retIsErr herr, ?_⟩⟩
    rcases hres with ⟨id, hat⟩ | ⟨-, hsame⟩
    · exact ⟨n + 1, (hnext hat).2⟩
    · exact ⟨n, fun i => (hsame i).trans (hn i)⟩
  · rcases hres with ⟨id, hat⟩ | ⟨hnull | herr', hsame⟩
    · obtain ⟨hid, hopened⟩ := hnext hat
      obtain ⟨hne, f, hf, hfid, -⟩ := hm.1.kept.file id file hat.has
      have hlt := hm.1.kept.small id file hat.has
      rw [read_eq hne hf, Exec.ok_bind, hfid, intToSize_of_lt hlt]
      exact ⟨hm, .inr ⟨hid, hid ▸ hlt, hopened⟩⟩
    · subst hnull
      exact Stop.noConfusion
    · exact absurd herr' herr

/-- The number of open descriptors, where they are the first ones. -/
theorem initial_unique {n m : ℕ} (hn : ∀ i, s.Opened i ↔ i < n) (hm : ∀ i, s.Opened i ↔ i < m) : n = m := by
  have h : ∀ i, i < n ↔ i < m := fun i => (hn i).symm.trans (hm i)
  have hle₁ := (h n).not.mp (lt_irrefl n)
  have hle₂ := (h m).not.mpr (lt_irrefl m)
  omega

/-- An object keeps the descriptor it already carries. -/
theorem Consistent.modify_id (h : s.Consistent) {i : ℕ} (hi : s.Opened i) :
    s.modify (s.fsUserGetNode i) (fun f => { f with id := i }) = .ok s := by
  obtain ⟨a, ha⟩ := hi
  have hlt := h.kept.small i a ha
  obtain ⟨hne, f, hf, hid, -⟩ := h.kept.file i a ha
  have hnode : s.fsUserGetNode i = a := by rw [fsUserGetNode, intToSize_of_lt hlt, h.kept.avlLookup ha]
  have hsame : s.write a { f with id := i } = s := by
    rw [← hid]
    unfold write
    rw [← hf, Function.update_eq_self]
  rw [hnode, modify, read_eq hne hf, Exec.ok_bind, hsame]

theorem Consistent.elfExecuteIds (h : s.Consistent) {stdin stdout stderr : ℤ}
    (hids : ¬(stdin < 0 ∨ stdout < 0 ∨ stderr < 0) →
      stdin = 0 ∧ stdout = 1 ∧ stderr = 2 ∧ ∀ i, s.Opened i ↔ i < 3) :
    Exec.Meets NotHalted (fun t => t = s ∧ ∀ i, s.Opened i ↔ i < 3) (s.elfExecuteIds stdin stdout stderr) := by
  rw [TaskFiles.elfExecuteIds]
  split_ifs with hneg
  · exact Stop.noConfusion
  · obtain ⟨rfl, rfl, rfl, hopened⟩ := hids hneg
    have h₀ := h.modify_id ((hopened 0).mpr (by decide))
    have h₁ := h.modify_id ((hopened 1).mpr (by decide))
    have h₂ := h.modify_id ((hopened 2).mpr (by decide))
    simp only [Nat.cast_zero, Nat.cast_one, Nat.cast_ofNat] at h₀ h₁ h₂
    simp only [h₀, h₁, h₂, Exec.ok_bind]
    exact ⟨rfl, hopened⟩

/-- The loader leaves a table with the descriptors 0, 1 and 2. -/
theorem elfExecuteFiles_meets (heap : Heap) (stdin stdout stderr : OpenAnswer) :
    Exec.Meets NotHalted (fun t => Moved ⟨heap, taskInfoFilesAllocate⟩ t ∧ ∀ i, t.Opened i ↔ i < 3)
      (elfExecuteFiles alloc stdin stdout stderr ⟨heap, taskInfoFilesAllocate⟩) := by
  obtain ⟨h₀, hempty⟩ := consistent_allocated heap
  have hflags : oRdwr &&& fasync = 0 := by decide
  -- the conversions to `int` only matter through what is known of their values
  obtain ⟨int, hint⟩ : ∃ int : ℕ → ℤ, ∀ n : ℕ, wrapInt n = int n := ⟨fun n => wrapInt n, fun _ => rfl⟩
  have hzero : int 0 = 0 := (hint 0).symm.trans (wrapInt_of_lt (by decide))
  have hone : int 1 = 1 := (hint 1).symm.trans (wrapInt_of_lt (by decide))
  have htwo : int 2 = 2 := (hint 2).symm.trans (wrapInt_of_lt (by decide))
  have hopen : ∀ {s : TaskFiles} {n : ℕ}, s.Consistent → (∀ i, s.Opened i ↔ i < n) → ∀ answer,
      Exec.Meets NotHalted (fun r => Moved s r.2 ∧ ((int r.1 < 0 ∧ ∃ m, ∀ i, r.2.Opened i ↔ i < m) ∨
        (r.1 = n ∧ n < fdLimit ∧ ∀ i, r.2.Opened i ↔ i < n + 1))) (s.fsUserOpen alloc oRdwr 0 answer) := by
    intro s n h hn answer
    have hmeets := h.fsUserOpen alloc hn hflags 0 answer
    simp only [hint] at hmeets
    exact hmeets
  rw [elfExecuteFiles]
  simp only [hint]
  clear hint
  refine (hopen h₀ (n := 0) (by simpa using hempty) stdin).bind ?_
  rintro ⟨fd₀, s₁⟩ ⟨hm₁, hr₁⟩
  obtain ⟨n₁, hn₁⟩ : ∃ m, ∀ i, s₁.Opened i ↔ i < m := by
    rcases hr₁ with ⟨-, hm⟩ | ⟨-, -, hm⟩
    · exact hm
    · exact ⟨_, hm⟩
  refine (hopen hm₁.1 hn₁ stdout).bind ?_
  rintro ⟨fd₁, s₂⟩ ⟨hm₂, hr₂⟩
  obtain ⟨n₂, hn₂⟩ : ∃ m, ∀ i, s₂.Opened i ↔ i < m := by
    rcases hr₂ with ⟨-, hm⟩ | ⟨-, -, hm⟩
    · exact hm
    · exact ⟨_, hm⟩
  refine (hopen hm₂.1 hn₂ stderr).bind ?_
  rintro ⟨fd₂, s₃⟩ ⟨hm₃, hr₃⟩
  refine (hm₃.1.elfExecuteIds fun hneg => ?_).mono ?_
  · obtain ⟨rfl, -, hopened₁⟩ := hr₁.resolve_left fun h => hneg (.inl h.1)
    obtain ⟨rfl, -, hopened₂⟩ := hr₂.resolve_left fun h => hneg (.inr (.inl h.1))
    obtain ⟨rfl, -, hopened₃⟩ := hr₃.resolve_left fun h => hneg (.inr (.inr h.1))
    have h₁ : fd₁ = 1 := initial_unique hn₁ hopened₁
    subst h₁
    have h₂ : fd₂ = 2 := initial_unique hn₂ hopened₂
    subst h₂
    exact ⟨hzero, hone, htwo, hopened₃⟩
  · rintro t ⟨rfl, hopened⟩
    exact ⟨⟨hm₃.1, hm₁.2.trans (hm₂.2.trans hm₃.2)⟩, hopened⟩

end Loader

end TaskFiles

/-! ### Runs of the system -/

/-- The files that `execve` leaves out are those under the descriptors of the loader. -/
def TaskFiles.LoaderReplaces (s : TaskFiles) : Prop :=
  (∀ i < 3, s.fsUserGetNode (i : ℕ) ≠ 0) ∧
    ∀ i a f, s.Has i a → s.heap a = some f → (f.closeOnExec = true ↔ i < 3)

/-- A property of the descriptors and files of a tree, read off the tree. -/
def AvlHeader.allFiles (p : ℕ → OpenFile → Bool) (heap : Heap) : AvlHeader → Bool
  | .nil => true
  | .node k l r _ v => (heap v).all (p k) && (allFiles p heap l && allFiles p heap r)

theorem AvlHeader.allFiles_iff (p : ℕ → OpenFile → Bool) (heap : Heap) (t : AvlHeader) :
    allFiles p heap t = true ↔ ∀ i a f, t.Has i a → heap a = some f → p i f = true := by
  induction t with
  | nil => simp [allFiles]
  | node k l r h v ihl ihr =>
    have hroot : (heap v).all (p k) = true ↔ ∀ f, heap v = some f → p k f = true := by
      cases heap v with
      | none => simp
      | some f => simp
    rw [allFiles, Bool.and_eq_true, Bool.and_eq_true, hroot, ihl, ihr]
    constructor
    · rintro ⟨hv, hl, hr⟩ i a f (⟨rfl, rfl⟩ | ha | ha) hf
      · exact hv f hf
      · exact hl i a f ha hf
      · exact hr i a f ha hf
    · intro hall
      exact ⟨fun f hf => hall k v f (.inl ⟨rfl, rfl⟩) hf, fun i a f ha => hall i a f (.inr (.inl ha)),
        fun i a f ha => hall i a f (.inr (.inr ha))⟩

instance TaskFiles.LoaderReplaces.decidable (s : TaskFiles) : Decidable s.LoaderReplaces :=
  have : Decidable (∀ i a f, s.Has i a → s.heap a = some f → (f.closeOnExec = true ↔ i < 3)) :=
    decidable_of_iff
      (AvlHeader.allFiles (fun i f => decide (f.closeOnExec = true ↔ i < 3)) s.heap s.infoFiles.firstFile = true)
      (by simp only [AvlHeader.allFiles_iff, decide_eq_true_eq, TaskFiles.Has])
  inferInstanceAs (Decidable (_ ∧ _))

/-- The condition on a call: `dup2` duplicates to a descriptor that the bitmap has room
for, and the files that are marked close-on-exec when a program is replaced are those
that the loader opens again. -/
def Call.Sound (s : TaskFiles) : Call → Prop
  | .dup2 oldFd newFd _ _ =>
    s.fsUserGetNode oldFd.toInt ≠ 0 → oldFd ≠ newFd → newFd.toNat < s.infoFiles.rlimitFdsHard
  | .execve _ _ _ _ => s.LoaderReplaces
  | _ => True

instance Call.Sound.decidable (s : TaskFiles) : (c : Call) → Decidable (c.Sound s)
  | .dup2 oldFd newFd _ _ => inferInstanceAs (Decidable
      (s.fsUserGetNode oldFd.toInt ≠ 0 → oldFd ≠ newFd → newFd.toNat < s.infoFiles.rlimitFdsHard))
  | .execve _ _ _ _ => inferInstanceAs (Decidable s.LoaderReplaces)
  | .openGeneric _ _ _ | .close _ _ | .dup _ _ | .fork _ => inferInstanceAs (Decidable True)

/-- What a call does to the table of its task. -/
def Outcome.Of (s : TaskFiles) : Outcome → Prop
  | .changed s' => s.Moved s'
  | .copied s' => s'.Consistent ∧ ∀ a f, s.heap a = some f → s'.heap a = some f ∧ ∀ i, ¬s'.Has i a

namespace TaskFiles

section Calls
variable {s : TaskFiles} (alloc : Allocator) (duplicated : ℕ → Bool)

theorem Consistent.fork (h : s.Consistent) :
    Exec.Meets NotHalted (fun s' => (Outcome.copied s').Of s)
      (taskFilesCopy alloc false duplicated s.heap s.infoFiles) := by
  obtain ⟨h₀, hempty⟩ := consistent_allocated s.heap
  refine (h.taskFilesCopyInto alloc false duplicated h₀.kept (h.kept.foreign (Frame.refl _))
    fun i _ => hempty i).mono ?_
  rintro s' ⟨hk, hl, hmarks, hopened, hframe⟩
  refine ⟨⟨hl, hk, fun i hi => ?_⟩, fun a f ha => hframe a f ha fun _ hi => hi.elim⟩
  rw [hmarks i hi, hopened, h.copied_iff]
  exact (or_iff_right (hempty i)).symm

theorem Consistent.opened_iff_fsUserGetNode (h : s.Consistent) {i : ℕ} (hi : i < fdLimit) :
    s.Opened i ↔ s.fsUserGetNode i ≠ 0 := by
  rw [fsUserGetNode, intToSize_of_lt hi]
  constructor
  · rintro ⟨a, ha⟩
    rw [h.kept.avlLookup ha]
    exact (h.kept.file i a ha).1
  · exact fun hne => ⟨_, h.kept.has_avlLookup hne⟩

/-- The bits of the caller fit the new table exactly when the loader replaces what is
left out. -/
theorem Consistent.loaderReplaces_iff (h : s.Consistent)
    (habsent : ∀ i, Copied true s.heap s.infoFiles.firstFile i → ¬i < 3) :
    (∀ i, s.Opened i ↔ i < 3 ∨ Copied true s.heap s.infoFiles.firstFile i) ↔ s.LoaderReplaces := by
  have hsmall : ∀ i < 3, i < fdLimit := fun i hi => hi.trans (by decide)
  constructor
  · refine fun hopened => ⟨fun i hi => ?_, fun i a f ha hf => ?_⟩
    · exact (h.opened_iff_fsUserGetNode (hsmall i hi)).mp ((hopened i).mpr (.inl hi))
    · constructor
      · intro hclose
        rcases (hopened i).mp ⟨a, ha⟩ with hi | ⟨b, g, hb, hg, hinherits⟩
        · exact hi
        · have hab := h.kept.ordered.unique ha hb
          subst hab
          rw [hf] at hg
          cases hg
          rw [Inherits, hclose] at hinherits
          exact absurd hinherits (by decide)
      · intro hi
        by_contra hclose
        exact habsent i ⟨a, f, ha, hf, .inr (by simpa using hclose)⟩ hi
  · rintro ⟨hloader, hclose⟩ i
    constructor
    · rintro ⟨a, ha⟩
      obtain ⟨-, f, hf, -⟩ := h.kept.file i a ha
      by_cases hi : i < 3
      · exact .inl hi
      · have hkeep : ¬f.closeOnExec = true := fun hc => hi ((hclose i a f ha hf).mp hc)
        exact .inr ⟨a, f, ha, hf, .inr (by simpa using hkeep)⟩
    · rintro (hi | ⟨a, -, ha, -⟩)
      · exact (h.opened_iff_fsUserGetNode (hsmall i hi)).mpr (hloader i hi)
      · exact ⟨a, ha⟩

/-- The table of a new program: the bits are those of the caller, the entries those of
the loader and the copies. -/
theorem Consistent.syscallExecveFiles (h : s.Consistent) (stdin stdout stderr : OpenAnswer)
    (habsent : ∀ i, Copied true s.heap s.infoFiles.firstFile i → ¬i < 3) :
    Exec.Meets NotHalted (fun s' => s'.Kept ∧ Limited s'.infoFiles ∧ s'.Marks s.Opened ∧
      (∀ i, s'.Opened i ↔ i < 3 ∨ Copied true s.heap s.infoFiles.firstFile i) ∧
      ∀ a f, s.heap a = some f → s'.heap a = some f ∧ ∀ i, ¬s'.Has i a)
      (s.syscallExecveFiles alloc stdin stdout stderr duplicated) := by
  refine (elfExecuteFiles_meets alloc s.heap stdin stdout stderr).bind ?_
  rintro t ⟨hm, hopened⟩
  have habsent' : ∀ i, Copied true t.heap s.infoFiles.firstFile i → ¬t.Opened i := by
    intro i hi
    rw [hopened]
    exact habsent i ((h.kept.copied_congr true hm.2 i).mp hi)
  refine (h.taskFilesCopyInto alloc true duplicated hm.1.kept (h.kept.foreign hm.2) habsent').mono ?_
  rintro s' ⟨hk, hl, hmarks, hopened', hframe⟩
  refine ⟨hk, hl, hmarks, fun i => ?_, fun a f ha => ?_⟩
  · rw [hopened', hopened, h.kept.copied_congr true hm.2]
  · exact hm.2.trans hframe a f ha fun _ hi => hi.elim

end Calls

/-- One case for each call. -/
theorem Consistent.run {s : TaskFiles} (h : s.Consistent) (alloc : Allocator) {c : Call} (hc : c.Sound s) :
    Exec.Meets NotHalted (Outcome.Of s) (c.run alloc s) := by
  cases c with
  | openGeneric flags mode answer => exact (h.fsOpenGeneric alloc flags mode answer).bind fun _ hm => hm.1
  | close fd closed => exact (h.fsUserClose fd closed).bind fun _ hm => hm
  | dup fd duplicated => exact (h.syscallDup alloc fd duplicated).bind fun _ hm => hm
  | dup2 oldFd newFd closed duplicated =>
    have hnew : s.fsUserGetNode oldFd.toInt ≠ 0 → oldFd ≠ newFd → newFd.toNat < fdLimit := by
      rw [← h.limited.2]
      exact hc
    exact (h.syscallDup2 alloc hnew closed duplicated).bind fun _ hm => hm
  | fork duplicated => exact (h.fork alloc duplicated).bind fun _ hm => hm
  | execve stdin stdout stderr duplicated =>
    have habsent : ∀ i, Copied true s.heap s.infoFiles.firstFile i → ¬i < 3 := by
      rintro i ⟨a, f, ha, hf, hinherits⟩ hi
      have hclose := (hc.2 i a f ha hf).mpr hi
      rcases hinherits with h | h
      · cases h
      · rw [hclose] at h
        cases h
    refine (h.syscallExecveFiles alloc duplicated stdin stdout stderr habsent).bind ?_
    rintro s' ⟨hk, hl, hmarks, hopened, hframe⟩
    refine ⟨⟨hl, hk, fun i hi => ?_⟩, hframe⟩
    rw [hmarks i hi, hopened]
    exact (h.loaderReplaces_iff habsent).mpr hc i

/-- A table that is not touched stays consistent. -/
theorem Consistent.frame {s : TaskFiles} (h : s.Consistent) {heap : Heap}
    (hheap : ∀ i a, s.Has i a → ∀ f, s.heap a = some f → heap a = some f) :
    Consistent ⟨heap, s.infoFiles⟩ := by
  refine ⟨h.limited, ⟨h.kept.ordered, h.kept.balanced, h.kept.small, fun i a ha => ?_⟩, h.marks⟩
  obtain ⟨hne, f, hf, hrest⟩ := h.kept.file i a ha
  exact ⟨hne, f, hheap i a ha f hf, hrest⟩

end TaskFiles

namespace System

/-- Every table is consistent, and no object stands in two tables. -/
structure Consistent (s : System) : Prop where
  table : ∀ (t : ℕ) files, s.tables[t]? = some files → TaskFiles.Consistent ⟨s.heap, files⟩
  apart : ∀ (t u : ℕ) files files', t ≠ u → s.tables[t]? = some files → s.tables[u]? = some files' →
    ∀ i j a, files.firstFile.Has i a → ¬files'.firstFile.Has j a

theorem start_consistent (n : ℕ) : (start n).Consistent := by
  have hfiles : ∀ (t : ℕ) files, (start n).tables[t]? = some files → files = taskInfoFilesAllocate := by
    intro t files h
    exact List.eq_of_mem_replicate (List.mem_of_getElem? h)
  constructor
  · intro t files h
    rw [hfiles t files h]
    exact (TaskFiles.consistent_allocated _).1
  · intro t u files files' _ h _ i j a ha
    rw [hfiles t files h] at ha
    exact ha.elim

/-- The guard of a run. -/
def Sound (s : System) (event : ℕ × Call) : Prop :=
  ∀ files, s.tables[event.1]? = some files → event.2.Sound ⟨s.heap, files⟩

instance Sound.decidable (s : System) (event : ℕ × Call) : Decidable (s.Sound event) :=
  match h : s.tables[event.1]? with
  | none => isTrue fun files hf => (by rw [h] at hf; cases hf)
  | some files => decidable_of_iff (event.2.Sound ⟨s.heap, files⟩) (by rw [Sound, h]; simp)

section Step
variable {s : System} {task : ℕ} {files : TaskInfoFiles} {t : TaskFiles}

theorem Consistent.changed (h : s.Consistent) (htask : s.tables[task]? = some files)
    (hm : (TaskFiles.mk s.heap files).Moved t) : Consistent ⟨t.heap, s.tables.set task t.infoFiles⟩ := by
  have hother : ∀ (u : ℕ) files', u ≠ task → s.tables[u]? = some files' → ∀ i a, files'.firstFile.Has i a →
      (∀ f, s.heap a = some f → t.heap a = some f) ∧ ∀ j, ¬t.Has j a := by
    intro u files' hu hfiles' i a ha
    obtain ⟨-, f, hf, -⟩ := (h.table u files' hfiles').kept.file i a ha
    have hforeign : ∀ j, ¬(TaskFiles.mk s.heap files).Has j a := fun j hj =>
      h.apart task u files files' hu.symm htask hfiles' j i a hj ha
    obtain ⟨hheap, hn⟩ := hm.2 a f hf hforeign
    exact ⟨fun g hg => hheap.trans (hf.symm.trans hg), hn⟩
  have hset : ∀ (u : ℕ) files', (s.tables.set task t.infoFiles)[u]? = some files' →
      (u = task ∧ files' = t.infoFiles) ∨ (u ≠ task ∧ s.tables[u]? = some files') := by
    intro u files' hu
    rw [List.getElem?_set] at hu
    split_ifs at hu with h₁ h₂
    · exact .inl ⟨h₁.symm, (Option.some.inj hu).symm⟩
    · exact .inr ⟨fun he => h₁ he.symm, hu⟩
  constructor
  · intro u files' hu
    rcases hset u files' hu with ⟨-, rfl⟩ | ⟨hne, hu⟩
    · exact hm.1
    · exact (h.table u files' hu).frame fun i a ha => (hother u files' hne hu i a ha).1
  · intro u w files₁ files₂ huw h₁ h₂ i j a ha hb
    rcases hset u files₁ h₁ with ⟨hu, rfl⟩ | ⟨hu, hold₁⟩
    · rcases hset w files₂ h₂ with ⟨hw, -⟩ | ⟨hw, hold₂⟩
      · exact huw (hu.trans hw.symm)
      · exact (hother w files₂ hw hold₂ j a hb).2 i ha
    · rcases hset w files₂ h₂ with ⟨-, rfl⟩ | ⟨hw, hold₂⟩
      · exact (hother u files₁ hu hold₁ i a ha).2 j hb
      · exact h.apart u w files₁ files₂ huw hold₁ hold₂ i j a ha hb

theorem Consistent.copied (h : s.Consistent) (hm : t.Consistent)
    (hframe : ∀ a f, s.heap a = some f → t.heap a = some f ∧ ∀ i, ¬t.Has i a) :
    Consistent ⟨t.heap, s.tables ++ [t.infoFiles]⟩ := by
  have hother : ∀ (u : ℕ) files', s.tables[u]? = some files' → ∀ i a, files'.firstFile.Has i a → ∀ j, ¬t.Has j a := by
    intro u files' hu i a ha
    obtain ⟨-, f, hf, -⟩ := (h.table u files' hu).kept.file i a ha
    exact (hframe a f hf).2
  have happend : ∀ (u : ℕ) files', (s.tables ++ [t.infoFiles])[u]? = some files' →
      s.tables[u]? = some files' ∨ (u = s.tables.length ∧ files' = t.infoFiles) := by
    intro u files' hu
    rcases lt_or_ge u s.tables.length with hlt | hge
    · rw [List.getElem?_append_left hlt] at hu
      exact .inl hu
    · rw [List.getElem?_append_right hge] at hu
      have hzero : u - s.tables.length = 0 := by
        by_contra hne
        rw [List.getElem?_eq_none (by simpa using Nat.one_le_iff_ne_zero.mpr hne)] at hu
        cases hu
      rw [hzero] at hu
      exact .inr ⟨by omega, (Option.some.inj hu).symm⟩
  constructor
  · intro u files' hu
    rcases happend u files' hu with hu | ⟨-, rfl⟩
    · exact (h.table u files' hu).frame fun i a _ f hf => (hframe a f hf).1
    · exact hm
  · intro u w files₁ files₂ huw h₁ h₂ i j a ha hb
    rcases happend u files₁ h₁ with hold₁ | ⟨hu, rfl⟩
    · rcases happend w files₂ h₂ with hold₂ | ⟨-, rfl⟩
      · exact h.apart u w files₁ files₂ huw hold₁ hold₂ i j a ha hb
      · exact hother u files₁ hold₁ i a ha j hb
    · rcases happend w files₂ h₂ with hold₂ | ⟨hw, -⟩
      · exact hother w files₂ hold₂ j a hb i ha
      · exact huw (hu.trans hw.symm)

end Step

theorem Consistent.step {s : System} (h : s.Consistent) (alloc : Allocator) (event : ℕ × Call)
    (hsound : s.Sound event) : Exec.Meets NotHalted Consistent (s.step alloc event) := by
  rw [System.step]
  cases htask : s.tables[event.1]? with
  | none => exact h
  | some files =>
    refine ((h.table event.1 files htask).run alloc (hsound files htask)).bind fun o ho => ?_
    cases o with
    | changed t => exact h.changed htask ho
    | copied t => exact h.copied ho.1 ho.2

/-- The bitmap of every table marks the descriptors of its tree, and every file
carries the descriptor it stands under. -/
def DescriptorsAgree (s : System) : Prop :=
  ∀ (t : ℕ) files, s.tables[t]? = some files →
    (∀ i, files.bitmapGenericGet i = .ok true ↔ ∃ a, files.firstFile.Has i a) ∧
      ∀ i a, files.firstFile.Has i a → ∃ f, s.heap a = some f ∧ f.id = i

theorem Consistent.descriptorsAgree {s : System} (h : s.Consistent) : s.DescriptorsAgree := by
  intro t files htask
  have hc := h.table t files htask
  refine ⟨fun i => ?_, fun i a ha => ?_⟩
  · rcases lt_or_ge i fdLimit with hi | hi
    · have hget : files.bitmapGenericGet i = .ok (BitArray.get files.fdBitmap i) := hc.limited.bitmapGenericGet hi
      rw [hget, Except.ok.injEq]
      exact hc.marks i hi
    · have hlimit : files.rlimitFdsHard = fdLimit := hc.limited.2
      have hget : files.bitmapGenericGet i = .error .fault := by
        rw [TaskInfoFiles.bitmapGenericGet, if_neg]
        rw [hlimit]
        unfold fdLimit at *
        omega
      rw [hget]
      exact ⟨fun h => (by cases h), fun ⟨a, ha⟩ => absurd (hc.kept.small i a ha) (not_lt.mpr hi)⟩
  · obtain ⟨-, f, hf, hid, -⟩ := hc.kept.file i a ha
    exact ⟨f, hf, hid⟩

/-- In every run whose calls meet the condition the tables agree, and the halt on a
duplicate key of the tree is never reached. -/
theorem descriptor_runs_agree (alloc : Allocator) (n : ℕ) (events : List (ℕ × Call))
    (hsound : Guarded (step alloc) Sound (start n) events) :
    (∀ s, run (step alloc) (start n) events = .ok s → s.DescriptorsAgree) ∧
      run (step alloc) (start n) events ≠ .error .halt := by
  have hrun := run_meets_of_guarded (fun s event h hs => Consistent.step h alloc event hs) (start_consistent n) hsound
  rw [Exec.meets_iff] at hrun
  exact ⟨fun s hs => (hrun.1 s hs).descriptorsAgree, fun he => hrun.2 .halt he rfl⟩

/-- An allocator with sixty-four places. -/
def lowAllocator : Allocator where
  place heap := ((List.range 64).map (· + 1)).find? fun a => (heap a).isNone
  fresh := by
    intro heap a h
    have hmem := List.mem_of_find?_eq_some h
    have hnone := List.find?_some h
    rw [List.mem_map] at hmem
    obtain ⟨b, -, rfl⟩ := hmem
    exact ⟨Nat.succ_ne_zero b, Option.isNone_iff_eq_none.mp hnone⟩

/-- Opens, duplicates, closes and copies; the program is replaced when exactly the
descriptors 0, 1 and 2 are marked close-on-exec. -/
def sampleEvents : List (ℕ × Call) :=
  [(0, .openGeneric oCloexec 0 (.symlink 0 (.opened 0))), (0, .openGeneric oCloexec 0 (.opened 0)),
    (0, .openGeneric oCloexec 0 (.opened 0)), (0, .dup 0 true), (0, .dup2 1 5 true true),
    (0, .openGeneric 0 0 .noMountPoint), (0, .close 3 true), (0, .fork fun _ => true),
    (1, .execve (.opened 0) (.opened 0) (.opened 0) fun _ => true), (2, .dup2 5 0 true true)]

theorem sampleEvents_agree :
    (∀ s, run (step lowAllocator) (start 1) sampleEvents = .ok s → s.DescriptorsAgree) ∧
      run (step lowAllocator) (start 1) sampleEvents ≠ .error .halt :=
  descriptor_runs_agree lowAllocator 1 sampleEvents (by decide +kernel)

/-- A task that replaces its program with descriptor 0 open halts the system: the copy
inserts a key that the loader has inserted. -/
theorem execve_halts_on_open_descriptor :
    run (step lowAllocator) (start 1)
      [(0, .openGeneric 0 0 (.opened 0)), (0, .execve (.opened 0) (.opened 0) (.opened 0) fun _ => true)] =
        .error .halt := by
  have hrun : Exec.Meets (· = .halt) (fun _ => False) (run (step lowAllocator) (start 1)
      [(0, .openGeneric 0 0 (.opened 0)), (0, .execve (.opened 0) (.opened 0) (.opened 0) fun _ => true)]) := by
    decide +kernel
  generalize run (step lowAllocator) (start 1) _ = m at hrun ⊢
  cases m with
  | ok s => exact hrun.elim
  | error e => exact congrArg _ hrun

end System

end DualFuse.Filesystems
