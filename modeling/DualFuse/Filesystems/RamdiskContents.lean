import DualFuse.Filesystems.Ramdisk

/-! What files of the RAM disk contain (`filesystems/rd/ramdisk.cpp`). A file's slot in the table is
also the number of its block. Whole blocks are copied, whatever the length of the string. -/

namespace DualFuse.Filesystems.Ramdisk

open Library Library.CString

def blockRead (s : Ramdisk) (block : ℕ) (buffer : ℕ → RdByte) : Exec (ℕ → RdByte) :=
  if block < 1024 then .ok fun k => if k < blockSize then s.ramDisk (block * blockSize + k) else buffer k
  else .error .fault

def fsRead (s : Ramdisk) (name : List RdByte) (buffer : ℕ → RdByte) : Exec ((ℕ → RdByte) × ℤ) :=
  match s.findInCurrent name false with
  | none => .ok (buffer, -1)
  | some i => do
    let buffer ← s.blockRead (s.files i).blockIndex buffer
    .ok (Function.update buffer (s.files i).size 0, 0)

/-- The bytes that the calls access, each by its place. -/
inductive RdAccess where
  | data (k : ℕ)
  | disk (a : ℕ)
  | buffer (k : ℕ)

/-- The loop of `block_write` and `block_read`. -/
def copyAccesses (block : ℕ) (other : ℕ → RdAccess) : List RdAccess :=
  (List.range blockSize).flatMap fun k => [other k, .disk (block * blockSize + k)]

/-- The accesses of `fs_write`: those of `strlen`, and those of the copy. -/
def fsWriteAccesses (s : Ramdisk) (name data : List RdByte) : List RdAccess :=
  match s.findInCurrent name false with
  | none => []
  | some i => (List.range (data.length + 1)).map .data ++ copyAccesses (s.files i).blockIndex .data

def fsReadAccesses (s : Ramdisk) (name : List RdByte) : List RdAccess :=
  match s.findInCurrent name false with
  | none => []
  | some i => copyAccesses (s.files i).blockIndex .buffer ++ [.buffer (s.files i).size]

/-- Inside a string of `n` bytes and its terminator, a block, and a buffer of one byte more. -/
def RdAccess.Inside (n block : ℕ) : RdAccess → Prop
  | .data k => k ≤ n
  | .disk a => block * blockSize ≤ a ∧ a < (block + 1) * blockSize
  | .buffer k => k ≤ blockSize

/-- A file's size and block are the same in both states. -/
def SameContents (s s' : Ramdisk) (j : ℕ) : Prop :=
  s'.files j = s.files j ∧
    ∀ k < blockSize, s'.ramDisk ((s.files j).blockIndex * blockSize + k) =
      s.ramDisk ((s.files j).blockIndex * blockSize + k)

/-- What writing the file in slot `i` and reading it back is for. -/
structure RoundTrips (s : Ramdisk) (i : ℕ) (name data : List RdByte) (beyond buffer : ℕ → RdByte) : Prop where
  written : ∀ a ∈ s.fsWriteAccesses name data, a.Inside data.length (s.files i).blockIndex
  read : ∃ s' buf, s.fsWrite name data beyond = .ok (s', 0) ∧ s'.fsRead name buffer = .ok (buf, 0) ∧
    (∀ a ∈ s'.fsReadAccesses name, a.Inside data.length (s.files i).blockIndex) ∧
    (∀ k < min data.length blockSize, buf k = data.getD k 0) ∧ buf (min data.length blockSize) = 0 ∧
    ∀ j < maxFiles, (s.files j).used → (s.files j).isDir = false → j ≠ i → SameContents s s' j

/-- A string of at least a block with its terminator, whose length in 32 bits is the same up to a block. -/
def DataFits (data : List RdByte) : Prop :=
  blockSize ≤ data.length + 1 ∧ min (data.length % 2 ^ 32) blockSize = min data.length blockSize

instance (data : List RdByte) : Decidable (DataFits data) := inferInstanceAs (Decidable (_ ∧ _))

/-- Each slot's block has its own number, and the buffers of the table are as the calls leave them. -/
structure Slots (s : Ramdisk) : Prop where
  block : ∀ i, (s.files i).blockIndex < 1024
  own : ∀ i, (s.files i).used → (s.files i).blockIndex = i
  size : ∀ i, (s.files i).size ≤ blockSize
  nameLength : ∀ i, (s.files i).name.length = maxName
  nameEnd : ∀ i, (s.files i).name.drop (maxName - 1) = [0]

/-- The state after the start, where the block device holds anything. -/
def startOn (disk : ℕ → RdByte) : Ramdisk := { start with ramDisk := disk }

section Slots
variable {s s' : Ramdisk} {i : ℕ}

theorem slots_startOn (disk : ℕ → RdByte) : Slots (startOn disk) where
  block _ := Nat.succ_pos 1023
  own _ h := by cases h
  size _ := Nat.zero_le _
  nameLength _ := List.length_replicate
  nameEnd _ := List.drop_replicate

/-- A slot is set to one that is sound, and the disk to anything. -/
theorem Slots.set (h : Slots s) {e : FileEntry} (hfiles : s'.files = Function.update s.files i e)
    (hblock : e.blockIndex < 1024) (hown : e.used → e.blockIndex = i) (hsize : e.size ≤ blockSize)
    (hname : e.name.length = maxName) (hend : e.name.drop (maxName - 1) = [0]) : Slots s' := by
  have hcases : ∀ j, s'.files j = if j = i then e else s.files j := by
    intro j
    rw [hfiles]
    exact Function.update_apply ..
  constructor
  all_goals
    intro j
    rw [hcases]
    split_ifs with hji
  · exact hblock
  · exact h.block j
  · subst hji
    exact hown
  · exact h.own j
  · exact hsize
  · exact h.size j
  · exact hname
  · exact h.nameLength j
  · exact hend
  · exact h.nameEnd j

/-- The disk's bytes do not matter. -/
theorem Slots.of_files (h : Slots s) (hfiles : s'.files = s.files) : Slots s' := by
  constructor
  all_goals
    intro j
    rw [hfiles]
  · exact h.block j
  · exact h.own j
  · exact h.size j
  · exact h.nameLength j
  · exact h.nameEnd j

theorem blockWrite_ok {block : ℕ} {buffer : ℕ → RdByte} (h : s.blockWrite block buffer = .ok s') :
    s'.files = s.files := by
  unfold blockWrite at h
  split_ifs at h with hblock
  cases h
  rfl

theorem Slots.cutName (h : Slots s) {name stored : List RdByte}
    (hstored : strncpy (s.files i).name 0 name (maxName - 1) = .ok stored) :
    stored = padded name (maxName - 1) ++ [0] := by
  rw [strncpy_cut (h.nameLength i) (h.nameEnd i)] at hstored
  cases hstored
  rfl

theorem Slots.create (h : Slots s) {name : List RdByte} {isDir : Bool} {r : ℤ}
    (hcreate : s.fsCreateEntry name isDir = .ok (s', r)) : Slots s' := by
  unfold fsCreateEntry at hcreate
  split_ifs at hcreate with hfound
  · cases hcreate
    exact h
  · cases hslot : firstSlot (fun i => !(s.files i).used) with
    | none =>
      rw [hslot] at hcreate
      cases hcreate
      exact h
    | some i =>
      obtain ⟨hi, -⟩ := firstSlot_some hslot
      rw [hslot] at hcreate
      obtain ⟨stored, hstored, hcreate⟩ := Exec.bind_ok_iff.mp hcreate
      obtain ⟨path, -, hcreate⟩ := Exec.bind_ok_iff.mp hcreate
      obtain rfl := h.cutName hstored
      cases hcreate
      exact h.set rfl (Nat.lt_of_lt_of_le hi (by decide)) (fun _ => rfl) (Nat.zero_le _) (length_cut name)
        (List.drop_left' (length_padded name _))

theorem Slots.write (h : Slots s) {name data : List RdByte} {beyond : ℕ → RdByte} {r : ℤ}
    (hwrite : s.fsWrite name data beyond = .ok (s', r)) : Slots s' := by
  unfold fsWrite at hwrite
  cases hfound : s.findInCurrent name false with
  | none =>
    rw [hfound] at hwrite
    cases hwrite
    exact h
  | some i =>
    rw [hfound] at hwrite
    obtain ⟨s₁, hblock, hwrite⟩ := Exec.bind_ok_iff.mp hwrite
    cases hwrite
    refine h.set (blockWrite_ok hblock) (h.block i) (h.own i) ?_ (h.nameLength i) (h.nameEnd i)
    dsimp only
    split_ifs
    · exact le_rfl
    · omega

theorem Slots.delete (h : Slots s) {name : List RdByte} {r : ℤ} (hdelete : s.fsDelete name = .ok (s', r)) :
    Slots s' := by
  unfold fsDelete at hdelete
  cases hfound : firstSlot (s.named name) with
  | none =>
    rw [hfound] at hdelete
    cases hdelete
    exact h
  | some i =>
    rw [hfound] at hdelete
    dsimp only at hdelete
    split_ifs at hdelete with hdir hchild
    · cases hdelete
      exact h
    · cases hdelete
      exact h.set rfl (h.block i) (fun hused => by cases hused) (h.size i) (h.nameLength i) (h.nameEnd i)
    · obtain ⟨s₁, hblock, hdelete⟩ := Exec.bind_ok_iff.mp hdelete
      cases hdelete
      exact h.set (blockWrite_ok hblock) (h.block i) (fun hused => by cases hused) (Nat.zero_le _) (h.nameLength i)
        (h.nameEnd i)

theorem Slots.cd (h : Slots s) {name : List RdByte} {r : ℤ} (hcd : s.fsCd name = .ok (s', r)) : Slots s' := by
  unfold fsCd at hcd
  split_ifs at hcd
  · cases hcd
    exact h
  · cases hcd
    exact h.of_files rfl
  · cases hfound : s.findInCurrent name true with
    | none =>
      rw [hfound] at hcd
      cases hcd
      exact h
    | some i =>
      rw [hfound] at hcd
      cases hcd
      exact h.of_files rfl

theorem Slots.call (h : Slots s) {c : RamdiskCall} (hcall : s.call c = .ok s') : Slots s' := by
  have hpair : ∀ m : Exec (Ramdisk × ℤ), Prod.fst <$> m = .ok s' → ∃ r, m = .ok (s', r) := by
    intro m hm
    cases m with
    | error e => cases hm
    | ok p =>
      cases hm
      exact ⟨p.2, rfl⟩
  cases c with
  | create name =>
    obtain ⟨r, hr⟩ := hpair _ hcall
    exact h.create hr
  | mkdir name =>
    obtain ⟨r, hr⟩ := hpair _ hcall
    exact h.create hr
  | write name data beyond =>
    obtain ⟨r, hr⟩ := hpair _ hcall
    exact h.write hr
  | delete name =>
    obtain ⟨r, hr⟩ := hpair _ hcall
    exact h.delete hr
  | cd name =>
    obtain ⟨r, hr⟩ := hpair _ hcall
    exact h.cd hr

theorem slots_run {disk : ℕ → RdByte} {calls : List RamdiskCall} (h : run call (startOn disk) calls = .ok s) :
    Slots s :=
  run_invariant (fun _ _ _ hs hcall => hs.call hcall) (slots_startOn disk) h

end Slots

section RoundTrips
variable {s s' : Ramdisk} {i : ℕ} {name data : List RdByte} {beyond buffer : ℕ → RdByte}

theorem findInCurrent_of_same (hsame : ∀ j, SameNode (s.files j) (s'.files j))
    (hcurrent : s'.currentDirIndex = s.currentDirIndex) (name : List RdByte) (isDir : Bool) :
    s'.findInCurrent name isDir = s.findInCurrent name isDir := by
  unfold findInCurrent
  congr 1
  funext j
  obtain ⟨hname, -, hused, hdir, hparent⟩ := hsame j
  rw [hname, hused, hdir, hparent, hcurrent]

/-- The length that `fs_write` stores. -/
def storedSize (data : List RdByte) : ℕ := min (data.length % 2 ^ 32) blockSize

/-- The state that `fs_write` leaves behind. -/
def written (s : Ramdisk) (i : ℕ) (data : List RdByte) (beyond : ℕ → RdByte) : Ramdisk where
  files := Function.update s.files i { s.files i with size := storedSize data }
  currentDirIndex := s.currentDirIndex
  ramDisk := fun a =>
    if (s.files i).blockIndex * blockSize ≤ a ∧ a < ((s.files i).blockIndex + 1) * blockSize then
      dataBytes data beyond (a - (s.files i).blockIndex * blockSize)
    else s.ramDisk a

theorem Slots.fsWrite_eq (h : Slots s) (hfound : s.findInCurrent name false = some i) (data : List RdByte)
    (beyond : ℕ → RdByte) : s.fsWrite name data beyond = .ok (s.written i data beyond, 0) := by
  have hsize : (if data.length % 2 ^ 32 > blockSize then blockSize else data.length % 2 ^ 32) = storedSize data := by
    unfold storedSize
    split_ifs <;> omega
  unfold fsWrite
  rw [hfound]
  dsimp only
  rw [hsize, blockWrite, if_pos (h.block i)]
  rfl

theorem written_files_self (data : List RdByte) (beyond : ℕ → RdByte) :
    (s.written i data beyond).files i = { s.files i with size := storedSize data } := Function.update_self ..

theorem written_files_ne {j : ℕ} (hji : j ≠ i) (data : List RdByte) (beyond : ℕ → RdByte) :
    (s.written i data beyond).files j = s.files j := Function.update_of_ne hji ..

theorem written_findInCurrent (data : List RdByte) (beyond : ℕ → RdByte) (name : List RdByte) (isDir : Bool) :
    (s.written i data beyond).findInCurrent name isDir = s.findInCurrent name isDir := by
  have hsame : ∀ j, SameNode (s.files j) ((s.written i data beyond).files j) := by
    intro j
    by_cases hji : j = i
    · subst hji
      rw [written_files_self]
      exact ⟨rfl, rfl, rfl, rfl, rfl⟩
    · rw [written_files_ne hji]
      exact SameNode.refl _
  exact findInCurrent_of_same hsame rfl name isDir

theorem written_ramDisk (data : List RdByte) (beyond : ℕ → RdByte) {k : ℕ} (hk : k < blockSize) :
    (s.written i data beyond).ramDisk ((s.files i).blockIndex * blockSize + k) = dataBytes data beyond k := by
  have hin : (s.files i).blockIndex * blockSize ≤ (s.files i).blockIndex * blockSize + k ∧
      (s.files i).blockIndex * blockSize + k < ((s.files i).blockIndex + 1) * blockSize := by
    rw [Nat.add_one_mul]
    omega
  unfold written
  dsimp only
  rw [if_pos hin, Nat.add_sub_cancel_left]

/-- The slot is also the block's number, so another used slot's bytes stay. -/
theorem Slots.sameContents (h : Slots s) (hi : (s.files i).used) {j : ℕ} (hj : (s.files j).used) (hji : j ≠ i)
    (data : List RdByte) (beyond : ℕ → RdByte) : SameContents s (s.written i data beyond) j := by
  constructor
  · exact written_files_ne hji ..
  · intro k hk
    have hout : ¬ ((s.files i).blockIndex * blockSize ≤ (s.files j).blockIndex * blockSize + k ∧
        (s.files j).blockIndex * blockSize + k < ((s.files i).blockIndex + 1) * blockSize) := by
      rw [h.own i hi, h.own j hj]
      unfold blockSize at hk ⊢
      omega
    unfold written
    dsimp only
    rw [if_neg hout]

theorem Slots.written_fsRead (h : Slots s) (hfound : s.findInCurrent name false = some i) (data : List RdByte)
    (beyond buffer : ℕ → RdByte) :
    ∃ buf, (s.written i data beyond).fsRead name buffer = .ok (buf, 0) ∧ buf (storedSize data) = 0 ∧
      ∀ k < blockSize, k ≠ storedSize data → buf k = dataBytes data beyond k := by
  unfold fsRead
  rw [written_findInCurrent, hfound]
  dsimp only
  rw [written_files_self, blockRead, if_pos (h.block i), Exec.ok_bind]
  refine ⟨_, rfl, Function.update_self .., ?_⟩
  intro k hk hne
  rw [Function.update_of_ne hne, if_pos hk]
  exact written_ramDisk _ _ hk

theorem dataBytes_lt {k : ℕ} (hk : k < data.length) (beyond : ℕ → RdByte) : dataBytes data beyond k = data.getD k 0 :=
  if_pos hk

theorem getD_ne_zero (hdata : 0 ∉ data) {k : ℕ} (hk : k < data.length) : data.getD k 0 ≠ 0 := by
  rw [List.getD_eq_getElem?_getD, List.getElem?_eq_getElem hk, Option.getD_some]
  exact fun hzero => hdata (hzero ▸ List.getElem_mem hk)

theorem mem_copyAccesses {block : ℕ} {other : ℕ → RdAccess} {a : RdAccess} :
    a ∈ copyAccesses block other ↔ ∃ k < blockSize, a = other k ∨ a = .disk (block * blockSize + k) := by
  simp [copyAccesses]

/-- The copy stays inside where the other side of it does. -/
theorem copyAccesses_inside {n block : ℕ} {other : ℕ → RdAccess}
    (hother : ∀ k < blockSize, (other k).Inside n block) : ∀ a ∈ copyAccesses block other, a.Inside n block := by
  intro a ha
  obtain ⟨k, hk, rfl | rfl⟩ := mem_copyAccesses.mp ha
  · exact hother k hk
  · simp only [RdAccess.Inside, Nat.add_one_mul]
    omega

theorem written_readAccesses (hfound : s.findInCurrent name false = some i) (n : ℕ) (data : List RdByte)
    (beyond : ℕ → RdByte) :
    ∀ a ∈ (s.written i data beyond).fsReadAccesses name, a.Inside n (s.files i).blockIndex := by
  unfold fsReadAccesses
  rw [written_findInCurrent, hfound]
  dsimp only
  rw [written_files_self]
  intro a ha
  rcases List.mem_append.mp ha with hcopy | hend
  · refine copyAccesses_inside (fun k hk => ?_) a hcopy
    exact Nat.le_of_lt hk
  · rw [List.mem_singleton.mp hend]
    exact Nat.min_le_right ..

theorem writeAccesses_inside_iff (hfound : s.findInCurrent name false = some i) :
    (∀ a ∈ s.fsWriteAccesses name data, a.Inside data.length (s.files i).blockIndex) ↔
      blockSize ≤ data.length + 1 := by
  unfold fsWriteAccesses
  rw [hfound]
  dsimp only
  constructor
  · intro hinside
    have hlast := hinside (.data (blockSize - 1)) (List.mem_append_right _ (mem_copyAccesses.mpr
      ⟨blockSize - 1, Nat.sub_lt (Nat.succ_pos 511) Nat.one_pos, .inl rfl⟩))
    exact Nat.le_add_of_sub_le hlast
  · intro hfits a ha
    rcases List.mem_append.mp ha with hlen | hcopy
    · obtain ⟨k, hk, rfl⟩ := List.mem_map.mp hlen
      exact Nat.lt_succ_iff.mp (List.mem_range.mp hk)
    · apply copyAccesses_inside _ a hcopy
      intro k hk
      change k ≤ data.length
      omega

theorem Slots.roundTrips_iff (h : Slots s) (hfound : s.findInCurrent name false = some i) (hdata : 0 ∉ data)
    (beyond buffer : ℕ → RdByte) : s.RoundTrips i name data beyond buffer ↔ DataFits data := by
  obtain ⟨hi, hused, -⟩ := findInCurrent_some hfound
  obtain ⟨buf, hread, hend, hcopied⟩ := h.written_fsRead hfound data beyond buffer
  have hle : data.length % 2 ^ 32 ≤ data.length := Nat.mod_le ..
  constructor
  · rintro ⟨hwritten, s', buf', hwrite, hread', -, hbytes, hzero, -⟩
    rw [h.fsWrite_eq hfound, Except.ok.injEq, Prod.mk.injEq] at hwrite
    rw [← hwrite.1, hread, Except.ok.injEq, Prod.mk.injEq] at hread'
    rw [← hread'.1] at hbytes
    refine ⟨(writeAccesses_inside_iff hfound).mp hwritten, ?_⟩
    by_contra hne
    have hlt : storedSize data < min data.length blockSize := by
      unfold storedSize
      omega
    exact getD_ne_zero hdata (hlt.trans_le (Nat.min_le_left ..)) ((hbytes _ hlt).symm.trans hend)
  · rintro ⟨hfits, hlength⟩
    refine ⟨(writeAccesses_inside_iff hfound).mpr hfits, _, buf, h.fsWrite_eq hfound data beyond, hread,
      written_readAccesses hfound _ data beyond, ?_, ?_, ?_⟩
    · intro k hk
      have hne : k ≠ storedSize data := by
        rw [storedSize, hlength]
        exact hk.ne
      rw [hcopied k (hk.trans_le (Nat.min_le_right ..)) hne, dataBytes_lt (hk.trans_le (Nat.min_le_left ..))]
    · rw [← hlength]
      exact hend
    · intro j _ hj _ hji
      exact h.sameContents hused hj hji ..

/-- After its creation a file is found under its name, and reads as the empty string. -/
def ReadsEmpty (s : Ramdisk) (name : List RdByte) (buffer : ℕ → RdByte) : Prop :=
  ∃ buf, s.fsRead name buffer = .ok (buf, 0) ∧ buf 0 = 0

/-- A node was made in a free slot, with its name cut. -/
theorem fsCreate_created (h : s.fsCreate name = .ok (s', 0)) :
    firstSlot (s.named name) = none ∧ s'.currentDirIndex = s.currentDirIndex ∧ ∃ i < maxFiles, ∃ stored path,
      (s.files i).used = false ∧ strncpy (s.files i).name 0 name (maxName - 1) = .ok stored ∧
      s'.files = Function.update s.files i ⟨stored, path, true, false, 0, i, s.currentDirIndex⟩ := by
  unfold fsCreate fsCreateEntry at h
  split_ifs at h with hfound
  · cases h
  · cases hslot : firstSlot (fun i => !(s.files i).used) with
    | none =>
      rw [hslot] at h
      cases h
    | some i =>
      obtain ⟨hi, hfree⟩ := firstSlot_some hslot
      rw [hslot] at h
      obtain ⟨stored, hstored, h⟩ := Exec.bind_ok_iff.mp h
      obtain ⟨path, -, h⟩ := Exec.bind_ok_iff.mp h
      cases h
      exact ⟨by simpa using hfound, rfl, i, hi, stored, path, by simpa using hfree, hstored, rfl⟩

/-- A stored name has at most 31 bytes. -/
theorem Slots.content_length (h : Slots s) (i : ℕ) : (content (s.files i).name).length < maxName := by
  have hmem : (0 : RdByte) ∈ (s.files i).name := by
    apply List.mem_of_mem_drop
    rw [h.nameEnd i]
    exact List.mem_singleton_self 0
  have hheld := (holds_content hmem).length_lt
  rwa [h.nameLength i] at hheld

theorem findInCurrent_name {isDir : Bool} (h : s.findInCurrent name isDir = some i) : s.named name i := by
  obtain ⟨-, hp⟩ := firstSlot_some h
  simp only [Bool.and_eq_true, decide_eq_true_eq] at hp
  exact named_iff.mpr ⟨hp.1.1.1, hp.1.1.2, hp.2⟩

theorem Slots.readsEmpty_iff (h : Slots s) (hname : 0 ∉ name) (hcreate : s.fsCreate name = .ok (s', 0))
    (buffer : ℕ → RdByte) : s'.ReadsEmpty name buffer ↔ name.length < maxName := by
  have h' : Slots s' := h.create hcreate
  obtain ⟨hnew, hcurrent, i, hi, stored, path, hfree, hstored, hfiles⟩ := fsCreate_created hcreate
  constructor
  · rintro ⟨buf, hread, -⟩
    cases hfound : s'.findInCurrent name false with
    | none =>
      unfold fsRead at hread
      rw [hfound] at hread
      cases hread
    | some j =>
      obtain ⟨-, -, hcontent⟩ := named_iff.mp (findInCurrent_name hfound)
      rw [← hcontent]
      exact h'.content_length j
  · intro hfits
    have hcontent : content stored = name := by
      rw [h.cutName hstored]
      exact content_cut hname hfits
    have hself : s'.files i = ⟨stored, path, true, false, 0, i, s.currentDirIndex⟩ := by
      rw [hfiles]
      exact Function.update_self ..
    have hfinds : s'.findInCurrent name false ≠ none := by
      intro hnone
      apply firstSlot_none hnone hi
      rw [hself, hcurrent]
      simp [hcontent]
    obtain ⟨j, hfound⟩ := Option.ne_none_iff_exists'.mp hfinds
    -- an older node of this name would have been found before
    have hji : j = i := by
      by_contra hne
      have hnamed := findInCurrent_name hfound
      rw [named_iff, hfiles, Function.update_of_ne hne, hcurrent, ← named_iff] at hnamed
      exact firstSlot_none hnew (findInCurrent_some hfound).1 hnamed
    subst hji
    unfold ReadsEmpty fsRead
    rw [hfound]
    dsimp only
    rw [blockRead, if_pos (h'.block j), Exec.ok_bind]
    refine ⟨_, rfl, ?_⟩
    rw [hself]
    exact Function.update_self ..

end RoundTrips

def oneFile : List RamdiskCall := [.create ⟨[97], by decide⟩]

/-- The first slot's file. -/
theorem oneFile_found : ∃ s, run call start oneFile = .ok s ∧ s.findInCurrent [97] false = some 0 := by
  decide +kernel

end DualFuse.Filesystems.Ramdisk
