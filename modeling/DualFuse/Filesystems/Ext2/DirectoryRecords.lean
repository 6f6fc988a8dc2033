import DualFuse.Filesystems.Ext2.Directory

/-! What the walks over one directory block do, for a block that is a row of records: a
new record takes the slack of an old one, a removed record is zeroed or goes to the slack
of the one before it, and a search returns the record with the name. -/

namespace DualFuse.Filesystems

open Library Ext2Directory

variable {blockSize : ℕ} {b b' : Block} {o p q : ℕ} {e : DirEntry} {l l' : List DirEntry} {filename : Filename}

namespace Ext2Directory

theorem le_align4 (n : ℕ) : n ≤ align4 n := by
  unfold align4
  omega

theorem align4_mod (n : ℕ) : align4 n % 4 = 0 := by
  unfold align4
  omega

end Ext2Directory

namespace DirEntry

theorem WellFormed.eight_le (h : e.WellFormed) : 8 ≤ e.size := by
  have := h.2
  omega

/-- A record is its own bytes. -/
theorem IsAt.congr (h : e.IsAt b o) (hb : ∀ i, o ≤ i → i < o + 8 + e.filename.length → b' i = b i) : e.IsAt b' o where
  inode := by
    rw [← h.inode]
    exact Bytes.readNat_congr fun i hlo hhi => hb i hlo (by omega)
  size := by
    rw [← h.size]
    exact Bytes.readNat_congr fun i hlo hhi => hb i (by omega) (by omega)
  length := by
    rw [← h.length]
    exact Bytes.readNat_congr fun i hlo hhi => hb i (by omega) (by omega)
  type := by
    rw [← h.type]
    exact Bytes.readNat_congr fun i hlo hhi => hb i (by omega) (by omega)
  filename := by
    conv_rhs => rw [← h.filename]
    exact Bytes.read_congr fun i hlo hhi => hb i (by omega) (by omega)

theorem IsAt.size_lt (h : e.IsAt b o) : e.size < 2 ^ 16 := by
  rw [← h.size]
  exact Bytes.readNat_lt

theorem IsAt.length_lt (h : e.IsAt b o) : e.filename.length < 256 := by
  rw [← h.length]
  exact Bytes.readNat_lt

/-- The comparison of the walks. -/
theorem IsAt.namedAt_iff (h : e.IsAt b o) : namedAt b o filename = true ↔ e.Named filename := by
  unfold namedAt Named
  rw [h.inode, h.length]
  simp only [Bool.and_eq_true, bne_iff_ne, beq_iff_eq]
  constructor
  · rintro ⟨⟨hi, hl⟩, hf⟩
    rw [hl, h.filename] at hf
    exact ⟨hi, hf⟩
  · rintro ⟨hi, rfl⟩
    exact ⟨⟨hi, rfl⟩, h.filename⟩

/-- A record whose size field is stored anew. -/
theorem IsAt.resize (h : e.IsAt b o) {n : ℕ} (hn : n < 2 ^ 16) :
    { e with size := n }.IsAt (Bytes.writeNat b (o + 4) 2 n) o where
  inode := by
    rw [← h.inode]
    exact Bytes.readNat_congr fun i hlo hhi => Bytes.writeNat_of_outside (by omega)
  size := by
    rw [sizeAt, Bytes.readNat_writeNat]
    exact Nat.mod_eq_of_lt hn
  length := by
    rw [← h.length]
    exact Bytes.readNat_congr fun i hlo hhi => Bytes.writeNat_of_outside (by omega)
  type := by
    rw [← h.type]
    exact Bytes.readNat_congr fun i hlo hhi => Bytes.writeNat_of_outside (by omega)
  filename := by
    conv_rhs => rw [← h.filename]
    exact Bytes.read_congr fun i hlo hhi => Bytes.writeNat_of_outside (by omega)

/-- The first record of a block after its removal. -/
theorem IsAt.clear (h : e.IsAt b o) :
    { e with inode := 0, filename := [] }.IsAt (Bytes.writeNat (Bytes.writeNat b o 4 0) (o + 6) 1 0) o where
  inode := by
    rw [inodeAt, Bytes.readNat_congr fun i hlo hhi => Bytes.writeNat_of_outside (by omega), Bytes.readNat_writeNat]
    rfl
  size := by
    rw [← h.size]
    exact Bytes.readNat_congr fun i hlo hhi => by
      rw [Bytes.writeNat_of_outside (by omega), Bytes.writeNat_of_outside (by omega)]
  length := by
    rw [filenameLengthAt, Bytes.readNat_writeNat]
    rfl
  type := by
    rw [← h.type]
    exact Bytes.readNat_congr fun i hlo hhi => by
      rw [Bytes.writeNat_of_outside (by omega), Bytes.writeNat_of_outside (by omega)]
  filename := rfl

end DirEntry

/-! ### A new record -/

/-- The arguments of a new record fit their fields. -/
structure Fits (size type : ℕ) (filename : Filename) (inode : ℕ) : Prop where
  size : size < 2 ^ 16
  type : type < 256
  length : filename.length < 256
  inode : inode < 2 ^ 32

namespace Ext2Directory

theorem storeRecord_of_outside {size type inode i : ℕ} (h : i < o ∨ o + 8 + filename.length ≤ i) :
    storeRecord b o size type filename inode i = b i := by
  unfold storeRecord
  rw [Bytes.writeNat_of_outside (by omega), Bytes.writeNat_of_outside (by omega)]
  have hname : Bytes.write (Bytes.writeNat (Bytes.writeNat b (o + 4) 2 size) (o + 7) 1 type) (o + 8) filename i =
      Bytes.writeNat (Bytes.writeNat b (o + 4) 2 size) (o + 7) 1 type i := by
    rcases h with h | h
    · exact Bytes.write_of_lt (by omega)
    · exact Bytes.write_of_ge (by omega)
  rw [hname, Bytes.writeNat_of_outside (by omega), Bytes.writeNat_of_outside (by omega)]

theorem storeRecord_isAt {size type inode : ℕ} (h : Fits size type filename inode) :
    DirEntry.IsAt ⟨inode, size, type, filename⟩ (storeRecord b o size type filename inode) o := by
  unfold storeRecord
  refine ⟨?_, ?_, ?_, ?_, ?_⟩
  · rw [inodeAt, Bytes.readNat_writeNat]
    exact Nat.mod_eq_of_lt h.inode
  · rw [sizeAt, Bytes.readNat_congr (b := Bytes.writeNat b (o + 4) 2 size), Bytes.readNat_writeNat]
    · exact Nat.mod_eq_of_lt h.size
    · intro i hlo hhi
      rw [Bytes.writeNat_of_outside (by omega), Bytes.writeNat_of_outside (by omega), Bytes.write_of_lt (by omega),
        Bytes.writeNat_of_outside (by omega)]
  · rw [filenameLengthAt, Bytes.readNat_congr fun i hlo hhi => Bytes.writeNat_of_outside (by omega),
      Bytes.readNat_writeNat]
    exact Nat.mod_eq_of_lt h.length
  · rw [typeAt, Bytes.readNat_congr (b := Bytes.writeNat (Bytes.writeNat b (o + 4) 2 size) (o + 7) 1 type),
      Bytes.readNat_writeNat]
    · exact Nat.mod_eq_of_lt h.type
    · intro i hlo hhi
      rw [Bytes.writeNat_of_outside (by omega), Bytes.writeNat_of_outside (by omega), Bytes.write_of_lt (by omega)]
  · rw [filenameAt, Bytes.read_congr fun i hlo hhi => by
      rw [Bytes.writeNat_of_outside (by omega), Bytes.writeNat_of_outside (by omega)]]
    exact Bytes.read_write

end Ext2Directory

/-! ### Rows of records -/

namespace Tiles

theorem append_iff : Tiles b o (l ++ l') q ↔ ∃ m, Tiles b o l m ∧ Tiles b m l' q := by
  induction l generalizing o with
  | nil =>
    constructor
    · intro h
      exact ⟨o, rfl, h⟩
    · rintro ⟨m, rfl, h⟩
      exact h
  | cons e l ih =>
    rw [List.cons_append, Tiles, ih]
    constructor
    · rintro ⟨hat, hwf, m, hl, hl'⟩
      exact ⟨m, ⟨hat, hwf, hl⟩, hl'⟩
    · rintro ⟨m, ⟨hat, hwf, hl⟩, hl'⟩
      exact ⟨hat, hwf, m, hl, hl'⟩

/-- Each record takes at least eight bytes. -/
theorem length_le (h : Tiles b o l q) : o + 8 * l.length ≤ q := by
  induction l generalizing o with
  | nil =>
    cases h
    exact le_rfl
  | cons e l ih =>
    have := ih h.2.2
    have := h.2.1.eight_le
    rw [List.length_cons]
    omega

theorem le (h : Tiles b o l q) : o ≤ q := (Nat.le_add_right _ _).trans h.length_le

theorem congr (h : Tiles b o l q) (hb : ∀ i, o ≤ i → i < q → b' i = b i) : Tiles b' o l q := by
  induction l generalizing o with
  | nil => exact h
  | cons e l ih =>
    obtain ⟨hat, hwf, hl⟩ := h
    have hq := Tiles.le hl
    have hlen := hwf.2
    exact ⟨hat.congr fun i hlo hhi => hb i hlo (by omega), hwf, ih hl fun i hlo hhi => hb i (by omega) hhi⟩

/-- The sizes of the records sum up to the bytes of the row. -/
theorem sum_size (h : Tiles b o l q) : o + (l.map DirEntry.size).sum = q := by
  induction l generalizing o with
  | nil => exact h
  | cons e l ih =>
    rw [List.map_cons, List.sum_cons, ← ih h.2.2]
    omega

theorem wellFormed (h : Tiles b o l q) : ∀ e ∈ l, e.WellFormed := by
  induction l generalizing o with
  | nil => exact fun e he => absurd he List.not_mem_nil
  | cons e l ih =>
    intro x hx
    rcases List.mem_cons.mp hx with rfl | hx
    · exact h.2.1
    · exact ih h.2.2 x hx

end Tiles

/-! ### The search of a name -/

namespace Ext2Directory

/-- The search passes records that have another name. -/
theorem traverseWalk_skip (h : Tiles b o l q) (hq : q ≤ blockSize) (hl : ∀ e ∈ l, ¬e.Named filename) (fuel : ℕ) :
    traverseWalk blockSize filename b (fuel + l.length) o = traverseWalk blockSize filename b fuel q := by
  induction l generalizing o with
  | nil =>
    cases h
    rfl
  | cons e l ih =>
    obtain ⟨hat, hwf, htail⟩ := h
    have hlt := htail.le
    have := hwf.eight_le
    have hname : ¬namedAt b o filename = true := by
      rw [hat.namedAt_iff]
      exact hl e List.mem_cons_self
    rw [List.length_cons, ← Nat.add_assoc, traverseWalk, if_neg (by omega), if_neg hname, hat.size]
    exact ih htail fun x hx => hl x (List.mem_cons_of_mem _ hx)

/-- The inode of the record with a name, or zero. -/
def findInode (filename : Filename) (l : List DirEntry) : ℕ :=
  ((l.find? fun e => e.Named filename).map DirEntry.inode).getD 0

theorem traverseWalk_eq (h : Tiles b 0 l blockSize) :
    traverseWalk blockSize filename b (blockSize + 1) 0 = .ok (findInode filename l) := by
  have hlen := h.length_le
  unfold findInode
  cases hfind : l.find? fun e => e.Named filename with
  | none =>
    have hl : ∀ e ∈ l, ¬e.Named filename := by simpa using hfind
    have hfuel : blockSize + 1 = (blockSize - l.length + 1) + l.length := by omega
    rw [hfuel, traverseWalk_skip h le_rfl hl, traverseWalk, if_pos le_rfl]
    rfl
  | some e =>
    obtain ⟨he, l₁, l₂, rfl, hl⟩ := List.find?_eq_some_iff_append.mp hfind
    obtain ⟨m, h₁, hat, hwf, h₂⟩ := Tiles.append_iff.mp h
    rw [List.length_append, List.length_cons] at hlen
    have hm := h₂.le
    have := hwf.eight_le
    have hfuel : blockSize + 1 = (blockSize - l₁.length + 1) + l₁.length := by omega
    have hname : namedAt b m filename = true := hat.namedAt_iff.mpr (by simpa using he)
    rw [hfuel, traverseWalk_skip h₁ (by omega) (by simpa using hl), traverseWalk, if_neg (by omega), if_pos hname,
      hat.inode]
    rfl

/-! ### The place for a name -/

/-- The walk passes records that have another name and no room. -/
theorem allocateWalk_skip {type inode : ℕ} (h : Tiles b o l q) (hq : q ≤ blockSize)
    (hl : ∀ e ∈ l, ¬e.Named filename ∧ ¬e.Room filename) (fuel : ℕ) :
    allocateWalk blockSize filename type inode b (fuel + l.length) o =
      allocateWalk blockSize filename type inode b fuel q := by
  induction l generalizing o with
  | nil =>
    cases h
    rfl
  | cons e l ih =>
    obtain ⟨hat, hwf, htail⟩ := h
    have hlt := htail.le
    have := hwf.eight_le
    obtain ⟨hother, hfull⟩ := hl e List.mem_cons_self
    have hname : ¬namedAt b o filename = true := by
      rw [hat.namedAt_iff]
      exact hother
    rw [List.length_cons, ← Nat.add_assoc, allocateWalk, if_neg (by omega), if_neg hname]
    simp only [hat.length, hat.size]
    unfold DirEntry.Room at hfull
    rw [if_neg hfull]
    exact ih htail fun x hx => hl x (List.mem_cons_of_mem _ hx)

end Ext2Directory

/-- A record without its slack. -/
def DirEntry.shrink (e : DirEntry) : DirEntry := { e with size := align4 (8 + e.filename.length) }

/-- A new record in the slack of an old one. -/
def DirEntry.behind (e : DirEntry) (type : ℕ) (filename : Filename) (inode : ℕ) : DirEntry where
  inode := inode
  size := e.size - align4 (8 + e.filename.length)
  type := type
  filename := filename

theorem Tiles.split {type inode : ℕ} (h : Tiles b o (e :: l) q) (hroom : e.Room filename) (htype : type < 256)
    (hname : filename.length < 256) (hinode : inode < 2 ^ 32) :
    Tiles (storeRecord (Bytes.writeNat b (o + 4) 2 (align4 (8 + e.filename.length))) (o + align4 (8 + e.filename.length))
      (e.size - align4 (8 + e.filename.length)) type filename inode) o
      (e.shrink :: e.behind type filename inode :: l) q := by
  obtain ⟨hat, hwf, htail⟩ := h
  have hlt := hat.size_lt
  have hold := le_align4 (8 + e.filename.length)
  have hnew := le_align4 (8 + filename.length)
  have hmod := align4_mod (8 + e.filename.length)
  have hsize := hwf.1
  unfold DirEntry.Room at hroom
  unfold DirEntry.shrink DirEntry.behind
  generalize align4 (8 + e.filename.length) = minForOld at *
  generalize align4 (8 + filename.length) = minForNew at *
  refine ⟨?_, ⟨hmod, hold⟩, storeRecord_isAt ⟨by omega, htype, hname, hinode⟩, ⟨?_, ?_⟩, ?_⟩
  · refine (hat.resize (n := minForOld) (by omega)).congr fun i hlo hhi => storeRecord_of_outside (Or.inl ?_)
    simp only at hhi
    omega
  · change (e.size - minForOld) % 4 = 0
    omega
  · change 8 + filename.length ≤ e.size - minForOld
    omega
  · change Tiles _ (o + minForOld + (e.size - minForOld)) l q
    rw [show o + minForOld + (e.size - minForOld) = o + e.size by omega]
    refine htail.congr fun i hlo hhi => ?_
    rw [storeRecord_of_outside (by omega), Bytes.writeNat_of_outside (by omega)]

/-- A change behind a place keeps the records before it. -/
theorem Tiles.replace {l₁ l₂ : List DirEntry} (h₁ : Tiles b o l₁ p) (h₂ : Tiles b' p l₂ q)
    (hb : ∀ i < p, b' i = b i) : Tiles b' o (l₁ ++ l₂) q :=
  Tiles.append_iff.mpr ⟨p, h₁.congr fun i _ hi => hb i hi, h₂⟩

namespace Ext2Directory

variable {l₁ l₂ : List DirEntry} {type inode : ℕ}

theorem allocateWalk_full (h : Tiles b 0 l blockSize) (hl : ∀ e ∈ l, ¬e.Named filename ∧ ¬e.Room filename) :
    allocateWalk blockSize filename type inode b (blockSize + 1) 0 = .ok .full := by
  have hlen := h.length_le
  have hfuel : blockSize + 1 = (blockSize - l.length + 1) + l.length := by omega
  rw [hfuel, allocateWalk_skip h le_rfl hl, allocateWalk, if_pos le_rfl]

theorem allocateWalk_present (h : Tiles b 0 (l₁ ++ e :: l₂) blockSize)
    (hl : ∀ e ∈ l₁, ¬e.Named filename ∧ ¬e.Room filename) (he : e.Named filename) :
    allocateWalk blockSize filename type inode b (blockSize + 1) 0 = .ok .present := by
  obtain ⟨m, h₁, hat, hwf, h₂⟩ := Tiles.append_iff.mp h
  have hlen := h₁.length_le
  have hm := h₂.le
  have := hwf.eight_le
  have hfuel : blockSize + 1 = (blockSize - l₁.length + 1) + l₁.length := by omega
  rw [hfuel, allocateWalk_skip h₁ (by omega) hl, allocateWalk, if_neg (by omega), if_pos (hat.namedAt_iff.mpr he)]

theorem allocateWalk_placed (h : Tiles b 0 (l₁ ++ e :: l₂) blockSize)
    (hl : ∀ e ∈ l₁, ¬e.Named filename ∧ ¬e.Room filename) (he : ¬e.Named filename) (hroom : e.Room filename)
    (htype : type < 256) (hname : filename.length < 256) (hinode : inode < 2 ^ 32) :
    ∃ b', allocateWalk blockSize filename type inode b (blockSize + 1) 0 = .ok (.placed b') ∧
      Tiles b' 0 (l₁ ++ e.shrink :: e.behind type filename inode :: l₂) blockSize := by
  obtain ⟨m, h₁, h₂⟩ := Tiles.append_iff.mp h
  have hsplit := h₂.split hroom htype hname hinode
  obtain ⟨hat, hwf, htail⟩ := h₂
  have hlen := h₁.length_le
  have hm := htail.le
  have := hwf.eight_le
  have hfuel : blockSize + 1 = (blockSize - l₁.length + 1) + l₁.length := by omega
  refine ⟨_, ?_, h₁.replace hsplit fun i hi => ?_⟩
  · rw [hfuel, allocateWalk_skip h₁ (by omega) hl, allocateWalk, if_neg (by omega),
      if_neg (mt hat.namedAt_iff.mp he)]
    simp only [hat.length, hat.size]
    exact if_pos hroom
  · rw [storeRecord_of_outside (by omega), Bytes.writeNat_of_outside (by omega)]

/-! ### The removal of a name -/

/-- The place of the last record of a row, or that of the record before it. -/
def lastPlace : ℕ → List DirEntry → ℕ → ℕ
  | _, [], before => before
  | o, e :: l, _ => lastPlace (o + e.size) l o

/-- The walk passes records that have another name. -/
theorem removeWalk_skip (h : Tiles b o l q) (hq : q ≤ blockSize) (hl : ∀ e ∈ l, ¬e.Named filename)
    (fuel before : ℕ) (ret : Bool) :
    removeWalk blockSize filename (fuel + l.length) b o before ret =
      removeWalk blockSize filename fuel b q (lastPlace o l before) ret := by
  induction l generalizing o before with
  | nil =>
    cases h
    rfl
  | cons e l ih =>
    obtain ⟨hat, hwf, htail⟩ := h
    have hlt := htail.le
    have := hwf.eight_le
    have hname : ¬namedAt b o filename = true := by
      rw [hat.namedAt_iff]
      exact hl e List.mem_cons_self
    rw [List.length_cons, ← Nat.add_assoc, removeWalk, if_neg (by omega), if_neg hname, hat.size]
    exact ih htail (fun x hx => hl x (List.mem_cons_of_mem _ hx)) o

theorem lastPlace_append (o : ℕ) (l : List DirEntry) (e : DirEntry) (before : ℕ) :
    lastPlace o (l ++ [e]) before = o + (l.map DirEntry.size).sum := by
  induction l generalizing o before with
  | nil => rfl
  | cons x l ih =>
    rw [List.cons_append, lastPlace, ih, List.map_cons, List.sum_cons, Nat.add_assoc]

theorem removeWalk_absent (h : Tiles b o l blockSize) (hl : ∀ e ∈ l, ¬e.Named filename) {fuel before : ℕ} {ret : Bool}
    (hfuel : l.length < fuel) : removeWalk blockSize filename fuel b o before ret = .ok (b, ret) := by
  obtain ⟨n, rfl⟩ : ∃ n, fuel = n + 1 + l.length := ⟨fuel - l.length - 1, by omega⟩
  rw [removeWalk_skip h le_rfl hl, removeWalk, if_pos le_rfl]

/-- The record at the start of a block is cleared. -/
theorem removeWalk_first (h : Tiles b 0 (e :: l) blockSize) (he : e.Named filename)
    (hl : ∀ e ∈ l, ¬e.Named filename) :
    ∃ b', removeWalk blockSize filename (blockSize + 1) b 0 0 false = .ok (b', true) ∧
      Tiles b' 0 ({ e with inode := 0, filename := [] } :: l) blockSize := by
  have hlen := h.length_le
  obtain ⟨hat, hwf, htail⟩ := h
  have hm := htail.le
  have := hwf.eight_le
  rw [List.length_cons] at hlen
  have hkept : Tiles (Bytes.writeNat (Bytes.writeNat b 0 4 0) (0 + 6) 1 0) (0 + e.size) l blockSize :=
    htail.congr fun i hlo hhi => by
      rw [Bytes.writeNat_of_outside (by omega), Bytes.writeNat_of_outside (by omega)]
  refine ⟨_, ?_, hat.clear, ⟨hwf.1, this⟩, hkept⟩
  rw [removeWalk, if_neg (by omega), if_pos (hat.namedAt_iff.mpr he), if_pos rfl]
  dsimp only
  rw [hat.clear.size]
  exact removeWalk_absent hkept hl (by omega)

/-- Another record goes to the slack of the one before it. -/
theorem removeWalk_merge {before : DirEntry} (h : Tiles b 0 (l₁ ++ before :: e :: l₂) blockSize)
    (hl₁ : ∀ e ∈ l₁, ¬e.Named filename) (hbefore : ¬before.Named filename) (he : e.Named filename)
    (hl₂ : ∀ e ∈ l₂, ¬e.Named filename) (hsize : blockSize < 2 ^ 16) :
    ∃ b', removeWalk blockSize filename (blockSize + 1) b 0 0 false = .ok (b', true) ∧
      Tiles b' 0 (l₁ ++ { before with size := before.size + e.size } :: l₂) blockSize := by
  have hlen := h.length_le
  rw [List.length_append, List.length_cons, List.length_cons] at hlen
  obtain ⟨m, h₁, hbat, hbwf, hat, hwf, h₂⟩ := Tiles.append_iff.mp h
  have hm := h₂.le
  have hb := hbwf.2
  have hbmod := hbwf.1
  have hmod := hwf.1
  have := hwf.eight_le
  have hlast : lastPlace 0 (l₁ ++ [before]) 0 = m := by
    rw [lastPlace_append, h₁.sum_size]
  have hprefix : Tiles b 0 (l₁ ++ [before]) (m + before.size) := Tiles.append_iff.mpr ⟨m, h₁, hbat, hbwf, rfl⟩
  have hothers : ∀ x ∈ l₁ ++ [before], ¬x.Named filename := by
    intro x hx
    rcases List.mem_append.mp hx with hx | hx
    · exact hl₁ x hx
    · rw [List.mem_singleton.mp hx]
      exact hbefore
  have hkept : Tiles (Bytes.writeNat b (m + 4) 2 (before.size + e.size)) (m + before.size + e.size) l₂ blockSize :=
    h₂.congr fun i hlo hhi => Bytes.writeNat_of_outside (by omega)
  have hfuel : blockSize + 1 = (blockSize - (l₁ ++ [before]).length + 1) + (l₁ ++ [before]).length := by
    rw [List.length_append, List.length_singleton]
    omega
  have hsame : sizeAt (Bytes.writeNat b (m + 4) 2 (before.size + e.size)) (m + before.size) = e.size :=
    (hat.congr fun i hlo hhi => Bytes.writeNat_of_outside (by omega)).size
  refine ⟨Bytes.writeNat b (m + 4) 2 (before.size + e.size), ?_, ?_⟩
  · rw [hfuel, removeWalk_skip hprefix (by omega) hothers, removeWalk, if_neg (by omega),
      if_pos (hat.namedAt_iff.mpr he), if_neg (by omega), hlast, hbat.size, hat.size]
    dsimp only
    rw [hsame]
    refine removeWalk_absent hkept hl₂ ?_
    rw [List.length_append, List.length_singleton]
    omega
  · refine h₁.replace ⟨hbat.resize (by omega), ⟨?_, ?_⟩, ?_⟩ fun i hi => Bytes.writeNat_of_outside (by omega)
    · change (before.size + e.size) % 4 = 0
      omega
    · change 8 + before.filename.length ≤ before.size + e.size
      omega
    · rw [← Nat.add_assoc]
      exact hkept

end Ext2Directory

end DualFuse.Filesystems
