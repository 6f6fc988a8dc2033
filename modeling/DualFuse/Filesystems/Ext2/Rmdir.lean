import DualFuse.Filesystems.Ext2.NamespaceRuns

/-! The check of `ext2Delete` that a directory is empty. It counts the records of the first
block only: a name of more than two bytes, or a record behind two live ones, is taken for
an entry. So the later blocks do not count, and free records do. -/

namespace DualFuse.Filesystems

open Library

section Rows
variable {blockSize i o fuel : ℕ} {b : Block} {e : DirEntry} {l : List DirEntry}

/-- With `i` live records before the row, some record of it has a long name or stands behind
two live ones. -/
def Shows (i : ℕ) (l : List DirEntry) : Prop :=
  ∃ l₁ e l₂, l = l₁ ++ e :: l₂ ∧ (2 < e.filename.length ∨ 1 < i + (liveEntries l₁).length)

theorem not_shows_nil : ¬Shows i [] := by
  rintro ⟨l₁, e, l₂, heq, -⟩
  cases l₁ <;> cases heq

theorem shows_cons : Shows i (e :: l) ↔
    (2 < e.filename.length ∨ 1 < i) ∨ Shows (if e.inode ≠ 0 then i + 1 else i) l := by
  have hcount (l₁ : List DirEntry) : (if e.inode ≠ 0 then i + 1 else i) + (liveEntries l₁).length =
      i + (liveEntries (e :: l₁)).length := by
    by_cases hfree : e.inode = 0
    · simp [hfree, liveEntries_cons_of_free]
    · rw [if_pos hfree, liveEntries_cons hfree, List.length_cons]
      omega
  constructor
  · rintro ⟨l₁, x, l₂, heq, hx⟩
    cases l₁ with
    | nil =>
      cases heq
      exact Or.inl hx
    | cons y l₁ =>
      cases heq
      exact Or.inr ⟨l₁, x, l₂, rfl, by rw [hcount]; exact hx⟩
  · rintro (hstop | ⟨l₁, x, l₂, rfl, hx⟩)
    · exact ⟨[], e, l, rfl, hstop⟩
    · exact ⟨e :: l₁, x, l₂, rfl, by rw [← hcount]; exact hx⟩

instance Shows.decidable : (i : ℕ) → (l : List DirEntry) → Decidable (Shows i l)
  | _, [] => isFalse not_shows_nil
  | i, e :: l =>
    have := Shows.decidable (if e.inode ≠ 0 then i + 1 else i) l
    decidable_of_iff _ shows_cons.symm

/-- The walk says if the row shows an entry. -/
theorem emptyWalk_eq (h : Tiles b o l blockSize) (hfuel : l.length < fuel) (i : ℕ) :
    ∃ r, Ext2Names.emptyWalk blockSize b fuel o i = .ok r ∧ (r = true ↔ ¬Shows i l) := by
  induction l generalizing o fuel i with
  | nil =>
    obtain ⟨m, rfl⟩ : ∃ m, fuel = m + 1 := ⟨fuel - 1, by simp at hfuel; omega⟩
    exact ⟨true, by rw [Ext2Names.emptyWalk, if_pos (Eq.ge h)], by simp [not_shows_nil]⟩
  | cons e l ih =>
    obtain ⟨hat, hwf, htail⟩ := h
    have hle := htail.le
    have := hwf.eight_le
    rw [List.length_cons] at hfuel
    obtain ⟨m, rfl⟩ : ∃ m, fuel = m + 1 := ⟨fuel - 1, by omega⟩
    rw [Ext2Names.emptyWalk, if_neg (by omega), hat.length, hat.size, hat.inode, shows_cons]
    by_cases hstop : 2 < e.filename.length ∨ 1 < i
    · exact ⟨false, if_pos hstop, by simp [hstop]⟩
    · rw [if_neg hstop]
      have hm : l.length < m := by omega
      obtain ⟨r, heq, hr⟩ := ih htail hm (if e.inode ≠ 0 then i + 1 else i)
      exact ⟨r, heq, by rw [hr]; simp [hstop]⟩

end Rows

theorem SanitizedPath.length_bytes (filename : SanitizedPath) :
    filename.bytes.length = 1 ↔ filename.components = [] := by
  obtain ⟨cs, hclean⟩ := filename
  unfold SanitizedPath.bytes
  cases cs with
  | nil => simp
  | cons c cs =>
    have hc := List.length_pos_iff.mpr (hclean c List.mem_cons_self).1
    rw [if_neg (by simp), List.flatMap_cons, List.length_append, List.length_cons]
    refine iff_of_false ?_ (by simp)
    omega

namespace Ext2Names

variable {v : Ext2Names} {n d : ℕ}

/-- The live entries of the directory are `.` and `..`. -/
def OnlyDots (v : Ext2Names) (n : ℕ) : Prop := ((v.live n).map Prod.fst).Perm [dot, dotdot]

instance (v : Ext2Names) (n : ℕ) : Decidable (v.OnlyDots n) := inferInstanceAs (Decidable (List.Perm _ _))

/-- The records of the first block. -/
def firstRecords (v : Ext2Names) (n : ℕ) : List DirEntry := records v.blockSize ((v.directory n).take 1)

/-- An empty directory is removed, and any other is refused with nothing changed. -/
def RemovesOnlyEmpty (v : Ext2Names) (filename : SanitizedPath) (openFds : Bool) (n : ℕ) : Prop :=
  (v.OnlyDots n → ∃ w, v.ext2Delete filename.bytes true openFds = .ok (w, .success)) ∧
    (¬v.OnlyDots n → v.ext2Delete filename.bytes true openFds = .ok (v, .enotempty))

theorem isEmpty_eq (h : v.Consistent) (hd : v.IsDir d) :
    ∃ r, v.isEmpty d = .ok r ∧ (r = true ↔ ¬Shows 0 (v.firstRecords d)) := by
  obtain ⟨-, type, hself⟩ := mem_links.mp (h.valid.self d hd)
  obtain ⟨rows, htiled⟩ := h.tiled d hd
  unfold isEmpty firstRecords
  cases hblocks : v.directory d with
  | nil =>
    rw [live_eq_nil hblocks] at hself
    cases hself
  | cons b blocks =>
    rw [hblocks] at htiled
    obtain ⟨row, rows, hrow, -, rfl⟩ := List.forall₂_cons_left_iff.mp htiled
    have hlen := hrow.length_le
    have hfuel : row.length < v.blockSize + 1 := by omega
    have hrecords : records v.blockSize ((b :: blocks).take 1) = row := by
      simp [records, recordsFrom_eq hrow hfuel]
    rw [hrecords]
    exact emptyWalk_eq hrow hfuel 0

theorem OnlyDots.names (h : v.OnlyDots n) : ∀ x ∈ v.tree.links, x.dir = n → x.name = dot ∨ x.name = dotdot := by
  rintro x hx rfl
  obtain ⟨-, type, hlive⟩ := mem_links.mp hx
  have hmem := h.mem_iff.mp (List.mem_map_of_mem (f := Prod.fst) hlive)
  simpa using hmem

/-- Behind the check nothing is refused for its entries. -/
theorem deleteFrom_ne_enotempty (v w : Ext2Names) (path : Path) (n : ℕ) :
    v.deleteFrom path n ≠ .ok (w, .enotempty) := by
  intro h
  unfold deleteFrom at h
  obtain ⟨p, -, h⟩ := Exec.bind_ok_iff.mp h
  split_ifs at h
  unfold removeName at h
  obtain ⟨x, -, h⟩ := Exec.bind_ok_iff.mp h
  obtain ⟨⟨u, ret⟩, -, h⟩ := Exec.bind_ok_iff.mp h
  cases ret <;> cases h

/-- What the call does once the directory is found and not in use. -/
theorem ext2Delete_eq {filename : SanitizedPath} (hn : v.ext2TraversePath filename.bytes false = .ok n)
    (hdir : v.IsDir n) : v.ext2Delete filename.bytes true false =
      if filename.components = [] then .ok (v, .enotempty)
      else v.isEmpty n >>= fun empty => if !empty then .ok (v, .enotempty) else v.deleteFrom filename.bytes n := by
  have hn0 : n ≠ 0 := by
    have := hdir.1.1.1
    omega
  rw [ext2Delete, hn, Exec.ok_bind, if_neg hn0, if_neg Bool.false_ne_true, if_neg (by simp [hdir.2]), if_neg (by simp)]
  simp only [SanitizedPath.length_bytes, if_true, mayGo]

/-- The first block tells if the directory is empty, unless it is the root. -/
theorem removesOnlyEmpty_iff (h : v.Consistent) (filename : SanitizedPath) (openFds : Bool)
    (hn : v.ext2TraversePath filename.bytes false = .ok n) (hdir : v.IsDir n) :
    v.RemovesOnlyEmpty filename openFds n ↔
      openFds = false ∧ (v.OnlyDots n ↔ filename.components ≠ [] ∧ ¬Shows 0 (v.firstRecords n)) := by
  have hn0 : n ≠ 0 := by
    have := hdir.1.1.1
    omega
  cases openFds with
  | true =>
    have hassert : v.ext2Delete filename.bytes true true = .error .assertion := by
      rw [ext2Delete, hn, Exec.ok_bind, if_neg hn0, if_pos rfl]
    simp [RemovesOnlyEmpty, hassert]
  | false =>
    have hcall := ext2Delete_eq hn hdir
    unfold RemovesOnlyEmpty
    by_cases hroot : filename.components = []
    · rw [if_pos hroot] at hcall
      simp [hcall, hroot]
    rw [if_neg hroot] at hcall
    obtain ⟨r, hwalk, hr⟩ := isEmpty_eq h hdir
    rw [hwalk, Exec.ok_bind] at hcall
    cases r with
    | false =>
      have hshows : Shows 0 (v.firstRecords n) := by
        by_contra hnot
        exact absurd (hr.mpr hnot) (by simp)
      have hcall : v.ext2Delete filename.bytes true false = .ok (v, .enotempty) := hcall
      simp [hcall, hshows]
    | true =>
      have hshows := hr.mp rfl
      have hcall : v.ext2Delete filename.bytes true false = v.deleteFrom filename.bytes n := hcall
      have hsplit : ∃ pre, Splits filename.bytes pre filename.name := by
        apply filename.splits.resolve_left
        intro hc
        exact hroot (filename.length_bytes.mp (by rw [hc]; rfl))
      obtain ⟨pre, hsplit⟩ := hsplit
      constructor
      · rintro ⟨-, hrefused⟩
        refine ⟨rfl, iff_of_true ?_ ⟨hroot, hshows⟩⟩
        by_contra hnot
        rw [hcall] at hrefused
        exact deleteFrom_ne_enotempty _ _ _ _ (hrefused hnot)
      · rintro ⟨-, hiff⟩
        have honly := hiff.mpr ⟨hroot, hshows⟩
        obtain ⟨u, heq, -⟩ := h.deleteFrom_ok hsplit hn hn0 fun _ => honly.names
        exact ⟨fun _ => ⟨u, hcall.trans heq⟩, fun hnot => absurd honly hnot⟩

/-! ### An entry in the second block -/

/-- Consistency sees the live entries of a directory, not the blocks that hold them. -/
theorem Consistent.replaceBlocks (h : v.Consistent) {blocks : List Block}
    (htiled : ∃ rows, Tiled v.blockSize blocks rows) (hlive : liveEntries (records v.blockSize blocks) = v.live d) :
    { v with directory := Function.update v.directory d blocks }.Consistent := by
  let w : Ext2Names := { v with directory := Function.update v.directory d blocks }
  have hmarks : SameMarks v w := ⟨rfl, rfl, rfl, rfl, rfl⟩
  have hisDir : ∀ x, w.IsDir x ↔ v.IsDir x := fun x => hmarks.isDir_iff rfl
  have hlives : ∀ x, w.live x = v.live x := by
    intro x
    change liveEntries (records v.blockSize (Function.update v.directory d blocks x)) = _
    rcases eq_or_ne x d with rfl | hne
    · rw [Function.update_self, hlive]
    · rw [Function.update_of_ne hne]
      rfl
  have htree : w.tree = v.tree := by
    apply NameTree.ext
    · exact Set.ext fun x => hmarks.used_iff
    · exact Set.ext hisDir
    · rfl
    · rw [links_eq, links_eq, hmarks.inodeCount]
      apply Finset.sum_congr rfl
      intro x _
      unfold linksOf
      simp only [hisDir, hlives]
  refine ⟨⟨h.size, hmarks.numbered h.numbered, ?_, h.field⟩, ?_⟩
  · intro x hx
    change ∃ rows, Tiled v.blockSize (Function.update v.directory d blocks x) rows
    rcases eq_or_ne x d with rfl | hne
    · rw [Function.update_self]
      exact htiled
    · rw [Function.update_of_ne hne]
      exact h.tiled x ((hisDir x).mp hx)
  · change w.tree.Valid rootInode dot dotdot v.Ordinary
    rw [htree]
    exact h.valid

/-- A file system with the directory `/d` and the file `/d/f`. -/
def filledNames : Ext2Names :=
  match run step sampleNames (sampleNameCalls.take 2) with
  | .ok v => v
  | .error _ => sampleNames

theorem filledNames_consistent : filledNames.Consistent := by
  have hguard : Guarded step Guard sampleNames (sampleNameCalls.take 2) := by decide +kernel
  have hmeets := run_meets_of_guarded (fun _ call h hg => h.step_meets call hg) sampleNames_consistent hguard
  unfold filledNames
  cases hrun : run step sampleNames (sampleNameCalls.take 2) with
  | error e => exact sampleNames_consistent
  | ok v =>
    rw [hrun] at hmeets
    exact hmeets

theorem removesOnlyEmpty_sample : filledNames.RemovesOnlyEmpty dirD false 12 :=
  (removesOnlyEmpty_iff filledNames_consistent dirD false (by decide +kernel) (by decide +kernel)).mpr
    ⟨rfl, by decide +kernel⟩

/-- The directory as a history of names leaves it that filled its first block: the file is
in the second one. -/
def splitNames : Ext2Names :=
  { filledNames with
    directory := Function.update filledNames.directory 12
      [Ext2Directory.storeRecord (Ext2Directory.storeRecord (fun _ => 0) 0 12 2 dot 12) 12 1012 2 dotdot 2,
        Ext2Directory.storeRecord (fun _ => 0) 0 1024 1 [102] 13] }

theorem splitNames_consistent : splitNames.Consistent := by
  apply filledNames_consistent.replaceBlocks
  · refine ⟨[[⟨12, 12, 2, dot⟩, ⟨2, 1012, 2, dotdot⟩], [⟨13, 1024, 1, [102]⟩]], .cons ?_ (.cons ?_ .nil)⟩
    · decide +kernel
    · decide +kernel
  · decide +kernel

theorem second_block_not_seen : splitNames.Consistent ∧
    splitNames.ext2TraversePath dirD.bytes false = .ok 12 ∧ splitNames.IsDir 12 ∧
    ¬splitNames.RemovesOnlyEmpty dirD false 12 := by
  refine ⟨splitNames_consistent, by decide +kernel, by decide +kernel, ?_⟩
  rintro ⟨-, hrefused⟩
  have hnot : ¬splitNames.OnlyDots 12 := by decide +kernel
  have hremoved : Exec.Meets (fun _ => False) (fun r => r.2 = .success) (splitNames.ext2Delete dirD.bytes true false) := by
    decide +kernel
  rw [hrefused hnot] at hremoved
  cases hremoved

end Ext2Names

end DualFuse.Filesystems
