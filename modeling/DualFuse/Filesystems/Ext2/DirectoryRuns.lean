import DualFuse.Filesystems.Ext2.DirectoryRecords
import DualFuse.Library.Listing

/-! A directory as a finite map. The live records of the blocks list the map from names to
inodes and types; additions and removals change it as they should, and `ext2Traverse`
reads it. An addition stops at the first record with room for the name, so that it does
not see the name behind it. -/

namespace DualFuse.Filesystems

open Library Ext2Directory

/-- The blocks are rows of records. -/
def Tiled (blockSize : ℕ) (blocks : List Block) (rows : List (List DirEntry)) : Prop :=
  List.Forall₂ (fun b l => Tiles b 0 l blockSize) blocks rows

/-- The live records: name, inode and type. -/
def liveEntries (l : List DirEntry) : List (Filename × ℕ × ℕ) :=
  (l.filter fun e => e.inode ≠ 0).map fun e => (e.filename, e.inode, e.type)

/-- The blocks hold the entries of the map. -/
def Represents (blockSize : ℕ) (blocks : List Block) (entries : Filename → Option (ℕ × ℕ)) : Prop :=
  ∃ rows, Tiled blockSize blocks rows ∧ Listing (liveEntries rows.flatten) entries

variable {blockSize type inode : ℕ} {blocks : List Block} {rows : List (List DirEntry)} {e : DirEntry}
  {l l₁ l₂ : List DirEntry} {filename : Filename} {entries : Filename → Option (ℕ × ℕ)}

/-! ### Live records -/

@[simp] theorem liveEntries_append (l₁ l₂ : List DirEntry) :
    liveEntries (l₁ ++ l₂) = liveEntries l₁ ++ liveEntries l₂ := by
  rw [liveEntries, List.filter_append, List.map_append]
  rfl

theorem liveEntries_cons (h : e.inode ≠ 0) (l : List DirEntry) :
    liveEntries (e :: l) = (e.filename, e.inode, e.type) :: liveEntries l := by
  rw [liveEntries, List.filter_cons_of_pos (by simpa using h)]
  rfl

theorem liveEntries_cons_of_free (h : e.inode = 0) (l : List DirEntry) : liveEntries (e :: l) = liveEntries l := by
  rw [liveEntries, List.filter_cons_of_neg (by simpa using h)]
  rfl

theorem mem_names_liveEntries : filename ∈ (liveEntries l).map Prod.fst ↔ ∃ e ∈ l, e.Named filename := by
  simp only [liveEntries, List.map_map, List.mem_map, List.mem_filter, Function.comp_apply, decide_eq_true_eq]
  constructor
  · rintro ⟨e, ⟨he, hlive⟩, rfl⟩
    exact ⟨e, he, hlive, rfl⟩
  · rintro ⟨e, he, hlive, rfl⟩
    exact ⟨e, ⟨he, hlive⟩, rfl⟩

/-- The size of a record is not part of its entry. -/
theorem liveEntries_resize (e : DirEntry) (n : ℕ) (l : List DirEntry) :
    liveEntries ({ e with size := n } :: l) = liveEntries (e :: l) := by
  by_cases h : e.inode = 0
  · rw [liveEntries_cons_of_free h]
    exact liveEntries_cons_of_free (e := { e with size := n }) h l
  · rw [liveEntries_cons h]
    exact liveEntries_cons (e := { e with size := n }) h l

/-- In a directory of a map a name has at most one record. -/
theorem unique_of_listing (h : (liveEntries l).map Prod.fst |>.Nodup) :
    l.Pairwise fun a b => ¬(a.Named filename ∧ b.Named filename) := by
  induction l with
  | nil => exact List.Pairwise.nil
  | cons e l ih =>
    by_cases hfree : e.inode = 0
    · rw [liveEntries_cons_of_free hfree] at h
      exact List.pairwise_cons.mpr ⟨fun b _ hb => hb.1.1 hfree, ih h⟩
    · rw [liveEntries_cons hfree, List.map_cons, List.nodup_cons] at h
      refine List.pairwise_cons.mpr ⟨fun b hb hboth => h.1 ?_, ih h.2⟩
      obtain ⟨⟨-, rfl⟩, hb'⟩ := hboth
      exact mem_names_liveEntries.mpr ⟨b, hb, hb'⟩

/-! ### The search -/

namespace Ext2Directory

theorem findInode_append (l₁ l₂ : List DirEntry) :
    findInode filename (l₁ ++ l₂) = if findInode filename l₁ ≠ 0 then findInode filename l₁ else findInode filename l₂ := by
  unfold findInode
  rw [List.find?_append]
  cases h : l₁.find? fun e => e.Named filename with
  | none => simp
  | some e =>
    have he : e.Named filename := by simpa using List.find?_some h
    simp [he.1]

theorem ext2Traverse_eq (h : Tiled blockSize blocks rows) :
    ext2Traverse blockSize filename blocks = .ok (findInode filename rows.flatten) := by
  induction h with
  | nil => rfl
  | @cons b l blocks rows hb _ ih =>
    rw [ext2Traverse, traverseWalk_eq hb, Exec.ok_bind, List.flatten_cons, findInode_append, ih]
    split_ifs <;> rfl

theorem findInode_eq (h : Listing (liveEntries l) entries) :
    findInode filename l = ((entries filename).map Prod.fst).getD 0 := by
  unfold findInode
  cases hfind : l.find? fun e => e.Named filename with
  | none =>
    have hnone : entries filename = none := by
      rw [h.eq_none_iff, mem_names_liveEntries]
      rintro ⟨e, he, hnamed⟩
      have := List.find?_eq_none.mp hfind e he
      simp [hnamed] at this
    rw [hnone]
    rfl
  | some e =>
    have hnamed : e.Named filename := by simpa using List.find?_some hfind
    have hmem : (filename, e.inode, e.type) ∈ liveEntries l := by
      refine List.mem_map.mpr ⟨e, List.mem_filter.mpr ⟨List.mem_of_find?_eq_some hfind, by simpa using hnamed.1⟩, ?_⟩
      rw [hnamed.2]
    rw [(h.mem_iff _ _).mpr hmem]
    rfl

end Ext2Directory

/-- The search reads the map. -/
theorem Represents.traverse (h : Represents blockSize blocks entries) (filename : Filename) :
    ext2Traverse blockSize filename blocks = .ok (((entries filename).map Prod.fst).getD 0) := by
  obtain ⟨rows, htiled, hlist⟩ := h
  rw [ext2Traverse_eq htiled, findInode_eq hlist]

/-! ### An addition -/

/-- The first record that has the name or room for it. -/
def firstStop (filename : Filename) (l : List DirEntry) : Option DirEntry :=
  l.find? fun e => e.Named filename ∨ e.Room filename

theorem firstStop_eq_none_iff : firstStop filename l = none ↔ ∀ e ∈ l, ¬e.Named filename ∧ ¬e.Room filename := by
  simp [firstStop]

theorem firstStop_eq_some_iff : firstStop filename l = some e ↔ (e.Named filename ∨ e.Room filename) ∧
    ∃ l₁ l₂, l = l₁ ++ e :: l₂ ∧ ∀ x ∈ l₁, ¬x.Named filename ∧ ¬x.Room filename := by
  rw [firstStop, List.find?_eq_some_iff_append]
  simp

/-- The arguments of an addition fit their fields. -/
structure Addition (filename : Filename) (type inode : ℕ) : Prop where
  nonempty : 1 ≤ filename.length
  length : filename.length ≤ 255
  type : type < 256
  live : inode ≠ 0
  inode : inode < 2 ^ 32

instance (filename : Filename) (type inode : ℕ) : Decidable (Addition filename type inode) :=
  decidable_of_iff (1 ≤ filename.length ∧ filename.length ≤ 255 ∧ type < 256 ∧ inode ≠ 0 ∧ inode < 2 ^ 32)
    ⟨fun ⟨h₁, h₂, h₃, h₄, h₅⟩ => ⟨h₁, h₂, h₃, h₄, h₅⟩, fun h => ⟨h.1, h.2, h.3, h.4, h.5⟩⟩

namespace Ext2Directory

theorem allocateBlocks_none (h : Tiled blockSize blocks rows)
    (hnone : ∀ e ∈ rows.flatten, ¬e.Named filename ∧ ¬e.Room filename) :
    allocateBlocks blockSize filename type inode blocks = .ok none := by
  induction h with
  | nil => rfl
  | @cons b l blocks rows hb _ ih =>
    rw [List.flatten_cons] at hnone
    have hl := fun e he => hnone e (List.mem_append_left _ he)
    rw [allocateBlocks, allocateWalk_full hb hl, Exec.ok_bind]
    simp only
    rw [ih fun e he => hnone e (List.mem_append_right _ he)]
    rfl

/-- What an addition does at the first record that has the name or room for it. -/
theorem allocateBlocks_some (h : Tiled blockSize blocks rows) (hadd : Addition filename type inode)
    (hstop : firstStop filename rows.flatten = some e) :
    e.Named filename ∧ allocateBlocks blockSize filename type inode blocks = .ok (some (blocks, false)) ∨
    ¬e.Named filename ∧ ∃ blocks' rows' l₁ l₂,
      allocateBlocks blockSize filename type inode blocks = .ok (some (blocks', true)) ∧
      Tiled blockSize blocks' rows' ∧ rows.flatten = l₁ ++ e :: l₂ ∧
      rows'.flatten = l₁ ++ e.shrink :: e.behind type filename inode :: l₂ := by
  induction h with
  | nil => cases hstop
  | @cons b l blocks rows hb htail ih =>
    rw [List.flatten_cons, firstStop, List.find?_append] at hstop
    change (firstStop filename l).or (firstStop filename rows.flatten) = some e at hstop
    rw [allocateBlocks]
    cases hl : firstStop filename l with
    | none =>
      -- the row has neither the name nor room for it
      rw [hl, Option.none_or] at hstop
      rw [allocateWalk_full hb (firstStop_eq_none_iff.mp hl), Exec.ok_bind]
      rcases ih hstop with ⟨he, heq⟩ | ⟨he, blocks', rows', l₁, l₂, heq, htiled, hl, hl'⟩
      · refine Or.inl ⟨he, ?_⟩
        simp only
        rw [heq]
        rfl
      · refine Or.inr ⟨he, b :: blocks', l :: rows', l ++ l₁, l₂, ?_, .cons hb htiled, ?_, ?_⟩
        · simp only
          rw [heq]
          rfl
        · rw [List.flatten_cons, hl, List.append_assoc]
        · rw [List.flatten_cons, hl', List.append_assoc]
    | some x =>
      rw [hl, Option.some_or] at hstop
      cases hstop
      obtain ⟨hx, l₁, l₂, rfl, hpre⟩ := firstStop_eq_some_iff.mp hl
      by_cases he : e.Named filename
      · refine Or.inl ⟨he, ?_⟩
        rw [allocateWalk_present hb hpre he]
        rfl
      · have hroom := hx.resolve_left he
        obtain ⟨b', hwalk, hb'⟩ := allocateWalk_placed hb hpre he hroom hadd.type
          (Nat.lt_succ_of_le hadd.length) hadd.inode
        refine Or.inr ⟨he, b' :: blocks, (l₁ ++ e.shrink :: e.behind type filename inode :: l₂) :: rows, l₁,
          l₂ ++ rows.flatten, ?_, .cons hb' htail, ?_, ?_⟩
        · rw [hwalk]
          rfl
        · simp
        · simp

end Ext2Directory

/-- The new record is in the map. -/
theorem listing_split (h : Listing (liveEntries (l₁ ++ e :: l₂)) entries) (hnone : entries filename = none)
    (hlive : inode ≠ 0) :
    Listing (liveEntries (l₁ ++ e.shrink :: e.behind type filename inode :: l₂))
      (Function.update entries filename (some (inode, type))) := by
  have hold : liveEntries (l₁ ++ e.shrink :: e.behind type filename inode :: l₂) =
      liveEntries (l₁ ++ [e]) ++ (filename, inode, type) :: liveEntries l₂ := by
    have hnew : liveEntries (e.behind type filename inode :: l₂) = (filename, inode, type) :: liveEntries l₂ :=
      liveEntries_cons hlive l₂
    rw [List.append_cons, liveEntries_append, hnew, liveEntries_append, liveEntries_append]
    congr 2
    exact liveEntries_resize e _ []
  rw [hold]
  rw [List.append_cons, liveEntries_append] at h
  exact h.insert hnone

theorem Represents.nil : Represents blockSize [] fun _ => none := ⟨[], .nil, Listing.nil⟩

theorem Represents.add_new (h : Represents blockSize blocks entries) (hadd : Addition filename type inode)
    (hnone : entries filename = none) (hsize : blockSize < 2 ^ 16) (hmod : blockSize % 4 = 0)
    (hroom : 8 + filename.length ≤ blockSize) (b : Block) :
    Represents blockSize (blocks ++ [storeRecord b 0 blockSize type filename inode])
      (Function.update entries filename (some (inode, type))) := by
  obtain ⟨rows, htiled, hlist⟩ := h
  refine ⟨rows ++ [[⟨inode, blockSize, type, filename⟩]], List.rel_append htiled (.cons ?_ .nil), ?_⟩
  · have hfits : Fits blockSize type filename inode :=
      ⟨hsize, hadd.type, Nat.lt_succ_of_le hadd.length, hadd.inode⟩
    exact ⟨storeRecord_isAt hfits, ⟨hmod, hroom⟩, Nat.zero_add _⟩
  · rw [List.flatten_append, liveEntries_append]
    change Listing (_ ++ liveEntries (_ :: [])) _
    rw [liveEntries_cons hadd.live]
    rw [← List.append_nil (liveEntries rows.flatten)] at hlist
    exact hlist.insert hnone

/-- The name is not there, or no record before it has room for it. -/
def Unshadowed (filename : Filename) (l : List DirEntry) : Prop :=
  (∃ e ∈ l, e.Named filename) → ∀ e ∈ firstStop filename l, e.Named filename

instance (filename : Filename) (l : List DirEntry) : Decidable (Unshadowed filename l) :=
  inferInstanceAs (Decidable (_ → _))

/-- Blocks with room for every name whose sizes fit the 16 bits of a record. -/
structure BlockSize (blockSize : ℕ) : Prop where
  aligned : blockSize % 4 = 0
  enough : 264 ≤ blockSize
  fits : blockSize < 2 ^ 16

theorem eq_none_iff_absent (h : Listing (liveEntries l) entries) :
    entries filename = none ↔ ¬∃ e ∈ l, e.Named filename := by
  rw [h.eq_none_iff, mem_names_liveEntries]

theorem exists_named (h : Listing (liveEntries l) entries) (hsome : (entries filename).isSome) :
    ∃ e ∈ l, e.Named filename := by
  by_contra habsent
  rw [(eq_none_iff_absent h).mpr habsent] at hsome
  cases hsome

/-- An addition of a name that is there changes nothing. -/
theorem ext2DirAllocate_present (h : Tiled blockSize blocks rows) (hadd : Addition filename type inode)
    (hex : ∃ e ∈ rows.flatten, e.Named filename) (hunshadowed : Unshadowed filename rows.flatten)
    (newBlock : Option Block) : ext2DirAllocate blockSize blocks filename type inode newBlock = .ok (blocks, false) := by
  unfold ext2DirAllocate
  cases hstop : firstStop filename rows.flatten with
  | none =>
    obtain ⟨e, he, hnamed⟩ := hex
    exact absurd hnamed (firstStop_eq_none_iff.mp hstop e he).1
  | some e =>
    have he := hunshadowed hex e hstop
    rcases allocateBlocks_some h hadd hstop with ⟨-, heq⟩ | ⟨hother, -⟩
    · rw [heq]
      rfl
    · exact absurd he hother

/-- An addition of a new name adds it to the map. -/
theorem ext2DirAllocate_absent (h : Tiled blockSize blocks rows) (hlist : Listing (liveEntries rows.flatten) entries)
    (hsize : BlockSize blockSize) (hadd : Addition filename type inode) (habsent : entries filename = none)
    (newBlock : Option Block) :
    Exec.Meets (· = .halt) (fun r => r.2 = true ∧
      Represents blockSize r.1 (Function.update entries filename (some (inode, type))))
      (ext2DirAllocate blockSize blocks filename type inode newBlock) := by
  unfold ext2DirAllocate
  cases hstop : firstStop filename rows.flatten with
  | none =>
    rw [allocateBlocks_none h (firstStop_eq_none_iff.mp hstop), Exec.ok_bind]
    cases newBlock with
    | none => exact rfl
    | some b =>
      simp only
      split_ifs
      · exact rfl
      · have hlen := hadd.length
        have henough := hsize.enough
        exact ⟨rfl, Represents.add_new ⟨rows, h, hlist⟩ hadd habsent hsize.fits hsize.aligned (by omega) b⟩
  | some e =>
    have hmem := List.mem_of_find?_eq_some hstop
    rcases allocateBlocks_some h hadd hstop with ⟨he, -⟩ | ⟨-, blocks', rows', l₁, l₂, heq, htiled, hl, hl'⟩
    · exact absurd ⟨e, hmem, he⟩ ((eq_none_iff_absent hlist).mp habsent)
    · rw [heq, Exec.ok_bind]
      refine ⟨rfl, rows', htiled, ?_⟩
      rw [hl] at hlist
      rw [hl']
      exact listing_split hlist habsent hadd.live

/-! ### A removal -/

namespace Ext2Directory

theorem ext2DirRemove_absent (h : Tiled blockSize blocks rows) (hnone : ∀ e ∈ rows.flatten, ¬e.Named filename) :
    ext2DirRemove blockSize filename blocks = .ok (blocks, false) := by
  induction h with
  | nil => rfl
  | @cons b l blocks rows hb _ ih =>
    rw [List.flatten_cons] at hnone
    have hlen := hb.length_le
    rw [ext2DirRemove, removeWalk_absent hb (fun e he => hnone e (List.mem_append_left _ he)) (by omega), Exec.ok_bind]
    simp only
    rw [ih fun e he => hnone e (List.mem_append_right _ he)]
    rfl

/-- A removal of the one record with the name. -/
theorem removeWalk_named (h : Tiles b 0 (l₁ ++ e :: l₂) blockSize) (hl₁ : ∀ e ∈ l₁, ¬e.Named filename)
    (he : e.Named filename) (hl₂ : ∀ e ∈ l₂, ¬e.Named filename) (hsize : blockSize < 2 ^ 16) :
    ∃ b' l, removeWalk blockSize filename (blockSize + 1) b 0 0 false = .ok (b', true) ∧
      Tiles b' 0 l blockSize ∧ liveEntries l = liveEntries l₁ ++ liveEntries l₂ := by
  rcases l₁.eq_nil_or_concat' with rfl | ⟨l₀, before, rfl⟩
  · obtain ⟨b', heq, htiles⟩ := removeWalk_first h he hl₂
    exact ⟨b', _, heq, htiles, liveEntries_cons_of_free rfl l₂⟩
  · rw [List.append_assoc] at h
    obtain ⟨b', heq, htiles⟩ := removeWalk_merge h (fun x hx => hl₁ x (List.mem_append_left _ hx))
      (hl₁ before (by simp)) he hl₂ hsize
    refine ⟨b', _, heq, htiles, ?_⟩
    rw [List.append_cons, liveEntries_append, liveEntries_append, liveEntries_append]
    congr 2
    exact liveEntries_resize before _ []

theorem ext2DirRemove_named (h : Tiled blockSize blocks rows)
    (hunique : rows.flatten.Pairwise fun a b => ¬(a.Named filename ∧ b.Named filename))
    (hex : ∃ e ∈ rows.flatten, e.Named filename) (hsize : blockSize < 2 ^ 16) :
    ∃ blocks' rows' l₁ e l₂, ext2DirRemove blockSize filename blocks = .ok (blocks', true) ∧
      Tiled blockSize blocks' rows' ∧ rows.flatten = l₁ ++ e :: l₂ ∧ e.Named filename ∧
      liveEntries rows'.flatten = liveEntries l₁ ++ liveEntries l₂ := by
  induction h with
  | nil =>
    obtain ⟨e, he, -⟩ := hex
    cases he
  | @cons b l blocks rows hb htail ih =>
    rw [List.flatten_cons] at hunique hex
    obtain ⟨hrow, hrows, hcross⟩ := List.pairwise_append.mp hunique
    rw [ext2DirRemove]
    by_cases hl : ∃ e ∈ l, e.Named filename
    · -- the name is in this row, so in no other
      obtain ⟨e, hemem, he⟩ := hl
      obtain ⟨l₁, l₂, rfl⟩ := List.append_of_mem hemem
      obtain ⟨-, htail₂, hbefore⟩ := List.pairwise_append.mp hrow
      have hl₁ : ∀ x ∈ l₁, ¬x.Named filename := fun x hx hnamed => hbefore x hx e List.mem_cons_self ⟨hnamed, he⟩
      have hl₂ : ∀ x ∈ l₂, ¬x.Named filename := fun x hx hnamed =>
        (List.pairwise_cons.mp htail₂).1 x hx ⟨he, hnamed⟩
      have hothers : ∀ x ∈ rows.flatten, ¬x.Named filename := fun x hx hnamed => hcross e hemem x hx ⟨he, hnamed⟩
      obtain ⟨b', l', heq, hb', hlive⟩ := removeWalk_named hb hl₁ he hl₂ hsize
      refine ⟨b' :: blocks, l' :: rows, l₁, e, l₂ ++ rows.flatten, ?_, .cons hb' htail, by simp, he, ?_⟩
      · rw [heq, Exec.ok_bind]
        simp only
        rw [ext2DirRemove_absent htail hothers]
        rfl
      · rw [List.flatten_cons, liveEntries_append, hlive, liveEntries_append, List.append_assoc]
    · have hnone : ∀ x ∈ l, ¬x.Named filename := fun x hx hnamed => hl ⟨x, hx, hnamed⟩
      have hlen := hb.length_le
      obtain ⟨e, hemem, he⟩ := hex
      have hrest : e ∈ rows.flatten := (List.mem_append.mp hemem).resolve_left fun hin => hnone e hin he
      obtain ⟨blocks', rows', l₁, x, l₂, heq, htiled, hflat, hx, hlive⟩ := ih hrows ⟨e, hrest, he⟩
      refine ⟨b :: blocks', l :: rows', l ++ l₁, x, l₂, ?_, .cons hb htiled, ?_, hx, ?_⟩
      · rw [removeWalk_absent hb hnone (by omega), Exec.ok_bind]
        simp only
        rw [heq]
        rfl
      · rw [List.flatten_cons, hflat, List.append_assoc]
      · rw [List.flatten_cons, liveEntries_append, hlive, liveEntries_append, List.append_assoc]

end Ext2Directory

/-- A removal takes the name from the map. -/
theorem Represents.remove (h : Represents blockSize blocks entries) (hsize : BlockSize blockSize)
    (filename : Filename) :
    ∃ blocks', ext2DirRemove blockSize filename blocks = .ok (blocks', (entries filename).isSome) ∧
      Represents blockSize blocks' (Function.update entries filename none) := by
  obtain ⟨rows, htiled, hlist⟩ := h
  have hnone : entries filename = none ↔ ¬∃ e ∈ rows.flatten, e.Named filename := eq_none_iff_absent hlist
  by_cases hex : ∃ e ∈ rows.flatten, e.Named filename
  · obtain ⟨blocks', rows', l₁, e, l₂, heq, htiled', hflat, he, hlive⟩ :=
      ext2DirRemove_named htiled (unique_of_listing hlist.nodup) hex hsize.fits
    have hsome : (entries filename).isSome = true :=
      Option.isSome_iff_ne_none.mpr fun hn => hnone.mp hn hex
    refine ⟨blocks', by rw [heq, hsome], rows', htiled', ?_⟩
    rw [hflat, liveEntries_append, liveEntries_cons he.1, he.2] at hlist
    rw [hlive]
    exact hlist.erase
  · have habsent := hnone.mpr hex
    have hothers : ∀ e ∈ rows.flatten, ¬e.Named filename := fun e he hnamed => hex ⟨e, he, hnamed⟩
    refine ⟨blocks, by rw [ext2DirRemove_absent htiled hothers, habsent]; rfl, rows, htiled, ?_⟩
    rwa [← habsent, Function.update_eq_self]

/-! ### Runs -/

/-- The records of a block, as a walk over it finds them. -/
def recordsFrom (blockSize : ℕ) (b : Block) : ℕ → ℕ → List DirEntry
  | 0, _ => []
  | fuel + 1, o =>
    if blockSize ≤ o then []
    else ⟨inodeAt b o, sizeAt b o, typeAt b o, filenameAt b o (filenameLengthAt b o)⟩ ::
      recordsFrom blockSize b fuel (o + sizeAt b o)

def records (blockSize : ℕ) (blocks : List Block) : List DirEntry :=
  blocks.flatMap fun b => recordsFrom blockSize b (blockSize + 1) 0

theorem recordsFrom_eq {b : Block} {o fuel : ℕ} (h : Tiles b o l blockSize) (hfuel : l.length < fuel) :
    recordsFrom blockSize b fuel o = l := by
  induction l generalizing o fuel with
  | nil =>
    cases h
    obtain ⟨n, rfl⟩ := Nat.exists_eq_add_of_lt hfuel
    rw [recordsFrom, if_pos le_rfl]
  | cons e l ih =>
    obtain ⟨hat, hwf, htail⟩ := h
    have hlt := htail.le
    have := hwf.eight_le
    obtain ⟨n, rfl⟩ : ∃ n, fuel = n + 1 := ⟨fuel - 1, by omega⟩
    rw [List.length_cons] at hfuel
    rw [recordsFrom, if_neg (by omega), hat.inode, hat.size, hat.length, hat.type, hat.filename,
      ih htail (by omega)]

theorem Tiled.records_eq (h : Tiled blockSize blocks rows) : records blockSize blocks = rows.flatten := by
  induction h with
  | nil => rfl
  | @cons b l blocks rows hb _ ih =>
    have hlen := hb.length_le
    unfold records at ih ⊢
    rw [List.flatMap_cons, List.flatten_cons, ih, recordsFrom_eq hb (by omega)]

/-- The calls. `newBlock` is what `ext2BlockFind` finds if the addition needs it. -/
inductive DirCall where
  | ext2DirAllocate (filename : Filename) (type inode : ℕ) (newBlock : Option Block)
  | ext2DirRemove (filename : Filename)

/-- The blocks of a directory and what the calls returned. -/
structure DirUse where
  blocks : List Block
  returned : List Bool

namespace DirUse

def step (blockSize : ℕ) (s : DirUse) : DirCall → Exec DirUse
  | .ext2DirAllocate filename type inode newBlock => do
    let (blocks, ret) ← ext2DirAllocate blockSize s.blocks filename type inode newBlock
    .ok ⟨blocks, s.returned ++ [ret]⟩
  | .ext2DirRemove filename => do
    let (blocks, ret) ← ext2DirRemove blockSize filename s.blocks
    .ok ⟨blocks, s.returned ++ [ret]⟩

/-- The arguments fit their fields, and an addition of a name that is there meets no
record with room for it before. -/
def Guard (blockSize : ℕ) (s : DirUse) : DirCall → Prop
  | .ext2DirAllocate filename type inode _ =>
    Addition filename type inode ∧ Unshadowed filename (records blockSize s.blocks)
  | .ext2DirRemove filename => 1 ≤ filename.length ∧ filename.length ≤ 255

/-- The map and what the calls should return. -/
structure Spec where
  entries : Filename → Option (ℕ × ℕ)
  returned : List Bool

namespace Spec

def step (t : Spec) : DirCall → Spec
  | .ext2DirAllocate filename type inode _ =>
    if (t.entries filename).isSome then { t with returned := t.returned ++ [false] }
    else ⟨Function.update t.entries filename (some (inode, type)), t.returned ++ [true]⟩
  | .ext2DirRemove filename =>
    ⟨Function.update t.entries filename none, t.returned ++ [(t.entries filename).isSome]⟩

end Spec

instance (blockSize : ℕ) (s : DirUse) : (call : DirCall) → Decidable (Guard blockSize s call)
  | .ext2DirAllocate _ _ _ _ => inferInstanceAs (Decidable (_ ∧ _))
  | .ext2DirRemove _ => inferInstanceAs (Decidable (_ ∧ _))

def Follows (blockSize : ℕ) (s : DirUse) (t : Spec) : Prop :=
  Represents blockSize s.blocks t.entries ∧ s.returned = t.returned

/-- Each block is a row of well-formed records, the records hold the map, the calls returned
what they should, a search finds what the map has, and an addition of a name that is there
changes nothing. -/
structure Sound (blockSize : ℕ) (s : DirUse) (t : Spec) : Prop where
  tiled : ∀ b ∈ s.blocks, ∃ l, Tiles b 0 l blockSize ∧ (∀ e ∈ l, e.WellFormed) ∧ (l.map DirEntry.size).sum = blockSize
  represents : Represents blockSize s.blocks t.entries
  returned : s.returned = t.returned
  traverse : ∀ filename : Filename, 1 ≤ filename.length → filename.length ≤ 255 →
    ext2Traverse blockSize filename s.blocks = .ok (((t.entries filename).map Prod.fst).getD 0)
  unchanged : ∀ filename type inode newBlock, (t.entries filename).isSome →
    Guard blockSize s (.ext2DirAllocate filename type inode newBlock) →
    ext2DirAllocate blockSize s.blocks filename type inode newBlock = .ok (s.blocks, false)

variable {s : DirUse} {t : Spec}

theorem step_follows (hsize : BlockSize blockSize) (call : DirCall) (h : Follows blockSize s t)
    (hguard : Guard blockSize s call) :
    Exec.Meets (· = .halt) (fun s' => Follows blockSize s' (t.step call)) (step blockSize s call) := by
  cases call with
  | ext2DirAllocate filename type inode newBlock =>
    obtain ⟨⟨rows, htiled, hlist⟩, hret⟩ := h
    obtain ⟨hadd, hunshadowed⟩ := hguard
    rw [htiled.records_eq] at hunshadowed
    cases hentry : t.entries filename with
    | none =>
      refine (ext2DirAllocate_absent htiled hlist hsize hadd hentry newBlock).bind ?_
      rintro ⟨blocks, ret⟩ ⟨rfl, hrep⟩
      simp only [Spec.step, hentry]
      exact ⟨hrep, by rw [hret]; rfl⟩
    | some v =>
      have hex := exists_named hlist (Option.isSome_iff_exists.mpr ⟨v, hentry⟩)
      rw [step, ext2DirAllocate_present htiled hadd hex hunshadowed, Exec.ok_bind]
      simp only [Spec.step, hentry]
      exact ⟨⟨rows, htiled, hlist⟩, by rw [hret]; rfl⟩
  | ext2DirRemove filename =>
    obtain ⟨hrep, hret⟩ := h
    obtain ⟨blocks, heq, hrep'⟩ := hrep.remove hsize filename
    rw [step, heq, Exec.ok_bind]
    exact ⟨hrep', by rw [hret]; rfl⟩

theorem Follows.sound (h : Follows blockSize s t) : Sound blockSize s t := by
  obtain ⟨hrep, hret⟩ := h
  refine ⟨fun b hb => ?_, hrep, hret, fun filename _ _ => hrep.traverse filename, ?_⟩
  · obtain ⟨rows, htiled, -⟩ := hrep
    obtain ⟨i, hi, rfl⟩ := List.getElem_of_mem hb
    have hl := List.Forall₂.get htiled hi (htiled.length_eq ▸ hi)
    exact ⟨_, hl, hl.wellFormed, by simpa using hl.sum_size⟩
  · intro filename type inode newBlock hsome hguard
    obtain ⟨rows, htiled, hlist⟩ := hrep
    obtain ⟨hadd, hunshadowed⟩ := hguard
    rw [htiled.records_eq] at hunshadowed
    exact ext2DirAllocate_present htiled hadd (exists_named hlist hsome) hunshadowed newBlock

/-- The directory stays a row of well-formed records and follows the map in every run in
which no addition of a name that is there meets room for it first. -/
theorem directory_runs_sound (hsize : BlockSize blockSize) (hstart : Represents blockSize blocks entries)
    {calls : List DirCall} (hguard : Guarded (step blockSize) (Guard blockSize) ⟨blocks, []⟩ calls) :
    Exec.Meets (· = .halt) (fun s => Sound blockSize s (calls.foldl Spec.step ⟨entries, []⟩))
      (run (step blockSize) ⟨blocks, []⟩ calls) := by
  have hrun := run_simulates_meets (fun s t call h hg => step_follows hsize call h hg)
    (show Follows blockSize ⟨blocks, []⟩ ⟨entries, []⟩ from ⟨hstart, rfl⟩) hguard
  exact hrun.mono fun s h => h.sound

/-- A directory with its own entry. -/
def sampleBlocks : List Block := [storeRecord (fun _ => 0) 0 1024 2 [46] 11]

def sampleEntries : Filename → Option (ℕ × ℕ) := Function.update (fun _ => none) [46] (some (11, 2))

theorem blockSize_sample : BlockSize 1024 := ⟨by decide, by decide, by decide⟩

theorem represents_sample : Represents 1024 sampleBlocks sampleEntries :=
  Represents.nil.add_new (by decide) rfl (by decide) (by decide) (by decide) fun _ => 0

/-- A long name, a short one behind it, the short one again, and the long one removed. -/
def sampleCalls : List DirCall :=
  [.ext2DirAllocate (List.replicate 16 97) 1 12 none, .ext2DirAllocate [98] 1 13 none,
    .ext2DirAllocate [98] 1 14 none, .ext2DirRemove (List.replicate 16 97), .ext2DirAllocate [99] 1 15 none]

theorem directory_sample :
    Guarded (step 1024) (Guard 1024) ⟨sampleBlocks, []⟩ sampleCalls ∧
      Exec.Meets (· = .halt) (fun s => Sound 1024 s (sampleCalls.foldl Spec.step ⟨sampleEntries, []⟩))
        (run (step 1024) ⟨sampleBlocks, []⟩ sampleCalls) := by
  have hguard : Guarded (step 1024) (Guard 1024) ⟨sampleBlocks, []⟩ sampleCalls := by decide +kernel
  exact ⟨hguard, directory_runs_sound blockSize_sample represents_sample hguard⟩

/-- The long name goes to the slack of the first record, and the short name behind it is
added once more. -/
def duplicateCalls : List DirCall :=
  [.ext2DirAllocate (List.replicate 16 97) 1 12 none, .ext2DirAllocate [98] 1 13 none,
    .ext2DirRemove (List.replicate 16 97), .ext2DirAllocate [98] 1 14 none]

theorem name_added_twice :
    Represents 1024 sampleBlocks sampleEntries ∧
      (duplicateCalls.foldl Spec.step ⟨sampleEntries, []⟩).returned = [true, true, true, false] ∧
      ∃ s, run (step 1024) ⟨sampleBlocks, []⟩ duplicateCalls = .ok s ∧ s.returned = [true, true, true, true] ∧
        ((records 1024 s.blocks).map fun e => (e.inode, e.filename)) = [(11, [46]), (14, [98]), (13, [98])] := by
  refine ⟨represents_sample, by decide, ?_⟩
  decide +kernel

end DirUse

end DualFuse.Filesystems
