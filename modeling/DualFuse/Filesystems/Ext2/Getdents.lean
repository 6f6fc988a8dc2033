import DualFuse.Filesystems.Ext2.DirectoryRuns
import DualFuse.Filesystems.Ext2.RecordLoops
import DualFuse.Library.Cursor
import Mathlib.Data.List.TakeWhile

/-! `ext2Getdents64` over whole directories. The place in the directory moves on by the
sizes of the records that are listed, the cursor by those of all records. Removed records
part the two: a call that stops behind one resumes too early, and a block without live
records is never left. Where no call does so, the calls list the directory. -/

namespace DualFuse.Filesystems

open Library Loop RecordLoop Utility

namespace Getdents

/-! ### The call -/

/-- The loop over the records of a block; here a loop that does not end is a fault. -/
def scanBlock (blockSize hardlimit : ℕ) (b : Block) (d : Dents) : Exec (Dents × Bool) := do
  match ← Loop.run (getdentsRound blockSize hardlimit b) (blockSize + 1) (d.ptr % blockSize, d) with
  | some r => .ok r
  | none => .error .fault

/-- Behind a block the place goes on to the next one, unless it is at the start of one. -/
def nextBlock (blockSize ptr : ℕ) : ℕ :=
  let rem := ptr % blockSize
  if rem ≠ 0 then wrap (ptr + (blockSize - rem)) else ptr

/-- The loop over the blocks, `n` of them to go; it ends where `ext2BlockFetch` gives none. -/
def getdentsLoop (blockSize hardlimit : ℕ) (blocks : List Block) : ℕ → Dents → Exec (Dents × Bool)
  | 0, d => .ok (d, false)
  | n + 1, d =>
    match blocks[d.ptr / blockSize]? with
    | none => .ok (d, false)
    | some b => do
      let r ← scanBlock blockSize hardlimit b d
      if r.2 then .ok r
      else getdentsLoop blockSize hardlimit blocks n { r.1 with ptr := nextBlock blockSize r.1.ptr }

/-- What the call returns: the bytes in the buffer, or that not even one entry fits. -/
inductive Answer where
  | count (n : ℕ)
  | einval
  deriving DecidableEq, Repr

/-- The answer and the entries in the buffer. -/
structure Reply where
  answer : Answer
  entries : List Dirent
  deriving DecidableEq, Repr

/-- `ext2Getdents64` of a directory with this size, from this place. -/
def ext2Getdents64 (blockSize size : ℕ) (blocks : List Block) (hardlimit ptr : ℕ) : Exec (ℕ × Reply) := do
  let r ← getdentsLoop blockSize hardlimit blocks (ceilingDivision size blockSize) ⟨ptr, 0, []⟩
  .ok (r.1.ptr, ⟨if r.2 ∧ r.1.allocatedlimit = 0 then .einval else .count r.1.allocatedlimit, r.1.entries⟩)

/-! ### One block -/

section Rows
variable {blockSize hardlimit o a : ℕ} {b : Block} {e : DirEntry} {l l' : List DirEntry} {d : Dents}

/-- The entry of a record. -/
def direntOf (e : DirEntry) : Dirent := ⟨e.inode, direntType e.type, e.filename⟩

/-- The entries of the live records. -/
def dirents (l : List DirEntry) : List Dirent := (l.filter fun e => e.inode ≠ 0).map direntOf

/-- The bytes of the live records on disk. -/
def liveSize (l : List DirEntry) : ℕ := ((l.filter fun e => e.inode ≠ 0).map DirEntry.size).sum

/-- The bytes of entries in the buffer. -/
def taken (l : List Dirent) : ℕ := (l.map Dirent.reclen).sum

@[simp] theorem dirents_nil : dirents [] = [] := rfl

@[simp] theorem dirents_append (l l' : List DirEntry) : dirents (l ++ l') = dirents l ++ dirents l' := by
  simp [dirents]

theorem dirents_cons (h : e.inode ≠ 0) (l : List DirEntry) : dirents (e :: l) = direntOf e :: dirents l := by
  simp [dirents, h]

theorem dirents_cons_of_free (h : e.inode = 0) (l : List DirEntry) : dirents (e :: l) = dirents l := by
  simp [dirents, h]

theorem liveSize_cons (h : e.inode ≠ 0) (l : List DirEntry) : liveSize (e :: l) = e.size + liveSize l := by
  simp [liveSize, h]

theorem liveSize_cons_of_free (h : e.inode = 0) (l : List DirEntry) : liveSize (e :: l) = liveSize l := by
  simp [liveSize, h]

theorem liveSize_append (l l' : List DirEntry) : liveSize (l ++ l') = liveSize l + liveSize l' := by
  simp [liveSize]

theorem liveSize_le (l : List DirEntry) : liveSize l ≤ (l.map DirEntry.size).sum := by
  induction l with
  | nil => exact le_rfl
  | cons e l ih =>
    rw [List.map_cons, List.sum_cons]
    by_cases h : e.inode = 0
    · rw [liveSize_cons_of_free h]
      omega
    · rw [liveSize_cons h]
      omega

theorem dirents_eq_nil_iff : dirents l = [] ↔ ∀ e ∈ l, e.inode = 0 := by
  simp [dirents]

theorem dirents_eq_nil_of_liveSize (hl : ∀ e ∈ l, e.WellFormed) (h : liveSize l = 0) : dirents l = [] := by
  rw [dirents_eq_nil_iff]
  intro e he
  by_contra hlive
  have hmem : e.size ∈ (l.filter fun e => e.inode ≠ 0).map DirEntry.size :=
    List.mem_map_of_mem (List.mem_filter.mpr ⟨he, by simpa using hlive⟩)
  have hsize := (hl e he).eight_le
  have := List.single_le_sum (fun _ _ => Nat.zero_le _) _ hmem
  unfold liveSize at h
  omega

theorem liveSize_of_live (h : ∀ e ∈ l, e.inode ≠ 0) : liveSize l = (l.map DirEntry.size).sum := by
  rw [liveSize, List.filter_eq_self.mpr (by simpa using h)]

theorem liveSize_of_free (h : ∀ e ∈ l, e.inode = 0) : liveSize l = 0 := by
  rw [liveSize, List.filter_eq_nil_iff.mpr (by simpa using h)]
  rfl

theorem taken_append (l l' : List Dirent) : taken (l ++ l') = taken l + taken l' := by
  simp [taken]

theorem taken_eq_zero_iff {l : List Dirent} : taken l = 0 ↔ l = [] := by
  cases l with
  | nil => simp [taken]
  | cons e l =>
    simp only [taken, List.map_cons, List.sum_cons, Dirent.reclen]
    refine iff_of_false ?_ (by simp)
    omega

/-- The records that a listing passes before it stops for lack of space, and the rest. -/
def pass (hardlimit : ℕ) : ℕ → List DirEntry → List DirEntry × List DirEntry
  | _, [] => ([], [])
  | a, e :: l =>
    if e.inode = 0 then (e :: (pass hardlimit a l).1, (pass hardlimit a l).2)
    else if NoSpace hardlimit a (direntOf e).reclen then ([], e :: l)
    else (e :: (pass hardlimit (a + (direntOf e).reclen) l).1, (pass hardlimit (a + (direntOf e).reclen) l).2)

theorem pass_append (hardlimit a : ℕ) (l : List DirEntry) : (pass hardlimit a l).1 ++ (pass hardlimit a l).2 = l := by
  induction l generalizing a with
  | nil => rfl
  | cons e l ih =>
    rw [pass]
    split_ifs
    · rw [List.cons_append, ih]
    · rfl
    · rw [List.cons_append, ih]

theorem pass_of_free (h : ∀ e ∈ l, e.inode = 0) : pass hardlimit a l = (l, []) := by
  induction l with
  | nil => rfl
  | cons e l ih =>
    rw [pass, if_pos (h e List.mem_cons_self), ih fun x hx => h x (List.mem_cons_of_mem e hx)]

/-- The live records of a row are added. -/
def addRow (d : Dents) : List DirEntry → Dents
  | [] => d
  | e :: l => addRow (if e.inode ≠ 0 then d.add (direntOf e) e.size else d) l

theorem addRow_eq (h : d.ptr + liveSize l < 2 ^ 64) :
    addRow d l = ⟨d.ptr + liveSize l, d.allocatedlimit + taken (dirents l), d.entries ++ dirents l⟩ := by
  induction l generalizing d with
  | nil => simp [addRow, liveSize, taken]
  | cons e l ih =>
    rw [addRow]
    by_cases hfree : e.inode = 0
    · rw [liveSize_cons_of_free hfree] at h ⊢
      rw [if_neg (not_not.mpr hfree), dirents_cons_of_free hfree, ih h]
    · rw [liveSize_cons hfree] at h ⊢
      have hptr : (d.add (direntOf e) e.size).ptr = d.ptr + e.size := wrap_of_lt (by omega)
      rw [if_pos hfree, dirents_cons hfree, ih (by rw [hptr]; omega), hptr]
      simp [Dents.add, taken, Nat.add_assoc]

theorem addRow_of_free (h : ∀ e ∈ l, e.inode = 0) : addRow d l = d := by
  induction l with
  | nil => rfl
  | cons e l ih =>
    rw [addRow, if_neg (not_not.mpr (h e List.mem_cons_self)), ih fun x hx => h x (List.mem_cons_of_mem e hx)]

theorem direntAt_eq (h : e.IsAt b o) : direntAt b o = direntOf e := by
  rw [direntAt, direntOf, h.inode, h.type, h.length, h.filename]

theorem getdents_safe (h : Tiles b o (e :: l) blockSize) (d : Dents) :
    (getdentsPlan blockSize hardlimit b).safe (o, d) := by
  obtain ⟨hat, hwf, htail⟩ := h
  have hle := htail.le
  have hsize := hwf.2
  intro _
  dsimp only
  rw [hat.length]
  exact ⟨by omega, fun _ => ⟨by omega, fun _ => by omega⟩⟩

/-- The loop over a row of records. -/
theorem run_row (h : Tiles b o l blockSize) {fuel : ℕ} (hfuel : l.length < fuel) (d : Dents) :
    Loop.run (getdentsRound blockSize hardlimit b) fuel (o, d) =
      .ok (some (addRow d (pass hardlimit d.allocatedlimit l).1,
        decide ((pass hardlimit d.allocatedlimit l).2 ≠ []))) := by
  induction l generalizing o d fuel with
  | nil =>
    obtain ⟨m, rfl⟩ : ∃ m, fuel = m + 1 := ⟨fuel - 1, by simp at hfuel; omega⟩
    have hround : getdentsRound blockSize hardlimit b (o, d) = .ok (.done (d, false)) := if_pos (Eq.ge h)
    rw [run_done hround]
    rfl
  | cons e l ih =>
    have hsafe : (getdentsPlan blockSize hardlimit b).safe (o, d) := getdents_safe h d
    obtain ⟨hat, hwf, htail⟩ := h
    have hle := htail.le
    have := hwf.eight_le
    rw [List.length_cons] at hfuel
    obtain ⟨m, rfl⟩ : ∃ m, fuel = m + 1 := ⟨fuel - 1, by omega⟩
    have hlt : o < blockSize := by omega
    have hm : l.length < m := by omega
    have hreclen : 23 + Ext2Directory.filenameLengthAt b o + 1 = (direntOf e).reclen := by
      rw [hat.length]
      rfl
    rw [pass]
    by_cases hfree : e.inode = 0
    · have hstop : ¬(getdentsPlan blockSize hardlimit b).stop (o, d) := by
        rintro (hge | ⟨hlive, -⟩)
        · exact absurd hlt hge.not_gt
        · exact hlive (hat.inode.trans hfree)
      rw [run_next (getdents_kept.leads _ trivial hsafe hstop), if_pos hfree]
      simp only [getdentsPlan, hat.inode, hfree, hat.size, ne_eq, not_true_eq_false, if_false]
      rw [ih htail hm d, addRow, if_neg (not_not.mpr hfree)]
    · have hlive : Ext2Directory.inodeAt b o ≠ 0 := by rwa [hat.inode]
      rw [if_neg hfree]
      by_cases hspace : NoSpace hardlimit d.allocatedlimit (direntOf e).reclen
      · have hstop : (getdentsPlan blockSize hardlimit b).stop (o, d) := by
          refine Or.inr ⟨hlive, ?_⟩
          rw [hreclen]
          exact hspace
        rw [run_done (getdents_kept.stops _ trivial hsafe hstop), if_pos hspace]
        simp [getdentsPlan, addRow, hlt]
      · have hstop : ¬(getdentsPlan blockSize hardlimit b).stop (o, d) := by
          rintro (hge | ⟨-, hno⟩)
          · exact absurd hlt hge.not_gt
          · rw [hreclen] at hno
            exact hspace hno
        rw [run_next (getdents_kept.leads _ trivial hsafe hstop), if_neg hspace]
        simp only [getdentsPlan, if_pos hlive, hat.size, direntAt_eq hat]
        rw [ih htail hm (d.add (direntOf e) e.size), addRow, if_pos hfree]
        rfl

theorem scanBlock_eq (h : Tiles b (d.ptr % blockSize) l blockSize) : scanBlock blockSize hardlimit b d =
    .ok (addRow d (pass hardlimit d.allocatedlimit l).1, decide ((pass hardlimit d.allocatedlimit l).2 ≠ [])) := by
  have hlen := h.length_le
  rw [scanBlock, run_row h (by omega) d]
  rfl

end Rows

/-! ### The directory -/

/-- A directory of which every block is a row of records. -/
structure DirFile where
  blockSize : ℕ
  size : ℕ
  blocks : List Block
  positive : 0 < blockSize
  formed : ∀ b ∈ blocks, ∃ l, Tiles b 0 l blockSize
  size_eq : size = blocks.length * blockSize
  fields : blockSize < 2 ^ 32 ∧ size < 2 ^ 32

/-- No live record of the row stands behind a removed one. -/
def HeadLive (l : List DirEntry) : Prop := ∀ e ∈ l.dropWhile fun e => e.inode ≠ 0, e.inode = 0

instance (l : List DirEntry) : Decidable (HeadLive l) := inferInstanceAs (Decidable (∀ e ∈ _, _))

theorem HeadLive.split {l : List DirEntry} (h : HeadLive l) :
    ∃ l₁ l₂, l = l₁ ++ l₂ ∧ (∀ e ∈ l₁, e.inode ≠ 0) ∧ ∀ e ∈ l₂, e.inode = 0 :=
  ⟨_, _, List.takeWhile_append_dropWhile.symm, fun _ he => by simpa using List.mem_takeWhile_imp he, h⟩

/-- A listing that has taken `a` bytes is in step with the rows ahead of it; `fresh`: the
first one is a whole block. Where the buffer runs full, an entry is in it and the records
listed from this row are not behind a removed one; a whole block without live records is
followed by no others. -/
def InStep (hardlimit : ℕ) : ℕ → Bool → List (List DirEntry) → Prop
  | _, _, [] => True
  | a, fresh, l :: rows =>
    if (pass hardlimit a l).2 = [] then
      if fresh ∧ dirents l = [] then dirents rows.flatten = []
      else InStep hardlimit (a + taken (dirents l)) true rows
    else HeadLive (pass hardlimit a l).1 ∧ (a ≠ 0 ∨ dirents (pass hardlimit a l).1 ≠ [])

instance InStep.decidable (hardlimit : ℕ) :
    (a : ℕ) → (fresh : Bool) → (rows : List (List DirEntry)) → Decidable (InStep hardlimit a fresh rows)
  | _, _, [] => isTrue trivial
  | a, fresh, l :: rows =>
    have := InStep.decidable hardlimit (a + taken (dirents l)) true rows
    inferInstanceAs (Decidable (if (pass hardlimit a l).2 = [] then
        if fresh ∧ dirents l = [] then dirents rows.flatten = []
        else InStep hardlimit (a + taken (dirents l)) true rows
      else HeadLive (pass hardlimit a l).1 ∧ (a ≠ 0 ∨ dirents (pass hardlimit a l).1 ≠ [])))

namespace DirFile

variable {D : DirFile} {hardlimit ptr j o : ℕ} {b : Block} {l : List DirEntry} {d : Dents}

/-- The records of a block. -/
def row (D : DirFile) (b : Block) : List DirEntry := recordsFrom D.blockSize b (D.blockSize + 1) 0

def rows (D : DirFile) : List (List DirEntry) := D.blocks.map D.row

/-- The rows from a place on, as they are read. -/
def ahead (D : DirFile) (ptr : ℕ) : List (List DirEntry) :=
  match D.blocks[ptr / D.blockSize]? with
  | none => []
  | some b => recordsFrom D.blockSize b (D.blockSize + 1) (ptr % D.blockSize) ::
      (D.blocks.drop (ptr / D.blockSize + 1)).map D.row

/-- The entries that are not listed yet. -/
def left (D : DirFile) (ptr : ℕ) : List Dirent := dirents (D.ahead ptr).flatten

/-- The place is at the end, or in front of the records `l` of block `j`. -/
inductive At (D : DirFile) : ℕ → Prop
  | finish : At D (D.blocks.length * D.blockSize)
  | inside {j o : ℕ} {b : Block} {l : List DirEntry} (hb : D.blocks[j]? = some b) (hl : Tiles b o l D.blockSize)
      (ho : o < D.blockSize) : At D (j * D.blockSize + o)

def call (D : DirFile) (hardlimit ptr : ℕ) : Exec (ℕ × Reply) :=
  ext2Getdents64 D.blockSize D.size D.blocks hardlimit ptr

/-- The calls list the live entries of the directory in the order of the disk, and then one
of them returns zero. -/
def Lists (D : DirFile) (hardlimit : ℕ → ℕ) : Prop :=
  Cursor.Lists D.call Reply.entries (·.answer = .count 0) hardlimit 0 (dirents D.rows.flatten)

theorem row_tiles (hb : b ∈ D.blocks) : Tiles b 0 (D.row b) D.blockSize := by
  obtain ⟨l, hl⟩ := D.formed b hb
  have hlen := hl.length_le
  rw [row, recordsFrom_eq hl (by omega)]
  exact hl

theorem div_place (ho : o < D.blockSize) : (j * D.blockSize + o) / D.blockSize = j := by
  rw [Nat.mul_comm, Nat.mul_add_div D.positive, Nat.div_eq_of_lt ho, Nat.add_zero]

theorem mod_place (ho : o < D.blockSize) : (j * D.blockSize + o) % D.blockSize = o := by
  rw [Nat.mul_comm, Nat.mul_add_mod, Nat.mod_eq_of_lt ho]

theorem ahead_inside (hb : D.blocks[j]? = some b) (hl : Tiles b o l D.blockSize) (ho : o < D.blockSize) :
    D.ahead (j * D.blockSize + o) = l :: (D.blocks.drop (j + 1)).map D.row := by
  have hlen := hl.length_le
  rw [ahead, div_place ho, mod_place ho, hb]
  simp only
  rw [recordsFrom_eq hl (by omega)]

theorem ahead_block (j : ℕ) : D.ahead (j * D.blockSize) = (D.blocks.drop j).map D.row := by
  cases hb : D.blocks[j]? with
  | none =>
    have hge : D.blocks.length ≤ j := List.getElem?_eq_none_iff.mp hb
    rw [ahead, Nat.mul_div_cancel j D.positive, hb, List.drop_eq_nil_of_le hge, List.map_nil]
  | some b =>
    obtain ⟨hj, hget⟩ := List.getElem?_eq_some_iff.mp hb
    have htiles := row_tiles (List.mem_of_getElem? hb)
    have hahead := ahead_inside hb htiles D.positive
    rw [Nat.add_zero] at hahead
    rw [hahead, List.drop_eq_getElem_cons hj, List.map_cons, hget]

theorem left_zero : D.left 0 = dirents D.rows.flatten := by
  have hahead := ahead_block (D := D) 0
  rw [Nat.zero_mul, List.drop_zero] at hahead
  rw [left, hahead]
  rfl

theorem at_block (hj : j ≤ D.blocks.length) : D.At (j * D.blockSize) := by
  rcases Nat.lt_or_eq_of_le hj with hlt | rfl
  · have hb := List.getElem?_eq_getElem hlt
    have h := At.inside hb (row_tiles (List.getElem_mem hlt)) D.positive
    rwa [Nat.add_zero] at h
  · exact .finish

theorem end_le (hb : D.blocks[j]? = some b) : (j + 1) * D.blockSize < 2 ^ 32 := by
  obtain ⟨hj, -⟩ := List.getElem?_eq_some_iff.mp hb
  have hle : (j + 1) * D.blockSize ≤ D.blocks.length * D.blockSize := Nat.mul_le_mul_right _ hj
  have := D.size_eq
  have := D.fields
  omega

theorem blocksContained_eq : ceilingDivision D.size D.blockSize = D.blocks.length := by
  have hpos := D.positive
  have hfields := D.fields
  rw [ceilingDivision_eq hpos (by omega), D.size_eq, Nat.add_sub_assoc hpos, Nat.mul_comm, Nat.mul_add_div hpos,
    Nat.div_eq_of_lt (by omega), Nat.add_zero]

/-! ### A call -/

/-- At the start of a block without live records a listing stays. -/
theorem getdentsLoop_stuck (hb : D.blocks[j]? = some b) (hfree : dirents (D.row b) = [])
    (hptr : d.ptr = j * D.blockSize) (n : ℕ) :
    getdentsLoop D.blockSize hardlimit D.blocks n d = .ok (d, false) := by
  induction n with
  | zero => rfl
  | succ n ih =>
    have htiles := row_tiles (List.mem_of_getElem? hb)
    have hmod : d.ptr % D.blockSize = 0 := by rw [hptr, Nat.mul_mod_left]
    have hpass : pass hardlimit d.allocatedlimit (D.row b) = (D.row b, []) := pass_of_free (dirents_eq_nil_iff.mp hfree)
    have hadd : addRow d (D.row b) = d := addRow_of_free (dirents_eq_nil_iff.mp hfree)
    rw [getdentsLoop, hptr, Nat.mul_div_cancel j D.positive, hb]
    simp only
    rw [scanBlock_eq (hmod.symm ▸ htiles), hpass, Exec.ok_bind, hadd]
    simp only [ne_eq, not_true_eq_false, decide_false, Bool.false_eq_true, if_false]
    have hnext : nextBlock D.blockSize d.ptr = d.ptr := by simp [nextBlock, hmod]
    rw [hnext]
    exact ih

/-- What the loop over the blocks does from a place. -/
structure Advances (D : DirFile) (d : Dents) (r : Dents × Bool) (es : List Dirent) : Prop where
  at' : D.At r.1.ptr
  entries : r.1.entries = d.entries ++ es
  allocatedlimit : r.1.allocatedlimit = d.allocatedlimit + taken es
  left : D.left d.ptr = es ++ D.left r.1.ptr
  stop : r.2 = true → r.1.allocatedlimit ≠ 0
  rest : r.2 = false → D.left r.1.ptr = []

/-- A loop that stops in step in a block. -/
theorem advances_stop (hb : D.blocks[j]? = some b) (hl : Tiles b o l D.blockSize) (ho : o < D.blockSize)
    (hptr : d.ptr = j * D.blockSize + o) (hrest : (pass hardlimit d.allocatedlimit l).2 ≠ [])
    (hhead : HeadLive (pass hardlimit d.allocatedlimit l).1)
    (hsome : d.allocatedlimit ≠ 0 ∨ dirents (pass hardlimit d.allocatedlimit l).1 ≠ []) :
    ∃ es, D.Advances d (addRow d (pass hardlimit d.allocatedlimit l).1, true) es := by
  have happend := pass_append hardlimit d.allocatedlimit l
  generalize (pass hardlimit d.allocatedlimit l).1 = p at *
  generalize (pass hardlimit d.allocatedlimit l).2 = r at *
  obtain ⟨l₁, l₂, rfl, hlive, hfree⟩ := hhead.split
  subst happend
  have hend := end_le hb
  have hahead := ahead_inside hb hl ho
  rw [List.append_assoc] at hl
  obtain ⟨m, h₁, h₂⟩ := Tiles.append_iff.mp hl
  have hm : o + (l₁.map DirEntry.size).sum = m := h₁.sum_size
  have hlen := h₂.length_le
  have hpos : 0 < (l₂ ++ r).length := by
    rw [List.length_append]
    have := List.length_pos_iff.mpr hrest
    omega
  have hsize : liveSize (l₁ ++ l₂) = (l₁.map DirEntry.size).sum := by
    rw [liveSize_append, liveSize_of_live hlive, liveSize_of_free hfree, Nat.add_zero]
  have hdirents : dirents (l₁ ++ l₂) = dirents l₁ := by
    rw [dirents_append, dirents_eq_nil_iff.mpr hfree, List.append_nil]
  have hmlt : m < D.blockSize := by omega
  rw [Nat.add_mul, Nat.one_mul] at hend
  have hadd : addRow d (l₁ ++ l₂) = ⟨j * D.blockSize + m, d.allocatedlimit + taken (dirents l₁), d.entries ++ dirents l₁⟩ := by
    rw [addRow_eq (by rw [hsize]; omega), hsize, hdirents, hptr, Nat.add_assoc, hm]
  refine ⟨dirents l₁, ?_⟩
  rw [hadd]
  refine ⟨.inside hb h₂ hmlt, rfl, rfl, ?_, ?_, fun h => absurd h (by simp)⟩
  · rw [left, hptr, hahead, left, ahead_inside hb h₂ hmlt]
    simp [dirents_eq_nil_iff.mpr hfree]
  · intro _
    rw [hdirents] at hsome
    rcases hsome with h | h
    · exact fun hc => h (Nat.eq_zero_of_add_eq_zero_right hc)
    · exact fun hc => h (taken_eq_zero_iff.mp (Nat.eq_zero_of_add_eq_zero_left hc))

/-- Behind a block the place is at the start of the next one. -/
theorem nextBlock_eq (hend : (j + 1) * D.blockSize < 2 ^ 32) (hpos : 0 < o) (ho : o ≤ D.blockSize) :
    nextBlock D.blockSize (j * D.blockSize + o) = (j + 1) * D.blockSize := by
  rw [Nat.add_mul, Nat.one_mul] at hend ⊢
  unfold nextBlock
  rcases Nat.lt_or_eq_of_le ho with hlt | rfl
  · dsimp only
    rw [mod_place hlt, if_pos (by omega), wrap_of_lt (by omega)]
    omega
  · dsimp only
    rw [Nat.add_mod_right, Nat.mul_mod_left, if_neg (by simp)]

/-- A row that is passed as a whole, and not left in its place, leads to the next block. -/
theorem passed_row (hb : D.blocks[j]? = some b) (hl : Tiles b o l D.blockSize)
    (hptr : d.ptr = j * D.blockSize + o) (hleaves : ¬(o = 0 ∧ dirents l = [])) :
    ({ addRow d l with ptr := nextBlock D.blockSize (addRow d l).ptr } : Dents) =
      ⟨(j + 1) * D.blockSize, d.allocatedlimit + taken (dirents l), d.entries ++ dirents l⟩ := by
  have hend := end_le hb
  have hle := liveSize_le l
  have hsum := hl.sum_size
  have hpos : 0 < o + liveSize l := by
    by_contra hzero
    refine hleaves ⟨by omega, dirents_eq_nil_of_liveSize hl.wellFormed (by omega)⟩
  have hsize : d.ptr + liveSize l < 2 ^ 64 := by
    rw [Nat.add_mul, Nat.one_mul] at hend
    omega
  rw [addRow_eq hsize]
  dsimp only
  rw [hptr, Nat.add_assoc, nextBlock_eq hend hpos (by omega)]

theorem advances_nil (hat : D.At d.ptr) (hleft : D.left d.ptr = []) : D.Advances d (d, false) [] :=
  ⟨hat, (List.append_nil _).symm, rfl, rfl, fun h => absurd h (by simp), fun _ => hleft⟩

theorem left_end : D.left (D.blocks.length * D.blockSize) = [] := by
  rw [left, ahead_block, List.drop_length]
  rfl

/-- The loop over the blocks, by the blocks that it has to go. -/
theorem getdentsLoop_advances (hat : D.At d.ptr) {n : ℕ} (hn : D.blocks.length ≤ n + d.ptr / D.blockSize)
    (hstep : InStep hardlimit d.allocatedlimit (decide (d.ptr % D.blockSize = 0)) (D.ahead d.ptr)) :
    ∃ r es, getdentsLoop D.blockSize hardlimit D.blocks n d = .ok r ∧ D.Advances d r es := by
  induction n generalizing d with
  | zero =>
    generalize hptr : d.ptr = place at hat
    cases hat with
    | finish => exact ⟨(d, false), [], rfl, advances_nil (hptr ▸ .finish) (hptr ▸ left_end)⟩
    | inside hb _ ho =>
      obtain ⟨hj, -⟩ := List.getElem?_eq_some_iff.mp hb
      rw [hptr, div_place ho] at hn
      omega
  | succ n ih =>
    generalize hptr : d.ptr = place at hat
    cases hat with
    | finish =>
      refine ⟨(d, false), [], ?_, advances_nil (hptr ▸ .finish) (hptr ▸ left_end)⟩
      rw [getdentsLoop, hptr, Nat.mul_div_cancel _ D.positive, List.getElem?_eq_none le_rfl]
    | @inside j o b l hb hl ho =>
      have hat : D.At d.ptr := hptr ▸ .inside hb hl ho
      have hmod : d.ptr % D.blockSize = o := by rw [hptr, mod_place ho]
      have hahead : D.ahead d.ptr = l :: (D.blocks.drop (j + 1)).map D.row := by rw [hptr, ahead_inside hb hl ho]
      rw [hptr, div_place ho] at hn
      rw [hahead, hmod, InStep] at hstep
      rw [getdentsLoop, hptr, div_place ho, hb]
      simp only
      rw [scanBlock_eq (hmod.symm ▸ hl), Exec.ok_bind]
      by_cases hrest : (pass hardlimit d.allocatedlimit l).2 = []
      · have hpassed : (pass hardlimit d.allocatedlimit l).1 = l := by
          have happend := pass_append hardlimit d.allocatedlimit l
          rwa [hrest, List.append_nil] at happend
        rw [if_pos hrest] at hstep
        simp only [hrest, hpassed, ne_eq, not_true_eq_false, decide_false, Bool.false_eq_true, if_false]
        by_cases hleaves : o = 0 ∧ dirents l = []
        · obtain ⟨rfl, hfree⟩ := hleaves
          have hlen := hl.length_le
          have hrow : D.row b = l := recordsFrom_eq hl (by omega)
          have hleft : D.left d.ptr = [] := by
            rw [if_pos ⟨by simp, hfree⟩] at hstep
            rw [left, hahead, List.flatten_cons, dirents_append, hfree, hstep]
            rfl
          have hnext : nextBlock D.blockSize d.ptr = d.ptr := by simp [nextBlock, hmod]
          rw [addRow_of_free (dirents_eq_nil_iff.mp hfree), hnext]
          exact ⟨(d, false), [], getdentsLoop_stuck hb (hrow.symm ▸ hfree) (by rw [hptr, Nat.add_zero]) n,
            advances_nil hat hleft⟩
        · obtain ⟨hj, -⟩ := List.getElem?_eq_some_iff.mp hb
          have hdiv : (j + 1) * D.blockSize / D.blockSize = j + 1 := Nat.mul_div_cancel _ D.positive
          rw [if_neg (by simpa using hleaves)] at hstep
          rw [passed_row hb hl hptr hleaves]
          obtain ⟨r, es, heq, h⟩ := ih (d := ⟨(j + 1) * D.blockSize, _, _⟩) (at_block hj) (by rw [hdiv]; omega)
            (by rw [ahead_block, Nat.mul_mod_left]; exact hstep)
          refine ⟨r, dirents l ++ es, heq, h.at', ?_, ?_, ?_, h.stop, h.rest⟩
          · rw [h.entries, List.append_assoc]
          · rw [h.allocatedlimit, taken_append, Nat.add_assoc]
          · rw [left, hahead, List.flatten_cons, dirents_append, List.append_assoc, ← h.left, left, ahead_block]
      · rw [if_neg hrest] at hstep
        obtain ⟨es, h⟩ := advances_stop hb hl ho hptr hrest hstep.1 hstep.2
        exact ⟨_, es, by simp [hrest], h⟩

/-- A call in step takes its entries off what is left. -/
theorem call_takes (hat : D.At ptr) (hstep : InStep hardlimit 0 (decide (ptr % D.blockSize = 0)) (D.ahead ptr)) :
    Cursor.Takes D.call Reply.entries (·.answer = .count 0) D.left D.At hardlimit ptr := by
  have hn : D.blocks.length ≤ D.blocks.length + ptr / D.blockSize := Nat.le_add_right _ _
  obtain ⟨r, es, heq, h⟩ := getdentsLoop_advances (d := ⟨ptr, 0, []⟩) hat hn hstep
  have hentries : r.1.entries = es := by rw [h.entries, List.nil_append]
  have htaken : r.1.allocatedlimit = taken es := by rw [h.allocatedlimit, Nat.zero_add]
  have hnot : ¬(r.2 = true ∧ r.1.allocatedlimit = 0) := fun hc => h.stop hc.1 hc.2
  refine ⟨r.1.ptr, ⟨.count (taken es), es⟩, ?_, h.at', h.left, ?_, ?_⟩
  · rw [call, ext2Getdents64, blocksContained_eq, heq, Exec.ok_bind, if_neg hnot, hentries, htaken]
  · simp [taken_eq_zero_iff]
  · intro hnil
    have hes : es = [] := hnil
    have hstop : r.2 = false := by
      by_contra htrue
      refine h.stop (by simpa using htrue) ?_
      rw [htaken, hes]
      rfl
    rw [h.left, h.rest hstop, hes]
    rfl

/-- Calls in step list the directory. -/
theorem lists_of_inStep (D : DirFile) (hardlimit : ℕ → ℕ)
    (hstep : ∀ n ptr l, Cursor.listed D.call Reply.entries hardlimit 0 n = .ok (ptr, l) →
      InStep (hardlimit n) 0 (decide (ptr % D.blockSize = 0)) (D.ahead ptr)) : D.Lists hardlimit := by
  have hstart : D.At 0 := by
    have h := at_block (D := D) (Nat.zero_le _)
    rwa [Nat.zero_mul] at h
  unfold Lists
  rw [← left_zero]
  exact Cursor.lists_of_takes hstart fun n ptr l hat hn => call_takes hat (hstep n ptr l hn)

/-! ### A removed record in front -/

def entryA : Dirent := ⟨12, 8, [97]⟩

def entryB : Dirent := ⟨13, 8, [98]⟩

/-- A directory of one block: a removed record, and the files `a` and `b`. -/
def sampleDir : DirFile where
  blockSize := 1024
  size := 1024
  blocks := [Ext2Directory.storeRecord (Ext2Directory.storeRecord (Ext2Directory.storeRecord (fun _ => 0) 0 12 1 [] 0)
    12 12 1 [97] 12) 24 1000 1 [98] 13]
  positive := by decide
  formed := by
    intro b hb
    rw [List.mem_singleton.mp hb]
    exact ⟨[⟨0, 12, 1, []⟩, ⟨12, 12, 1, [97]⟩, ⟨13, 1000, 1, [98]⟩], by decide +kernel⟩
  size_eq := rfl
  fields := by decide

/-- With a buffer for both, the first call lists them and the others return zero. -/
theorem sampleDir_listed (n : ℕ) : ∃ ptr l, (ptr = 0 ∨ ptr = 1024) ∧
    Cursor.listed sampleDir.call Reply.entries (fun _ => 100) 0 n = .ok (ptr, l) := by
  have hfirst : sampleDir.call 100 0 = .ok (1024, ⟨.count 50, [entryA, entryB]⟩) := by decide +kernel
  have hlater : sampleDir.call 100 1024 = .ok (1024, ⟨.count 0, []⟩) := by decide +kernel
  induction n with
  | zero => exact ⟨0, [], Or.inl rfl, rfl⟩
  | succ n ih =>
    obtain ⟨ptr, l, rfl | rfl, hn⟩ := ih
    · exact ⟨1024, _, Or.inr rfl, Cursor.listed_succ hn hfirst⟩
    · exact ⟨1024, _, Or.inr rfl, Cursor.listed_succ hn hlater⟩

theorem lists_sample : sampleDir.Lists fun _ => 100 := by
  apply lists_of_inStep
  intro n ptr l h
  obtain ⟨place, l', hplace, h'⟩ := sampleDir_listed n
  rw [h'] at h
  cases h
  rcases hplace with rfl | rfl
  · decide +kernel
  · decide +kernel

/-- With buffers for one entry each, the second call lists the first file again. -/
theorem removed_record_lists_twice : ¬sampleDir.Lists fun _ => 28 := by
  have h₁ : Cursor.listed sampleDir.call Reply.entries (fun _ => 28) 0 1 = .ok (12, [entryA]) := by decide +kernel
  have h₂ : Cursor.listed sampleDir.call Reply.entries (fun _ => 28) 0 2 = .ok (24, [entryA, entryA]) := by decide +kernel
  have h₃ : Cursor.listed sampleDir.call Reply.entries (fun _ => 28) 0 3 = .ok (1024, [entryA, entryA, entryB]) := by
    decide +kernel
  have hend : sampleDir.call 28 1024 = .ok (1024, ⟨.count 0, []⟩) := by decide +kernel
  have hfull : dirents sampleDir.rows.flatten = [entryA, entryB] := by decide +kernel
  rintro ⟨n, t, hn, -, hbefore⟩
  rw [hfull] at hn
  have hle : n ≤ 3 := by
    by_contra hgt
    obtain ⟨u, r, hcall, hnot⟩ := hbefore 3 (by omega) _ _ h₃
    rw [hend] at hcall
    cases hcall
    exact hnot rfl
  have htwice : ∀ l, Cursor.listed sampleDir.call Reply.entries (fun _ => 28) 0 n = .ok (t, l) → l ≠ [entryA, entryB] := by
    intro l hl
    interval_cases n
    · cases hl
      decide
    · cases h₁.symm.trans hl
      decide
    · cases h₂.symm.trans hl
      decide
    · cases h₃.symm.trans hl
      decide
  exact htwice _ hn rfl

end DirFile

end Getdents

end DualFuse.Filesystems
