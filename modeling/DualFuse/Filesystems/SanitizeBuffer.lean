import DualFuse.Filesystems.Sanitize
import DualFuse.Library.Traced

/-! `fsSanitize` on its buffer (`filesystems/vfs/vfs_sanitize.cpp`). The memory is seen from
the first byte of the block that `malloc` gave, whatever lies behind the block included.
Each byte that is read or written through the buffer is recorded, and each copy within it.
An empty name writes one byte behind the block, and the copy that takes out `..` is longer
than what comes after its source by the length of the component that goes with it. -/

namespace DualFuse.Filesystems.VfsPath

open Library PathText

/-- Memory, from the first byte of the block on. -/
abbrev Bytes := ℕ → BitVec 8

/-- A byte is read or written, or bytes are copied within the buffer, where `left` bytes of the
string and its terminator come after the source. -/
inductive BufferAccess where
  | byte (index : ℕ)
  | copy (target source length left : ℕ)
  deriving DecidableEq

/-- The access stays in a block of `size` bytes, and a copy takes no more than there is. -/
def BufferAccess.Inside (size : ℕ) : BufferAccess → Prop
  | .byte index => index < size
  | .copy target source length left => target + length ≤ size ∧ source + length ≤ size ∧ length ≤ left

instance (size : ℕ) (a : BufferAccess) : Decidable (a.Inside size) :=
  match a with
  | .byte index => inferInstanceAs (Decidable (index < size))
  | .copy target source length left =>
    inferInstanceAs (Decidable (target + length ≤ size ∧ source + length ≤ size ∧ length ≤ left))

namespace SanitizeBuffer

def readByte (mem : Bytes) (i : ℕ) : Traced BufferAccess (BitVec 8) := .access (.byte i) (.ok (mem i))

def writeByte (mem : Bytes) (i : ℕ) (c : BitVec 8) : Traced BufferAccess Bytes :=
  .access (.byte i) (.ok (Function.update mem i c))

/-- These bytes stand in memory from `start` on. -/
def writeList (mem : Bytes) (start : ℕ) (l : PathName) : Bytes := fun k =>
  if start ≤ k ∧ k < start + l.length then l.getD (k - start) 0 else mem k

/-- `memcpy` from elsewhere to the start of the buffer. -/
def copyIn (mem : Bytes) (l : PathName) : Traced BufferAccess Bytes :=
  ⟨(List.range l.length).map .byte, .ok (writeList mem 0 l)⟩

/-- `memcpy` within the buffer, to a lower address. -/
def copyWithin (mem : Bytes) (target source length left : ℕ) : Traced BufferAccess Bytes :=
  .access (.copy target source length left)
    (.ok fun k => if target ≤ k ∧ k < target + length then mem (k - target + source) else mem k)

/-- The string that is copied: another one, or the one in the buffer. -/
def readFrom (other : Option PathName) (mem : Bytes) (i : ℕ) : Traced BufferAccess (BitVec 8) :=
  match other with
  | none => readByte mem i
  | some s => pure (s.getD i 0)

/-- What the loop of `fsSanitizeCopySafe` does at a place: it ends, or goes on by one or two
bytes and may copy one. -/
def copyStep (other : Option PathName) (mem : Bytes) (i : ℕ) :
    Traced BufferAccess (Option (ℕ × Option (BitVec 8))) := do
  let c ← readFrom other mem i
  if c = 0 then pure none
  else if c = slash then do
    let d ← readFrom other mem (i + 1)
    if d = slash ∨ d = 0 then pure (some (1, none))
    else if d = dot then do
      let e ← readFrom other mem (i + 2)
      if e = slash ∨ e = 0 then pure (some (2, none)) else pure (some (1, some c))
    else pure (some (1, some c))
  else pure (some (1, some c))

def copySafeLoop (other : Option PathName) (dst : ℕ) : ℕ → Bytes → ℕ → ℕ → Traced BufferAccess (Bytes × ℕ)
  | 0, _, _, _ => .quiet (.error .fault)
  | n + 1, mem, i, j => do
    match ← copyStep other mem i with
    | none => pure (mem, j)
    | some (m, none) => copySafeLoop other dst n mem (i + m) j
    | some (m, some c) => do
      let mem ← writeByte mem (dst + j) c
      copySafeLoop other dst n mem (i + m) (j + 1)

def fsSanitizeCopySafe (other : Option PathName) (rounds : ℕ) (mem : Bytes) (dst : ℕ) :
    Traced BufferAccess Bytes := do
  let (mem, j) ← copySafeLoop other dst rounds mem 0 0
  let mem ← writeByte mem (dst + j) 0
  if j = 0 then do
    let mem ← writeByte mem dst slash
    writeByte mem (dst + 1) 0
  else pure mem

def strlenFrom (mem : Bytes) : ℕ → ℕ → Traced BufferAccess ℕ
  | 0, _ => .quiet (.error .fault)
  | n + 1, i => do
    let c ← readByte mem i
    if c = 0 then pure i else strlenFrom mem n (i + 1)

/-- `/..` stands at the place; the bytes are read as far as needed. -/
def readDotDot (mem : Bytes) (i : ℕ) : Traced BufferAccess Bool := do
  let c ← readByte mem i
  if c ≠ slash then pure false
  else do
    let d ← readByte mem (i + 1)
    if d ≠ dot then pure false
    else do
      let e ← readByte mem (i + 2)
      if e ≠ dot then pure false
      else do
        let f ← readByte mem (i + 3)
        pure (decide (f = slash ∨ f = 0))

def readIndexToCopyInto (mem : Bytes) : ℕ → Traced BufferAccess ℕ
  | 0 => pure 0
  | i + 1 => do
    let c ← readByte mem i
    if c = slash then pure i else readIndexToCopyInto mem i

/-- The loop that takes out `/..`. -/
def dotDotLoop : ℕ → Bytes → ℕ → ℕ → Traced BufferAccess (Bytes × ℕ)
  | 0, _, _, _ => .quiet (.error .fault)
  | n + 1, mem, finalSize, i =>
    if i < finalSize then do
      if ← readDotDot mem i then do
        let into ← readIndexToCopyInto mem i
        let mem ← copyWithin mem into (i + 3) (finalSize - into - 3 + 1) (finalSize + 1 - (i + 3))
        dotDotLoop n mem (finalSize - ((i + 3) - into)) into
      else dotDotLoop n mem finalSize (i + 1)
    else pure (mem, finalSize)

/-- The end of `fsSanitize`: the length is known, `..` is taken out, and nothing is the root. -/
def finish (rounds : ℕ) (mem : Bytes) : Traced BufferAccess Bytes := do
  let finalSize ← strlenFrom mem rounds 0
  let (mem, finalSize) ← dotDotLoop (finalSize + 1) mem finalSize 0
  if finalSize = 0 then do
    let mem ← writeByte mem 0 slash
    writeByte mem 1 0
  else pure mem

/-- A slash goes between the working directory and the name. -/
def offset (cwd : PathName) : ℕ := if cwd.head? = some slash ∧ 1 < cwd.length then 1 else 0

def writeSeparator (mem : Bytes) (cwd : PathName) : Traced BufferAccess Bytes :=
  if offset cwd = 1 then writeByte mem cwd.length slash else pure mem

/-- The bytes that `malloc` is asked for. -/
def blockSize (cwd filename : PathName) : ℕ :=
  if filename.head? = some slash then filename.length + 1 else cwd.length + 1 + filename.length + 1

def fsSanitize (mem : Bytes) (cwd filename : PathName) : Traced BufferAccess Bytes :=
  let rounds := cwd.length + filename.length + 3
  if filename.head? = some slash then do
    let mem ← fsSanitizeCopySafe (some filename) rounds mem 0
    finish rounds mem
  else do
    let mem ← copyIn mem cwd
    let mem ← writeSeparator mem cwd
    let mem ← fsSanitizeCopySafe (some filename) rounds mem (offset cwd + cwd.length)
    let mem ← fsSanitizeCopySafe none rounds mem 0
    let mem ← writeByte mem (cwd.length + offset cwd + filename.length) 0
    finish rounds mem

/-! ### Strings in memory -/

/-- The string and its terminator stand at the start of the buffer. -/
def Holds (mem : Bytes) (s : PathName) : Prop := ∀ k ≤ s.length, mem k = s.getD k 0

section Memory
variable {mem : Bytes} {s l : PathName} {i start : ℕ}

theorem writeList_nil : writeList mem start [] = mem := by
  funext k
  exact if_neg (by simp)

theorem writeList_cons (c : BitVec 8) :
    writeList (Function.update mem start c) (start + 1) l = writeList mem start (c :: l) := by
  funext k
  unfold writeList
  rw [List.length_cons]
  rcases lt_trichotomy k start with hlt | rfl | hgt
  · rw [if_neg (by omega), if_neg (by omega), Function.update_of_ne hlt.ne]
  · rw [if_neg (by omega), if_pos ⟨le_rfl, by omega⟩, Function.update_self, Nat.sub_self, List.getD_cons_zero]
  · by_cases hin : k < start + 1 + l.length
    · rw [if_pos ⟨hgt, hin⟩, if_pos ⟨hgt.le, by omega⟩, show k - start = k - (start + 1) + 1 by omega,
        List.getD_cons_succ]
    · rw [if_neg (by omega), if_neg (by omega), Function.update_of_ne hgt.ne']

theorem writeList_append (r : PathName) :
    writeList (writeList mem start l) (start + l.length) r = writeList mem start (l ++ r) := by
  induction l generalizing mem start with
  | nil =>
    rw [writeList_nil]
    rfl
  | cons c l ih =>
    rw [← writeList_cons, List.length_cons, show start + (l.length + 1) = start + 1 + l.length by omega, ih,
      writeList_cons]
    rfl

theorem getD_append_zero (s : PathName) (k : ℕ) : (s ++ [0]).getD k 0 = s.getD k 0 := by
  rw [List.getD_eq_getElem?_getD, List.getD_eq_getElem?_getD]
  rcases lt_or_ge k s.length with hlt | hge
  · rw [List.getElem?_append_left hlt]
  · rw [List.getElem?_append_right hge, List.getElem?_eq_none hge]
    cases k - s.length with
    | zero => rfl
    | succ m => rfl

theorem getD_length (s : PathName) {k : ℕ} (hk : s.length ≤ k) : s.getD k 0 = 0 := by
  rw [List.getD_eq_getElem?_getD, List.getElem?_eq_none hk]
  rfl

theorem holds_writeList (mem : Bytes) (s : PathName) : Holds (writeList mem 0 (s ++ [0])) s := by
  intro k hk
  rw [writeList, if_pos ⟨Nat.zero_le k, by simp; omega⟩, Nat.sub_zero, getD_append_zero]

/-- A zero behind the string changes nothing, one inside ends it. -/
theorem Holds.cut (h : Holds mem s) (n : ℕ) : Holds (Function.update mem n 0) (s.take n) := by
  intro k hk
  rw [List.length_take] at hk
  rcases eq_or_ne k n with rfl | hne
  · rw [Function.update_self, getD_length]
    rw [List.length_take]
    exact min_le_left _ _
  · rw [Function.update_of_ne hne, h k (by omega), List.getD_eq_getElem?_getD, List.getD_eq_getElem?_getD,
      List.getElem?_take_of_lt (by omega)]

theorem Holds.getElem? (h : Holds mem s) (hi : i < s.length) : s[i]? = some (mem i) := by
  rw [h i hi.le, List.getD_eq_getElem?_getD, List.getElem?_eq_getElem hi, Option.getD_some]

theorem Holds.zero (h : Holds mem s) : mem s.length = 0 := by
  rw [h s.length le_rfl, getD_length s le_rfl]

theorem Holds.ne_zero (h : Holds mem s) (hs : 0 ∉ s) (hi : i < s.length) : mem i ≠ 0 := by
  intro hzero
  have hget := h.getElem? hi
  rw [hzero] at hget
  exact hs (List.mem_of_getElem? hget)

end Memory

/-! ### The copy -/

/-- What is read at a place of the string that is copied. -/
def seen (other : Option PathName) (mem : Bytes) (i : ℕ) : BitVec 8 :=
  match other with
  | none => mem i
  | some s => s.getD i 0

/-- From the place on, this is left of the string. -/
def Reads (other : Option PathName) (mem : Bytes) (i : ℕ) (rest : PathName) : Prop :=
  ∀ k ≤ rest.length, seen other mem (i + k) = rest.getD k 0

/-- The choice of `copyStep`, from the three bytes it may read. -/
def copyChoice (c d e : BitVec 8) : Option (ℕ × Option (BitVec 8)) :=
  if c = 0 then none
  else if c = slash then
    if d = slash ∨ d = 0 then some (1, none)
    else if d = dot then if e = slash ∨ e = 0 then some (2, none) else some (1, some c)
    else some (1, some c)
  else some (1, some c)

section Copy
variable {other : Option PathName} {mem : Bytes} {rest : PathName} {size dst i j n : ℕ}

theorem readFrom_yields (h : other = none → i < size) :
    (readFrom other mem i).Yields (BufferAccess.Inside size) (seen other mem i) := by
  cases other with
  | none => exact ⟨rfl, (Traced.within_access _ _).mpr (h rfl)⟩
  | some s => exact Traced.yields_pure _

theorem writeByte_yields (h : i < size) (c : BitVec 8) :
    (writeByte mem i c).Yields (BufferAccess.Inside size) (Function.update mem i c) :=
  ⟨rfl, (Traced.within_access _ _).mpr h⟩

/-- Bytes behind the first that is zero are not read. -/
theorem copyStep_yields (h : Reads other mem i rest) (hsize : other = none → i + rest.length < size) :
    (copyStep other mem i).Yields (BufferAccess.Inside size)
      (copyChoice (rest.getD 0 0) (rest.getD 1 0) (rest.getD 2 0)) := by
  have hread : ∀ k ≤ rest.length, (readFrom other mem (i + k)).Yields (BufferAccess.Inside size) (rest.getD k 0) := by
    intro k hk
    rw [← h k hk]
    refine readFrom_yields fun hnone => ?_
    have := hsize hnone
    omega
  have hlong : ∀ k, rest.getD k 0 ≠ 0 → k < rest.length := by
    intro k hne
    by_contra hge
    exact hne (getD_length rest (by omega))
  unfold copyStep copyChoice
  refine (hread 0 (Nat.zero_le _)).bind ?_
  split_ifs with hzero hslash hone hdot htwo
  · exact Traced.yields_pure _
  · refine (hread 1 (hlong 0 hzero)).bind ?_
    rw [if_pos hone]
    exact Traced.yields_pure _
  · have hlt := hlong 1 fun heq => hone (.inr heq)
    refine (hread 1 (hlong 0 hzero)).bind ?_
    rw [if_neg hone, if_pos hdot]
    refine (hread 2 hlt).bind ?_
    rw [if_pos htwo]
    exact Traced.yields_pure _
  · have hlt := hlong 1 fun heq => hone (.inr heq)
    refine (hread 1 (hlong 0 hzero)).bind ?_
    rw [if_neg hone, if_pos hdot]
    refine (hread 2 hlt).bind ?_
    rw [if_neg htwo]
    exact Traced.yields_pure _
  · refine (hread 1 (hlong 0 hzero)).bind ?_
    rw [if_neg hone, if_neg hdot]
    exact Traced.yields_pure _
  · exact Traced.yields_pure _

/-- What is left after some bytes. -/
theorem Reads.drop (h : Reads other mem i rest) {m : ℕ} (hm : m ≤ rest.length) :
    Reads other mem (i + m) (rest.drop m) := by
  intro k hk
  rw [List.length_drop] at hk
  rw [Nat.add_assoc, h (m + k) (by omega), List.getD_eq_getElem?_getD, List.getD_eq_getElem?_getD, List.getElem?_drop]

/-- A byte that is written behind the place of reading is not read again. -/
theorem Reads.update (h : Reads other mem i rest) (hplace : other = none → j < i) (c : BitVec 8) :
    Reads other (Function.update mem j c) i rest := by
  intro k hk
  rw [← h k hk]
  cases other with
  | none =>
    have := hplace rfl
    exact Function.update_of_ne (by omega) _ _
  | some s => rfl

/-- The choice is that of `sanitizeCopy`. -/
theorem copyChoice_spec (hrest : 0 ∉ rest) :
    (copyChoice (rest.getD 0 0) (rest.getD 1 0) (rest.getD 2 0) = none ∧ rest = []) ∨
      ∃ m out, copyChoice (rest.getD 0 0) (rest.getD 1 0) (rest.getD 2 0) = some (m, out) ∧ 0 < m ∧ m ≤ rest.length ∧
        sanitizeCopy rest = out.toList ++ sanitizeCopy (rest.drop m) := by
  match rest with
  | [] => exact .inl ⟨rfl, rfl⟩
  | [c] =>
    have hc : c ≠ 0 := fun heq => hrest (by simp [heq])
    right
    by_cases hslash : c = slash
    · refine ⟨1, none, ?_, one_pos, le_rfl, by simp [sanitizeCopy, hslash]⟩
      exact (if_neg hc).trans ((if_pos hslash).trans (if_pos (.inr rfl)))
    · exact ⟨1, some c, (if_neg hc).trans (if_neg hslash), one_pos, le_rfl, by simp [sanitizeCopy, hslash]⟩
  | c :: d :: rest =>
    have hc : c ≠ 0 := fun heq => hrest (by simp [heq])
    have hd : d ≠ 0 := fun heq => hrest (by simp [heq])
    have hnext : (rest.head? = some slash ∨ rest = []) ↔ (rest.getD 0 0 = slash ∨ rest.getD 0 0 = 0) := by
      cases rest with
      | nil => exact iff_of_true (.inr rfl) (.inr rfl)
      | cons e rest =>
        have he : e ≠ 0 := fun heq => hrest (by simp [heq])
        rw [List.head?_cons, List.getD_cons_zero, or_iff_left (List.cons_ne_nil e rest), or_iff_left he,
          Option.some.injEq]
    right
    rw [sanitizeCopy]
    simp only [hnext]
    simp only [copyChoice, List.getD_cons_zero, List.getD_cons_succ, if_neg hc]
    by_cases hslash : c = slash
    · subst hslash
      by_cases hdd : d = slash
      · refine ⟨1, none, ?_, one_pos, by simp, ?_⟩
        · rw [if_pos rfl, if_pos (.inl hdd)]
        · rw [if_pos ⟨rfl, hdd⟩]
          rfl
      · by_cases hdot : d = dot
        · by_cases he : rest.getD 0 0 = slash ∨ rest.getD 0 0 = 0
          · refine ⟨2, none, ?_, two_pos, by simp, ?_⟩
            · rw [if_pos rfl, if_neg (not_or.mpr ⟨hdd, hd⟩), if_pos hdot, if_pos he]
            · rw [if_neg fun h => hdd h.2, if_pos ⟨rfl, hdot, he⟩]
              rfl
          · refine ⟨1, some slash, ?_, one_pos, by simp, ?_⟩
            · rw [if_pos rfl, if_neg (not_or.mpr ⟨hdd, hd⟩), if_pos hdot, if_neg he]
            · rw [if_neg fun h => hdd h.2, if_neg fun h => he h.2.2]
              rfl
        · refine ⟨1, some slash, ?_, one_pos, by simp, ?_⟩
          · rw [if_pos rfl, if_neg (not_or.mpr ⟨hdd, hd⟩), if_neg hdot]
          · rw [if_neg fun h => hdd h.2, if_neg fun h => hdot h.2.1]
            rfl
    · refine ⟨1, some c, if_neg hslash, one_pos, by simp, ?_⟩
      rw [if_neg fun h => hslash h.1, if_neg fun h => hslash h.1]
      rfl

theorem copySafeLoop_yields (hn : rest.length < n) (hrest : 0 ∉ rest) (h : Reads other mem i rest)
    (hplace : other = none → dst + j ≤ i) (hsize : other = none → i + rest.length < size)
    (hdst : dst + j + (sanitizeCopy rest).length ≤ size) :
    (copySafeLoop other dst n mem i j).Yields (BufferAccess.Inside size)
      (writeList mem (dst + j) (sanitizeCopy rest), j + (sanitizeCopy rest).length) := by
  induction n generalizing mem i j rest with
  | zero => exact absurd hn (Nat.not_lt_zero _)
  | succ n ih =>
    have hstep := copyStep_yields h hsize
    rcases copyChoice_spec hrest with ⟨hchoice, rfl⟩ | ⟨m, out, hchoice, hpos, hm, hcopy⟩
    · rw [hchoice] at hstep
      refine hstep.bind ?_
      rw [sanitizeCopy, writeList_nil]
      exact Traced.yields_pure _
    · rw [hchoice] at hstep
      rw [hcopy] at hdst ⊢
      have hlength : (rest.drop m).length = rest.length - m := List.length_drop
      have hdrop : 0 ∉ rest.drop m := fun hmem => hrest (List.mem_of_mem_drop hmem)
      refine hstep.bind ?_
      cases out with
      | none =>
        refine ih (by omega) hdrop (h.drop hm) (fun hnone => ?_) (fun hnone => ?_) hdst
        · exact (hplace hnone).trans (Nat.le_add_right i m)
        · have := hsize hnone
          omega
      | some c =>
        have hcons : (some c).toList ++ sanitizeCopy (rest.drop m) = c :: sanitizeCopy (rest.drop m) := rfl
        rw [hcons, List.length_cons] at hdst ⊢
        refine (writeByte_yields (by omega) c).bind ?_
        have hnext : Reads other (Function.update mem (dst + j) c) (i + m) (rest.drop m) := by
          refine (h.drop hm).update (fun hnone => ?_) c
          have := hplace hnone
          omega
        rw [← writeList_cons, show j + ((sanitizeCopy (rest.drop m)).length + 1) =
          j + 1 + (sanitizeCopy (rest.drop m)).length by omega, Nat.add_assoc dst j 1]
        refine ih (by omega) hdrop hnext (fun hnone => ?_) (fun hnone => ?_) (by omega)
        · have := hplace hnone
          omega
        · have := hsize hnone
          omega

/-- The copy of a string; nothing becomes the root. -/
theorem fsSanitizeCopySafe_yields {s : PathName} {rounds : ℕ} (hn : s.length < rounds) (hs : 0 ∉ s)
    (h : Reads other mem 0 s) (hplace : other = none → dst = 0) (hsize : other = none → s.length < size)
    (hdst : dst + (VfsPath.fsSanitizeCopySafe s).length < size) :
    (fsSanitizeCopySafe other rounds mem dst).Yields (BufferAccess.Inside size)
      (writeList mem dst (VfsPath.fsSanitizeCopySafe s ++ [0])) := by
  have hcopy : dst + (sanitizeCopy s).length < size := by
    unfold VfsPath.fsSanitizeCopySafe at hdst
    split_ifs at hdst with hempty
    · rw [hempty]
      simp only [List.length_nil]
      omega
    · exact hdst
  have hloop : (copySafeLoop other dst rounds mem 0 0).Yields (BufferAccess.Inside size)
      (writeList mem dst (sanitizeCopy s), (sanitizeCopy s).length) := by
    rw [← Nat.zero_add (sanitizeCopy s).length]
    exact copySafeLoop_yields (j := 0) hn hs h (fun hnone => by rw [hplace hnone])
      (fun hnone => by rw [Nat.zero_add]; exact hsize hnone) hcopy.le
  refine hloop.bind ?_
  refine (writeByte_yields hcopy 0).bind ?_
  unfold VfsPath.fsSanitizeCopySafe at hdst ⊢
  by_cases hempty : sanitizeCopy s = []
  · rw [if_pos hempty] at hdst ⊢
    rw [hempty, List.length_nil, if_pos rfl]
    refine (writeByte_yields (by omega) slash).bind ?_
    have hbytes : Function.update (Function.update (Function.update (writeList mem dst []) (dst + 0) 0) dst slash)
        (dst + 1) 0 = writeList mem dst (root ++ [0]) := by
      rw [writeList_nil, Nat.add_zero, Function.update_idem]
      change _ = writeList mem dst [slash, 0]
      rw [← writeList_cons, ← writeList_cons, writeList_nil]
    rw [← hbytes]
    exact writeByte_yields hdst 0
  · have hne : (sanitizeCopy s).length ≠ 0 := fun heq => hempty (List.length_eq_zero_iff.mp heq)
    rw [if_neg hempty, if_neg hne]
    have hbytes : Function.update (writeList mem dst (sanitizeCopy s)) (dst + (sanitizeCopy s).length) 0 =
        writeList mem dst (sanitizeCopy s ++ [0]) := by
      rw [← writeList_append, ← writeList_cons, writeList_nil]
    rw [hbytes]
    exact Traced.yields_pure _

end Copy

/-! ### The loop over `..` -/

section DotDot
variable {mem : Bytes} {s : PathName} {size i n : ℕ}

theorem readByte_yields (h : i < size) : (readByte mem i).Yields (BufferAccess.Inside size) (mem i) :=
  ⟨rfl, (Traced.within_access _ _).mpr h⟩

/-- A byte that is not zero is a byte of the string. -/
theorem Holds.getElem?_iff (h : Holds mem s) (hi : i ≤ s.length) {c : BitVec 8} (hc : c ≠ 0) :
    s[i]? = some c ↔ mem i = c := by
  rw [h i hi, List.getD_eq_getElem?_getD]
  cases s[i]? with
  | none => exact iff_of_false (by simp) fun heq => hc heq.symm
  | some d => simp

theorem Holds.lt_length (h : Holds mem s) (hi : i ≤ s.length) (hne : mem i ≠ 0) : i < s.length := by
  rcases hi.eq_or_lt with rfl | hlt
  · exact absurd h.zero hne
  · exact hlt

theorem Holds.none_iff (h : Holds mem s) (hs : 0 ∉ s) (hi : i ≤ s.length) : s[i]? = none ↔ mem i = 0 := by
  rw [List.getElem?_eq_none_iff]
  refine ⟨fun hge => ?_, fun hzero => ?_⟩
  · rw [le_antisymm hi hge, h.zero]
  · by_contra hlt
    exact h.ne_zero hs (not_le.mp hlt) hzero

theorem strlenFrom_yields (h : Holds mem s) (hs : 0 ∉ s) (hsize : s.length < size) (hi : i ≤ s.length)
    (hn : s.length - i < n) : (strlenFrom mem n i).Yields (BufferAccess.Inside size) s.length := by
  induction n generalizing i with
  | zero => exact absurd hn (Nat.not_lt_zero _)
  | succ n ih =>
    refine (readByte_yields (hi.trans_lt hsize)).bind ?_
    rcases hi.eq_or_lt with rfl | hlt
    · rw [if_pos h.zero]
      exact Traced.yields_pure _
    · rw [if_neg (h.ne_zero hs hlt)]
      exact ih hlt (by omega)

theorem readDotDot_yields (h : Holds mem s) (hs : 0 ∉ s) (hsize : s.length < size) (hi : i ≤ s.length) :
    (readDotDot mem i).Yields (BufferAccess.Inside size) (decide (isDotDot s i)) := by
  have hread : ∀ k ≤ s.length, (readByte mem k).Yields (BufferAccess.Inside size) (mem k) :=
    fun k hk => readByte_yields (hk.trans_lt hsize)
  have hslash : slash ≠ 0 := by decide
  have hdot : dot ≠ 0 := by decide
  unfold readDotDot
  refine (hread i hi).bind ?_
  by_cases h0 : mem i = slash
  · have hi1 : i + 1 ≤ s.length := h.lt_length hi (h0 ▸ hslash)
    rw [if_neg (not_not.mpr h0)]
    refine (hread _ hi1).bind ?_
    by_cases h1 : mem (i + 1) = dot
    · have hi2 : i + 2 ≤ s.length := h.lt_length hi1 (h1 ▸ hdot)
      rw [if_neg (not_not.mpr h1)]
      refine (hread _ hi2).bind ?_
      by_cases h2 : mem (i + 2) = dot
      · have hi3 : i + 3 ≤ s.length := h.lt_length hi2 (h2 ▸ hdot)
        rw [if_neg (not_not.mpr h2)]
        refine (hread _ hi3).bind ?_
        have hiff : isDotDot s i ↔ (mem (i + 3) = slash ∨ mem (i + 3) = 0) := by
          unfold isDotDot
          rw [h.getElem?_iff hi hslash, h.getElem?_iff hi1 hdot, h.getElem?_iff hi2 hdot, h.getElem?_iff hi3 hslash,
            h.none_iff hs hi3]
          simp only [h0, h1, h2, true_and]
        rw [decide_eq_decide.mpr hiff]
        exact Traced.yields_pure _
      · rw [if_pos h2, decide_eq_false fun hup => h2 ((h.getElem?_iff hi2 hdot).mp hup.2.2.1)]
        exact Traced.yields_pure _
    · rw [if_pos h1, decide_eq_false fun hup => h1 ((h.getElem?_iff hi1 hdot).mp hup.2.1)]
      exact Traced.yields_pure _
  · rw [if_pos h0, decide_eq_false fun hup => h0 ((h.getElem?_iff hi hslash).mp hup.1)]
    exact Traced.yields_pure _

theorem readIndexToCopyInto_yields (h : Holds mem s) (hsize : s.length < size) (hi : i ≤ s.length) :
    (readIndexToCopyInto mem i).Yields (BufferAccess.Inside size) (indexToCopyInto s i) := by
  induction i with
  | zero => exact Traced.yields_pure _
  | succ i ih =>
    refine (readByte_yields (by omega)).bind ?_
    have hiff := h.getElem?_iff (i := i) (by omega) (show slash ≠ 0 by decide)
    unfold indexToCopyInto
    by_cases hslash : mem i = slash
    · rw [if_pos hslash, if_pos (hiff.mpr hslash)]
      exact Traced.yields_pure _
    · rw [if_neg hslash, if_neg fun heq => hslash (hiff.mp heq)]
      exact ih (by omega)

theorem indexToCopyInto_le (s : PathName) (i : ℕ) : indexToCopyInto s i ≤ i := by
  induction i with
  | zero => exact le_rfl
  | succ i ih =>
    unfold indexToCopyInto
    split_ifs
    · exact Nat.le_succ i
    · exact ih.trans (Nat.le_succ i)

theorem indexToCopyInto_lt (hi : 0 < i) : indexToCopyInto s i < i := by
  obtain ⟨i, rfl⟩ : ∃ k, i = k + 1 := ⟨i - 1, by omega⟩
  unfold indexToCopyInto
  split_ifs
  · exact Nat.lt_succ_self i
  · exact Nat.lt_succ_of_le (indexToCopyInto_le s i)

theorem isDotDot_length (h : isDotDot s i) : i + 3 ≤ s.length := (List.getElem?_eq_some_iff.mp h.2.2.1).1

/-- The string after the bytes behind `/..` are copied down. -/
theorem Holds.copyWithin (h : Holds mem s) {into from_ length : ℕ} (hinto : into ≤ from_) (hfrom : from_ ≤ s.length)
    (hlength : s.length + 1 - from_ ≤ length) :
    Holds (fun k => if into ≤ k ∧ k < into + length then mem (k - into + from_) else mem k)
      (s.take into ++ s.drop from_) := by
  intro k hk
  have htake : (s.take into).length = into := List.length_take_of_le (hinto.trans hfrom)
  rw [List.length_append, htake, List.length_drop] at hk
  dsimp only
  rcases lt_or_ge k into with hlt | hge
  · rw [if_neg (by omega), h k (by omega), List.getD_eq_getElem?_getD, List.getD_eq_getElem?_getD,
      List.getElem?_append_left (by omega), List.getElem?_take_of_lt hlt]
  · rw [if_pos ⟨hge, by omega⟩, h (k - into + from_) (by omega), List.getD_eq_getElem?_getD, List.getD_eq_getElem?_getD,
      List.getElem?_append_right (by omega), List.getElem?_drop, htake, Nat.add_comm]

/-- The string that the round at `/..` leaves. -/
def withoutDotDot (s : PathName) (i : ℕ) : PathName := s.take (indexToCopyInto s i) ++ s.drop (i + 3)

theorem length_withoutDotDot (h : isDotDot s i) :
    (withoutDotDot s i).length = s.length - ((i + 3) - indexToCopyInto s i) := by
  have hle := indexToCopyInto_le s i
  have hlength := isDotDot_length h
  rw [withoutDotDot, List.length_append, List.length_take, List.length_drop]
  omega

theorem zero_notMem_withoutDotDot (hs : 0 ∉ s) : 0 ∉ withoutDotDot s i := by
  intro hmem
  rcases List.mem_append.mp hmem with hbefore | hafter
  · exact hs (List.mem_of_mem_take hbefore)
  · exact hs (List.mem_of_mem_drop hafter)

/-- A round at `/..`: the copy, then the rest. -/
theorem dotDotLoop_up (h : Holds mem s) (hs : 0 ∉ s) (hsize : s.length < size) (hup : isDotDot s i) (n : ℕ) :
    ∃ mem', Holds mem' (withoutDotDot s i) ∧
      (dotDotLoop (n + 1) mem s.length i).result =
        (dotDotLoop n mem' (withoutDotDot s i).length (indexToCopyInto s i)).result ∧
      ((dotDotLoop (n + 1) mem s.length i).Within (BufferAccess.Inside size) ↔
        i = 0 ∧
          (dotDotLoop n mem' (withoutDotDot s i).length (indexToCopyInto s i)).Within (BufferAccess.Inside size)) := by
  have hlength := isDotDot_length hup
  have hle := indexToCopyInto_le s i
  have hread := readDotDot_yields h hs hsize (i := i) (by omega)
  have hindex := readIndexToCopyInto_yields h hsize (i := i) (by omega)
  rw [decide_eq_true hup] at hread
  have hholds := h.copyWithin (show indexToCopyInto s i ≤ i + 3 by omega) hlength
    (show s.length + 1 - (i + 3) ≤ s.length - indexToCopyInto s i - 3 + 1 by omega)
  refine ⟨_, hholds, ?_, ?_⟩
  · rw [length_withoutDotDot hup, dotDotLoop, if_pos (by omega), Traced.result_bind, hread.1, Exec.ok_bind, if_pos rfl,
      Traced.result_bind, hindex.1, Exec.ok_bind, Traced.result_bind]
    rfl
  · rw [length_withoutDotDot hup, dotDotLoop, if_pos (by omega), hread.within_bind_iff, if_pos rfl,
      hindex.within_bind_iff, Traced.within_bind_iff]
    refine and_congr ?_ ?_
    · rw [copyWithin, Traced.within_access]
      unfold BufferAccess.Inside
      dsimp only
      constructor
      · rintro ⟨-, -, hleft⟩
        by_contra hne
        have := indexToCopyInto_lt (s := s) (Nat.pos_of_ne_zero hne)
        omega
      · rintro rfl
        rw [indexToCopyInto]
        omega
    · exact ⟨fun hrest => hrest _ rfl, fun hrest a ha => by cases ha; exact hrest⟩

/-- A round elsewhere. -/
theorem dotDotLoop_next (h : Holds mem s) (hs : 0 ∉ s) (hsize : s.length < size) (hi : i < s.length)
    (hup : ¬isDotDot s i) (n : ℕ) :
    (dotDotLoop (n + 1) mem s.length i).result = (dotDotLoop n mem s.length (i + 1)).result ∧
      ((dotDotLoop (n + 1) mem s.length i).Within (BufferAccess.Inside size) ↔
        (dotDotLoop n mem s.length (i + 1)).Within (BufferAccess.Inside size)) := by
  have hread := readDotDot_yields h hs hsize hi.le
  rw [decide_eq_false hup] at hread
  rw [dotDotLoop, if_pos hi, Traced.result_bind, hread.1, Exec.ok_bind, hread.within_bind_iff, if_neg (by decide)]
  exact ⟨rfl, Iff.rfl⟩

theorem dotDotLoop_end (hi : ¬i < s.length) (n : ℕ) : dotDotLoop (n + 1) mem s.length i = pure (mem, s.length) := by
  rw [dotDotLoop, if_neg hi]

/-- The loop ends with what `removeDotDot` makes of the string. -/
theorem dotDotLoop_result (h : Holds mem s) (hs : 0 ∉ s) (hn : s.length - i ≤ n) :
    ∃ mem', (dotDotLoop (n + 1) mem s.length i).result = .ok (mem', (removeDotDot n s i).length) ∧
      Holds mem' (removeDotDot n s i) := by
  induction n generalizing mem s i with
  | zero =>
    rw [dotDotLoop_end (by omega)]
    exact ⟨mem, rfl, h⟩
  | succ n ih =>
    unfold removeDotDot
    by_cases hi : i < s.length
    · rw [if_pos hi]
      by_cases hup : isDotDot s i
      · obtain ⟨mem', hholds, hresult, -⟩ := dotDotLoop_up h hs (Nat.lt_succ_self _) hup (n + 1)
        have hlength := isDotDot_length hup
        have hle := indexToCopyInto_le s i
        rw [if_pos hup, hresult]
        refine ih hholds (zero_notMem_withoutDotDot hs) ?_
        rw [length_withoutDotDot hup]
        omega
      · rw [if_neg hup, (dotDotLoop_next h hs (Nat.lt_succ_self _) hi hup (n + 1)).1]
        exact ih h hs (by omega)
    · rw [if_neg hi, dotDotLoop_end hi]
      exact ⟨mem, rfl, h⟩

/-- Away from the start, every `/..` that is found brings a copy that is too long. -/
theorem dotDotLoop_within_iff (h : Holds mem s) (hs : 0 ∉ s) (hsize : s.length < size) (hi : 0 < i)
    (hn : s.length - i ≤ n) :
    (dotDotLoop (n + 1) mem s.length i).Within (BufferAccess.Inside size) ↔ ∀ j, i ≤ j → ¬isDotDot s j := by
  have hend : ∀ {i}, ¬i < s.length → ∀ j, i ≤ j → ¬isDotDot s j := by
    intro i hge j hj hup
    have := isDotDot_length hup
    omega
  induction n generalizing i with
  | zero =>
    have hge : ¬i < s.length := by omega
    rw [dotDotLoop_end hge]
    exact iff_of_true (Traced.within_pure _) (hend hge)
  | succ n ih =>
    by_cases hlt : i < s.length
    · by_cases hup : isDotDot s i
      · obtain ⟨mem', -, -, hwithin⟩ := dotDotLoop_up h hs hsize hup (n + 1)
        rw [hwithin]
        exact iff_of_false (fun hzero => hi.ne' hzero.1) fun hnone => hnone i le_rfl hup
      · refine (dotDotLoop_next h hs hsize hlt hup (n + 1)).2.trans ((ih (Nat.succ_pos i) (by omega)).trans ?_)
        refine ⟨fun hnone j hj => ?_, fun hnone j hj => hnone j (by omega)⟩
        rcases hj.eq_or_lt with rfl | hlt
        · exact hup
        · exact hnone j hlt
    · rw [dotDotLoop_end hlt]
      exact iff_of_true (Traced.within_pure _) (hend hlt)

end DotDot

end SanitizeBuffer

end DualFuse.Filesystems.VfsPath
