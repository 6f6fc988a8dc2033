import DualFuse.Library.Execution

/-! Pseudo files that are backed by a string (`fakefsSimpleRead` and `fakefsSimpleSeek` of
`utility/fakefs/fakefs.cpp`, `fsUserSeek` of `filesystems/vfs/vfs_controller.cpp`). A read stops
at the terminator of the string, and a seek stores any pointer. A byte that lies neither in the
string nor is its terminator, a handler that is null and an `int` that overflows are faults. -/

namespace DualFuse.Filesystems

open Library

/-- The string at `extra`: a terminator follows it, and it lies in memory. -/
structure PseudoFile where
  text : List (BitVec 8)
  zero_notMem : 0 ∉ text
  length_lt : text.length < 2 ^ 64

/-- The handlers that a seek calls: the size of the file, and the pointer for a target. -/
structure SeekHandlers where
  getFilesize : Option (BitVec 64)
  seek : Option (BitVec 64 → BitVec 64)

def seekSet : BitVec 32 := 0

def seekCurr : BitVec 32 := 1

def seekEnd : BitVec 32 := 2

namespace PseudoFile

/-- The pointer of the descriptor, and what the reads returned. -/
structure State where
  pointer : BitVec 64
  outputs : List (List (BitVec 8))
  deriving DecidableEq, Repr

inductive Call where
  | read (limit : ℕ)
  | seek (offset whence : BitVec 32)
  deriving DecidableEq, Repr

section Model
variable (f : PseudoFile)

/-- The byte at `extra + i`. -/
def byteAt (i : ℕ) : Exec (BitVec 8) :=
  if i = f.text.length then .ok 0
  else
    match f.text[i]? with
    | none => .error .fault
    | some c => .ok c

/-- The loop from round `i` on, with the rounds that are left. -/
def simpleReadFrom (start : BitVec 64) : ℕ → ℕ → Exec (List (BitVec 8))
  | 0, _ => .ok []
  | left + 1, i => do
    let c ← f.byteAt (start + BitVec.ofNat 64 i).toNat
    if c = 0 then .ok []
    else if i + 1 = 2 ^ 31 then .error .fault
    else do
      let out ← simpleReadFrom start left (i + 1)
      .ok (c :: out)

def fakefsSimpleRead (pointer : BitVec 64) (limit : ℕ) : Exec (List (BitVec 8)) := f.simpleReadFrom pointer limit 0

end Model

def fakefsSimpleSeek (target : BitVec 64) : BitVec 64 := target

def fakefsSimpleReadHandlers : SeekHandlers := ⟨none, some fakefsSimpleSeek⟩

end PseudoFile

namespace SeekHandlers

def target (handlers : SeekHandlers) (pointer : BitVec 64) (offset whence : BitVec 32) : Exec (BitVec 32) :=
  if whence = seekSet then .ok offset
  else if whence = seekCurr then .ok (offset + pointer.setWidth 32)
  else if whence = seekEnd then
    match handlers.getFilesize with
    | none => .error .fault
    | some size => .ok (offset + size.setWidth 32)
  else .ok offset

/-- The pointer after the call, which is the old one where the file has no seek. -/
def fsUserSeek (handlers : SeekHandlers) (pointer : BitVec 64) (offset whence : BitVec 32) : Exec (BitVec 64) := do
  let target ← handlers.target pointer offset whence
  match handlers.seek with
  | none => .ok pointer
  | some seek => .ok (seek (target.signExtend 64))

end SeekHandlers

namespace PseudoFile

section Runs
variable (f : PseudoFile)

def step (s : State) : Call → Exec State
  | .read limit => do
    let out ← f.fakefsSimpleRead s.pointer limit
    .ok ⟨s.pointer + BitVec.ofNat 64 out.length, s.outputs ++ [out]⟩
  | .seek offset whence => do
    let pointer ← fakefsSimpleReadHandlers.fsUserSeek s.pointer offset whence
    .ok ⟨pointer, s.outputs⟩

/-- The bytes of the string from the pointer on, up to the limit. -/
def bytesFrom (pointer : BitVec 64) (limit : ℕ) : List (BitVec 8) := (f.text.drop pointer.toNat).take limit

/-- Where a seek leads in a file that knows its size. -/
def target (pointer : BitVec 64) (offset whence : BitVec 32) : BitVec 64 :=
  let base : BitVec 64 := if whence = seekCurr then pointer else if whence = seekEnd then f.text.length else 0
  (offset + base.setWidth 32).signExtend 64

/-- What the calls are to do. -/
def idealStep (s : State) : Call → State
  | .read limit =>
    let out := f.bytesFrom s.pointer limit
    ⟨s.pointer + BitVec.ofNat 64 out.length, s.outputs ++ [out]⟩
  | .seek offset whence => ⟨f.target s.pointer offset whence, s.outputs⟩

/-- A read of at least one byte starts in the string or at its end and finds less than `2 ^ 31` bytes;
a seek does not count from the end. -/
def Fits (s : State) : Call → Prop
  | .read limit => limit = 0 ∨ s.pointer.toNat ≤ f.text.length ∧ (f.bytesFrom s.pointer limit).length < 2 ^ 31
  | .seek _ whence => whence ≠ seekEnd

instance (s : State) : (c : Call) → Decidable (f.Fits s c)
  | .read limit => inferInstanceAs (Decidable (limit = 0 ∨
      s.pointer.toNat ≤ f.text.length ∧ (f.bytesFrom s.pointer limit).length < 2 ^ 31))
  | .seek _ whence => inferInstanceAs (Decidable (whence ≠ seekEnd))

end Runs

variable {f : PseudoFile} {start : BitVec 64} {i left : ℕ} {s : State} {c : Call}

theorem byteAt_end : f.byteAt f.text.length = .ok 0 := if_pos rfl

theorem byteAt_eq (h : i < f.text.length) : f.byteAt i = .ok (f.text[i]) := by
  rw [byteAt, if_neg h.ne, List.getElem?_eq_getElem h]

theorem byteAt_behind (h : f.text.length < i) : f.byteAt i = .error .fault := by
  rw [byteAt, if_neg h.ne', List.getElem?_eq_none h.le]

theorem byte_ne_zero (h : i < f.text.length) : f.text[i] ≠ 0 := by
  intro hzero
  exact f.zero_notMem (hzero ▸ List.getElem_mem h)

theorem toNat_add (h : start.toNat + i ≤ f.text.length) : (start + BitVec.ofNat 64 i).toNat = start.toNat + i := by
  have hlt := f.length_lt
  rw [BitVec.toNat_add, BitVec.toNat_ofNat]
  omega

/-- From a place in the string on, the loop reads up to the limit or the end. -/
theorem simpleReadFrom_eq (h : start.toNat + i ≤ f.text.length) (hi : i < 2 ^ 31) :
    f.simpleReadFrom start left i =
      if i + min left (f.text.length - (start.toNat + i)) < 2 ^ 31 then
        .ok ((f.text.drop (start.toNat + i)).take left)
      else .error .fault := by
  induction left generalizing i with
  | zero => rw [simpleReadFrom, Nat.zero_min, if_pos (by omega), List.take_zero]
  | succ left ih =>
    rw [simpleReadFrom, toNat_add h]
    rcases h.lt_or_eq with hlt | heq
    · rw [byteAt_eq hlt, Exec.ok_bind, if_neg (byte_ne_zero hlt), List.drop_eq_getElem_cons hlt, List.take_succ_cons]
      by_cases hmax : i + 1 = 2 ^ 31
      · rw [if_pos hmax, if_neg (by omega)]
      · have hcount : i + 1 + min left (f.text.length - (start.toNat + (i + 1))) =
            i + min (left + 1) (f.text.length - (start.toNat + i)) := by omega
        rw [if_neg hmax, ih (by omega) (by omega), hcount, ← Nat.add_assoc]
        split_ifs
        · rfl
        · rfl
    · rw [heq, byteAt_end, Exec.ok_bind, if_pos rfl, if_pos (by omega), List.drop_length, List.take_nil]

theorem bytesFrom_length (limit : ℕ) :
    (f.bytesFrom start limit).length = min limit (f.text.length - start.toNat) := by
  rw [bytesFrom, List.length_take, List.length_drop]

theorem fakefsSimpleRead_eq {limit : ℕ} (h : f.Fits s (.read limit)) :
    f.fakefsSimpleRead s.pointer limit = .ok (f.bytesFrom s.pointer limit) := by
  rcases h with rfl | ⟨hplace, hlength⟩
  · rfl
  · rw [bytesFrom_length] at hlength
    rw [fakefsSimpleRead, simpleReadFrom_eq (by omega) (by omega), if_pos (by simpa using hlength)]
    rfl

theorem fakefsSimpleRead_fault {limit : ℕ} (h : ¬f.Fits s (.read limit)) :
    f.fakefsSimpleRead s.pointer limit = .error .fault := by
  obtain ⟨hlimit, hbad⟩ := not_or.mp h
  by_cases hplace : s.pointer.toNat ≤ f.text.length
  · have hlength : ¬(f.bytesFrom s.pointer limit).length < 2 ^ 31 := fun hlt => hbad ⟨hplace, hlt⟩
    rw [bytesFrom_length] at hlength
    rw [fakefsSimpleRead, simpleReadFrom_eq (by omega) (by omega), if_neg (by simpa using hlength)]
  · obtain ⟨limit, rfl⟩ := Nat.exists_eq_succ_of_ne_zero hlimit
    rw [fakefsSimpleRead, simpleReadFrom, show s.pointer + BitVec.ofNat 64 0 = s.pointer from BitVec.add_zero _,
      byteAt_behind (not_le.mp hplace)]
    rfl

theorem fsUserSeek_eq {pointer : BitVec 64} {offset whence : BitVec 32} (h : whence ≠ seekEnd) :
    fakefsSimpleReadHandlers.fsUserSeek pointer offset whence = .ok (f.target pointer offset whence) := by
  have hbase : (.ok (offset.signExtend 64) : Exec (BitVec 64)) =
      .ok ((offset + (0 : BitVec 64).setWidth 32).signExtend 64) := by simp
  rw [SeekHandlers.fsUserSeek, SeekHandlers.target, target, if_neg h, if_neg h]
  by_cases hset : whence = seekSet
  · subst hset
    rw [if_pos rfl, if_neg (by decide)]
    exact hbase
  · rw [if_neg hset]
    by_cases hcurr : whence = seekCurr
    · rw [if_pos hcurr, if_pos hcurr]
      rfl
    · rw [if_neg hcurr, if_neg hcurr]
      exact hbase

theorem fsUserSeek_end (pointer : BitVec 64) (offset : BitVec 32) :
    fakefsSimpleReadHandlers.fsUserSeek pointer offset seekEnd = .error .fault := rfl

/-- A call does what it is to do exactly when it fits. -/
theorem step_eq (h : f.Fits s c) : f.step s c = .ok (f.idealStep s c) := by
  cases c with
  | read limit =>
    rw [step, fakefsSimpleRead_eq h]
    rfl
  | seek offset whence =>
    rw [step, fsUserSeek_eq h]
    rfl

theorem step_fault (h : ¬f.Fits s c) : f.step s c = .error .fault := by
  cases c with
  | read limit =>
    rw [step, fakefsSimpleRead_fault h]
    rfl
  | seek offset whence =>
    obtain rfl := not_not.mp h
    rw [step, fsUserSeek_end]
    rfl

/-- All the reads and seeks of a run do what they are to do, and touch only the string and its
terminator, exactly when each of them fits where the calls before it led. -/
theorem calls_right_iff (f : PseudoFile) (s : State) (calls : List Call) :
    (∃ s', run f.step s calls = .ok s' ∧ s' = calls.foldl f.idealStep s) ↔
      Guarded (fun t c => .ok (f.idealStep t c)) f.Fits s calls :=
  run_follows_iff (fun _ _ _ hrel hfits => by subst hrel; exact ⟨_, step_eq hfits, rfl⟩)
    (fun _ _ _ hrel hnot => by subst hrel; exact ⟨_, step_fault hnot⟩) rfl

/-- A file of two bytes. -/
def twoBytes : PseudoFile := ⟨[52, 10], by decide, by decide⟩

/-- A seek behind the end, and a read there. -/
theorem twoBytes_read_behind : ¬∃ s', run twoBytes.step ⟨0, []⟩ [.seek 100 seekSet, .read 1] = .ok s' ∧
    s' = [Call.seek 100 seekSet, .read 1].foldl twoBytes.idealStep ⟨0, []⟩ := by
  decide

end PseudoFile

end DualFuse.Filesystems
