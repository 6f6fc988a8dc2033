import DualFuse.Library.Execution

/-! The locks of `multitasking/spinlock.cpp`. A test that fails hands over control and
is made again, so it leaves everything as it was; the test that succeeds and what
follows it up to the return are one step. Beside the lock itself a state holds the
tasks that are between the return of an acquire and their release. The counter of
`SpinlockCnt` has 64 bits, more than there are tasks to count. -/

namespace DualFuse.Multitasking

open Library

structure Spinlock where
  locked : Bool
  deriving DecidableEq, Repr

/-- The lock after the return, or nothing while the caller waits. -/
def Spinlock.spinlockAcquire (lock : Spinlock) : Option Spinlock := if lock.locked then none else some lock

def Spinlock.spinlockRelease (_ : Spinlock) : Spinlock := ⟨false⟩

inductive SpinlockCall where
  | acquire | release
  deriving DecidableEq, Repr

/-- A lock and the tasks inside. -/
structure SpinlockUse (τ : Type) where
  lock : Spinlock
  inside : List τ

namespace SpinlockUse

variable {τ : Type} [DecidableEq τ]

def step (s : SpinlockUse τ) : τ × SpinlockCall → Exec (SpinlockUse τ)
  | (task, .acquire) =>
    match s.lock.spinlockAcquire with
    | none => .ok s
    | some lock => .ok ⟨lock, task :: s.inside⟩
  | (task, .release) => .ok ⟨s.lock.spinlockRelease, s.inside.erase task⟩

/-- A task releases only what it acquired. -/
def Matched (s : SpinlockUse τ) : τ × SpinlockCall → Prop
  | (_, .acquire) => True
  | (task, .release) => task ∈ s.inside

def start : SpinlockUse τ := ⟨⟨false⟩, []⟩

/-- No two tasks are inside. -/
def Exclusive (s : SpinlockUse τ) : Prop := ∀ t ∈ s.inside, ∀ u ∈ s.inside, t = u

/-- Nothing ever sets the lock, so a second task enters while the first is inside:
exclusion holds in all runs exactly when there is no second task. -/
theorem spinlock_exclusive_iff (n : ℕ) :
    (∀ events : List (Fin n × SpinlockCall), Guarded step Matched start events →
      ∀ s, run step start events = .ok s → s.Exclusive) ↔ n ≤ 1 := by
  constructor
  · intro h
    by_contra hn
    have hfirst : 0 < n := by omega
    have hsecond : 1 < n := by omega
    have hrun := h [(⟨0, hfirst⟩, .acquire), (⟨1, hsecond⟩, .acquire)]
      ⟨trivial, fun s _ => ⟨trivial, fun _ _ => trivial⟩⟩ ⟨⟨false⟩, [⟨1, hsecond⟩, ⟨0, hfirst⟩]⟩ rfl
    have heq := hrun ⟨0, hfirst⟩ (by simp) ⟨1, hsecond⟩ (by simp)
    cases heq
  · intro hn events _ s _ t _ u _
    apply Fin.ext
    omega

theorem two_tasks_inside :
    Guarded step Matched (start : SpinlockUse (Fin 2)) [(0, .acquire), (1, .acquire)] ∧
      ∃ s, run step (start : SpinlockUse (Fin 2)) [(0, .acquire), (1, .acquire)] = .ok s ∧ ¬s.Exclusive := by
  refine ⟨⟨trivial, fun s _ => ⟨trivial, fun _ _ => trivial⟩⟩, ⟨⟨false⟩, [1, 0]⟩, rfl, fun h => ?_⟩
  have := h 0 (by simp) 1 (by simp)
  cases this

end SpinlockUse

/-! ### Readers and writers -/

structure SpinlockCnt where
  cnt : ℤ
  deriving DecidableEq, Repr

namespace SpinlockCnt

def spinlockCntReadAcquire (lock : SpinlockCnt) : Option SpinlockCnt :=
  if lock.cnt < 0 then none else some ⟨lock.cnt + 1⟩

def spinlockCntReadRelease (lock : SpinlockCnt) : Exec SpinlockCnt :=
  if lock.cnt < 0 then .error .halt else .ok ⟨lock.cnt - 1⟩

def spinlockCntWriteAcquire (lock : SpinlockCnt) : Option SpinlockCnt := if lock.cnt ≠ 0 then none else some ⟨-1⟩

def spinlockCntWriteRelease (lock : SpinlockCnt) : Exec SpinlockCnt :=
  if lock.cnt ≠ -1 then .error .halt else .ok ⟨0⟩

end SpinlockCnt

inductive SpinlockCntCall where
  | readAcquire | readRelease | writeAcquire | writeRelease
  deriving DecidableEq, Repr

/-- A lock, the tasks that read and the tasks that write. -/
structure SpinlockCntUse (τ : Type) where
  lock : SpinlockCnt
  readers : List τ
  writers : List τ

namespace SpinlockCntUse

variable {τ : Type} [DecidableEq τ]

def step (s : SpinlockCntUse τ) : τ × SpinlockCntCall → Exec (SpinlockCntUse τ)
  | (task, .readAcquire) =>
    match s.lock.spinlockCntReadAcquire with
    | none => .ok s
    | some lock => .ok { s with lock := lock, readers := task :: s.readers }
  | (task, .readRelease) => do
    let lock ← s.lock.spinlockCntReadRelease
    .ok { s with lock := lock, readers := s.readers.erase task }
  | (task, .writeAcquire) =>
    match s.lock.spinlockCntWriteAcquire with
    | none => .ok s
    | some lock => .ok { s with lock := lock, writers := task :: s.writers }
  | (task, .writeRelease) => do
    let lock ← s.lock.spinlockCntWriteRelease
    .ok { s with lock := lock, writers := s.writers.erase task }

def Matched (s : SpinlockCntUse τ) : τ × SpinlockCntCall → Prop
  | (_, .readAcquire) | (_, .writeAcquire) => True
  | (task, .readRelease) => task ∈ s.readers
  | (task, .writeRelease) => task ∈ s.writers

instance Matched.decidable (s : SpinlockCntUse τ) : (event : τ × SpinlockCntCall) → Decidable (s.Matched event)
  | (_, .readAcquire) | (_, .writeAcquire) => isTrue trivial
  | (task, .readRelease) => inferInstanceAs (Decidable (task ∈ s.readers))
  | (task, .writeRelease) => inferInstanceAs (Decidable (task ∈ s.writers))

def start : SpinlockCntUse τ := ⟨⟨0⟩, [], []⟩

/-- The counter counts the readers, or one task writes and none reads. -/
def Shared (s : SpinlockCntUse τ) : Prop :=
  (s.lock.cnt = s.readers.length ∧ s.writers = []) ∨
    (s.lock.cnt = -1 ∧ s.readers = [] ∧ ∃ t, s.writers = [t])

/-- One case for each call; in each mode two of them change it. -/
theorem Shared.step {s : SpinlockCntUse τ} (h : s.Shared) {event : τ × SpinlockCntCall} (hm : s.Matched event) :
    ∃ s', s.step event = .ok s' ∧ s'.Shared := by
  obtain ⟨task, call⟩ := event
  rcases h with ⟨hcnt, hw⟩ | ⟨hcnt, hr, t, hw⟩
  · have hnonneg : ¬s.lock.cnt < 0 := by omega
    cases call with
    | readAcquire =>
      rw [SpinlockCntUse.step, SpinlockCnt.spinlockCntReadAcquire, if_neg hnonneg]
      refine ⟨_, rfl, .inl ⟨?_, hw⟩⟩
      rw [hcnt, List.length_cons]
      rfl
    | readRelease =>
      have hpos := List.length_pos_of_mem hm
      rw [SpinlockCntUse.step, SpinlockCnt.spinlockCntReadRelease, if_neg hnonneg, Exec.ok_bind]
      refine ⟨_, rfl, .inl ⟨?_, hw⟩⟩
      dsimp only
      rw [hcnt, List.length_erase_of_mem hm]
      omega
    | writeAcquire =>
      rw [SpinlockCntUse.step, SpinlockCnt.spinlockCntWriteAcquire]
      by_cases hzero : s.lock.cnt ≠ 0
      · rw [if_pos hzero]
        exact ⟨s, rfl, .inl ⟨hcnt, hw⟩⟩
      · have hnone : s.readers = [] := List.length_eq_zero_iff.mp (by omega)
        rw [if_neg hzero, hw]
        exact ⟨_, rfl, .inr ⟨rfl, hnone, task, rfl⟩⟩
    | writeRelease =>
      have hm : task ∈ s.writers := hm
      rw [hw] at hm
      exact absurd hm List.not_mem_nil
  · cases call with
    | readAcquire =>
      refine ⟨s, ?_, .inr ⟨hcnt, hr, t, hw⟩⟩
      rw [SpinlockCntUse.step, SpinlockCnt.spinlockCntReadAcquire, if_pos (by omega)]
    | readRelease =>
      have hm : task ∈ s.readers := hm
      rw [hr] at hm
      exact absurd hm List.not_mem_nil
    | writeAcquire =>
      refine ⟨s, ?_, .inr ⟨hcnt, hr, t, hw⟩⟩
      rw [SpinlockCntUse.step, SpinlockCnt.spinlockCntWriteAcquire, if_pos (by omega)]
    | writeRelease =>
      have hm : task ∈ s.writers := hm
      rw [hw, List.mem_singleton] at hm
      rw [SpinlockCntUse.step, SpinlockCnt.spinlockCntWriteRelease, if_neg (by omega), Exec.ok_bind]
      refine ⟨_, rfl, .inl ⟨?_, ?_⟩⟩
      · rw [hr]
        rfl
      · rw [hw, hm, List.erase_cons_head]

/-- In every order of matched calls the counter tells the mode, and no release halts. -/
theorem spinlockCnt_runs_shared (events : List (τ × SpinlockCntCall))
    (hmatched : Guarded step Matched (start : SpinlockCntUse τ) events) :
    ∃ s, run step start events = .ok s ∧ s.Shared :=
  run_ok_of_guarded (fun _ _ h hm => Shared.step h hm) (.inl ⟨rfl, rfl⟩) hmatched

/-- Two readers, a writer that waits for them, and a reader that waits for the writer. -/
theorem spinlockCnt_sample :
    ∃ s, run step (start : SpinlockCntUse (Fin 3)) [(0, .readAcquire), (1, .readAcquire), (2, .writeAcquire),
      (0, .readRelease), (1, .readRelease), (2, .writeAcquire), (0, .readAcquire)] = .ok s ∧ s.Shared :=
  spinlockCnt_runs_shared _ (by decide)

end SpinlockCntUse

end DualFuse.Multitasking
