import DualFuse.Library.Traced

/-! System calls (`syscalls/syscalls.cpp`). The subsystems register a handler for each
number they serve, and `syscall_handler` calls the handler of the number a task left in
`rax`. What code does at an address is a parameter. A record of the entries of the
table that are read and of the addresses that are called is kept. -/

namespace DualFuse.Syscalls.Dispatch

open Library

def maxSyscalls : ℕ := 450

def enosys : UInt64 := 38

/-! ### Registration -/

/-- `size_t syscalls[MAX_SYSCALLS]` holds the addresses of the handlers. -/
structure Table where
  syscalls : ℕ → UInt64
  syscallCnt : ℕ

structure Registration where
  id : UInt32
  handler : UInt64

namespace Table

def start : Table := ⟨fun _ => 0, 0⟩

/-- `syscalls[id]`. -/
def entry (t : Table) (id : ℕ) : Exec UInt64 :=
  if id < maxSyscalls then .ok (t.syscalls id) else .error .fault

/-- `registerSyscall`, which the source has a second time as `register_syscall`. -/
def registerSyscall (t : Table) (o : Registration) : Exec Table :=
  if o.id.toNat > maxSyscalls then .error .halt
  else do
    let old ← t.entry o.id.toNat
    if old ≠ 0 then .error .halt
    else .ok ⟨Function.update t.syscalls o.id.toNat o.handler, t.syscallCnt + 1⟩

end Table

/-- One of the registrations is of this handler for this number. -/
def Registered (ops : List Registration) (number : ℕ) (handler : UInt64) : Prop :=
  ∃ o ∈ ops, o.id.toNat = number ∧ o.handler = handler

section Registered
variable {ops : List Registration} {number : ℕ} {handler : UInt64}

theorem registered_append (o : Registration) : Registered (ops ++ [o]) number handler ↔
    Registered ops number handler ∨ o.id.toNat = number ∧ o.handler = handler := by
  simp [Registered, or_and_right, exists_or]

theorem not_registered_nil : ¬Registered [] number handler := by
  simp [Registered]

end Registered

/-- The table holds the handlers registered so far, each for its own number. -/
structure Table.Holds (ops : List Registration) (t : Table) : Prop where
  registered : ∀ i handler, handler ≠ 0 → (t.syscalls i = handler ↔ Registered ops i handler)
  inside : ∀ i handler, Registered ops i handler → i < maxSyscalls

namespace Table

variable {ops : List Registration} {t t' : Table}

theorem start_holds : start.Holds [] where
  registered _ _ h := iff_of_false (fun h' => h h'.symm) not_registered_nil
  inside _ _ h := absurd h not_registered_nil

/-- A registration that succeeds is of a number in the table that had no handler. -/
theorem registerSyscall_ok_iff {o : Registration} : t.registerSyscall o = .ok t' ↔
    o.id.toNat < maxSyscalls ∧ t.syscalls o.id.toNat = 0 ∧
      t' = ⟨Function.update t.syscalls o.id.toNat o.handler, t.syscallCnt + 1⟩ := by
  unfold registerSyscall entry
  by_cases hlimit : o.id.toNat > maxSyscalls
  · rw [if_pos hlimit]
    simp [Nat.not_lt.mpr hlimit.le]
  · rw [if_neg hlimit]
    by_cases hid : o.id.toNat < maxSyscalls
    · rw [if_pos hid, Exec.ok_bind]
      by_cases hold : t.syscalls o.id.toNat = 0
      · simp [hid, hold, eq_comm]
      · simp [hold]
    · rw [if_neg hid]
      simp [hid]

theorem Holds.registerSyscall {o : Registration} (h : t.Holds ops) (ho : t.registerSyscall o = .ok t') :
    t'.Holds (ops ++ [o]) := by
  obtain ⟨hid, hfree, rfl⟩ := registerSyscall_ok_iff.mp ho
  constructor
  · intro i handler hne
    rw [registered_append]
    by_cases hi : o.id.toNat = i
    · subst hi
      have hnone : ¬Registered ops o.id.toNat handler := fun hreg =>
        hne (((h.registered _ _ hne).mpr hreg).symm.trans hfree)
      simp [hnone]
    · have hreg := h.registered i handler hne
      simp [Function.update_of_ne (Ne.symm hi), hi, hreg]
  · intro i handler hreg
    rcases (registered_append o).mp hreg with hreg | ⟨rfl, -⟩
    · exact h.inside i handler hreg
    · exact hid

theorem run_holds (h : run registerSyscall start ops = .ok t) : t.Holds ops := by
  have hext : Extends registerSyscall ops Holds := fun done o todo s s' _ hs ho => hs.registerSyscall ho
  exact run_history hext (eq_nil_append_append_nil ops) start_holds h

/-- The number behind the last one passes the check, and its registration leaves the table. -/
theorem registerSyscall_maxSyscalls {o : Registration} (h : o.id.toNat = maxSyscalls) :
    t.registerSyscall o = .error .fault := by
  unfold registerSyscall entry
  rw [if_neg (by omega), if_neg (by omega)]
  rfl

end Table

/-! ### Dispatch -/

structure Registers where
  rax : UInt64
  rdi : UInt64
  rsi : UInt64
  rdx : UInt64
  r10 : UInt64
  r8 : UInt64
  r9 : UInt64

/-- The fields of the running task that say which system call it is in. -/
structure Task where
  systemCallInProgress : Bool
  syscallRegs : UInt64
  syscallRsp : UInt64
  deriving DecidableEq

def Task.idle : Task := ⟨false, 0, 0⟩

/-- The registers and the task, and what else a handler works on. -/
structure State (ω : Type) where
  regs : Registers
  task : Task
  rest : ω

/-- What the code at an address does with six arguments, and what it returns. -/
abbrev Code (ω : Type) : Type :=
  UInt64 → UInt64 → UInt64 → UInt64 → UInt64 → UInt64 → UInt64 → State ω → Exec (UInt64 × State ω)

inductive Access where
  | read (id : ℕ)
  | call (handler : UInt64)
  deriving DecidableEq

namespace State

variable {ω : Type}

def setRax (s : State ω) (ret : UInt64) : State ω := { s with regs.rax := ret }

def reset (s : State ω) : State ω := { s with task := .idle }

@[simp] theorem reset_task (s : State ω) : s.reset.task = .idle := rfl

end State

variable {ω : Type}

/-- `regsAt` is the address of the saved registers, and `rsp` the word behind them. Neither
of the two failures returns. -/
def syscallHandler (code : Code ω) (t : Table) (regsAt rsp : UInt64) (s : State ω) : Traced Access (State ω) := do
  let s := { s with task := ⟨true, regsAt, rsp⟩ }
  let id := s.regs.rax
  let s := if id.toNat > maxSyscalls then (s.setRax (-1)).reset else s
  let handler ← .access (.read id.toNat) (t.entry id.toNat)
  let s := if handler = 0 then (s.setRax (-enosys)).reset else s
  let (ret, s) ← .access (.call handler)
    (code handler s.regs.rdi s.regs.rsi s.regs.rdx s.regs.r10 s.regs.r8 s.regs.r9 s)
  pure (s.setRax ret).reset

/-- An entry of the table is read, or a handler of this number is called. -/
def Access.Allowed (ops : List Registration) (number : ℕ) : Access → Prop
  | .read id => id < maxSyscalls
  | .call handler => handler ≠ 0 ∧ Registered ops number handler

/-- The number has a handler. -/
def Served (ops : List Registration) (number : ℕ) : Prop :=
  ∃ handler, handler ≠ 0 ∧ Registered ops number handler

/-- What the dispatch of the number in `rax` is for: only a handler of it is called, a number
without one is answered with an error, and the task is in no system call afterwards. -/
structure Dispatches (ops : List Registration) (number : ℕ) (m : Traced Access (State ω)) : Prop where
  allowed : m.Within (Access.Allowed ops number)
  refused : ¬Served ops number → ∃ s, m.result = .ok s ∧ s.regs.rax.toInt64 < 0
  reset : ∀ s, m.result = .ok s → s.task = .idle

section Dispatch
variable {ops : List Registration} {t : Table} {code : Code ω} {regsAt rsp : UInt64} {s : State ω}

/-- Whatever stands in the table is called. -/
theorem syscallHandler_within_iff {P : Access → Prop} : (syscallHandler code t regsAt rsp s).Within P ↔
    P (.read s.regs.rax.toNat) ∧
      (s.regs.rax.toNat < maxSyscalls → P (.call (t.syscalls s.regs.rax.toNat))) := by
  unfold syscallHandler Table.entry
  rw [Traced.within_bind_iff, Traced.within_access]
  apply and_congr_right
  intro _
  by_cases hid : s.regs.rax.toNat < maxSyscalls
  · simp [hid, Traced.within_bind_iff]
  · simp [hid]

theorem syscallHandler_reset {s' : State ω} (h : (syscallHandler code t regsAt rsp s).result = .ok s') :
    s'.task = .idle := by
  unfold syscallHandler at h
  simp only [Traced.result_bind, Exec.bind_ok_iff] at h
  obtain ⟨handler, -, ret, -, h⟩ := h
  cases h
  rfl

theorem served_iff (ht : t.Holds ops) (number : ℕ) :
    Served ops number ↔ number < maxSyscalls ∧ t.syscalls number ≠ 0 := by
  constructor
  · rintro ⟨handler, hne, hreg⟩
    rw [(ht.registered number handler hne).mpr hreg]
    exact ⟨ht.inside number handler hreg, hne⟩
  · rintro ⟨-, hne⟩
    exact ⟨_, hne, (ht.registered number _ hne).mp rfl⟩

/-- A dispatch is right exactly for the numbers that have a handler. -/
theorem dispatches_iff (h : run Table.registerSyscall .start ops = .ok t) (code : Code ω) (regsAt rsp : UInt64)
    (s : State ω) : Dispatches ops s.regs.rax.toNat (syscallHandler code t regsAt rsp s) ↔
      Served ops s.regs.rax.toNat := by
  have ht := Table.run_holds h
  constructor
  · intro hm
    obtain ⟨hid, hcall⟩ := syscallHandler_within_iff.mp hm.allowed
    exact ⟨_, hcall hid⟩
  · intro hserved
    have hne := ((served_iff ht _).mp hserved).2
    constructor
    · exact syscallHandler_within_iff.mpr
        ⟨((served_iff ht _).mp hserved).1, fun _ => ⟨hne, (ht.registered _ _ hne).mp rfl⟩⟩
    · exact fun hnot => absurd hserved hnot
    · exact fun s' => syscallHandler_reset

/-- Code that returns its first argument. -/
def echo : Code Unit := fun _ rdi _ _ _ _ _ s => .ok (rdi, s)

def call (rax : UInt64) : State Unit := ⟨⟨rax, 5, 0, 0, 0, 0, 0⟩, .idle, ()⟩

theorem dispatches_read : Dispatches [⟨0, 0x1000⟩] 0
    (syscallHandler echo ⟨Function.update (fun _ => 0) 0 0x1000, 1⟩ 0x8000 0x9000 (call 0)) := by
  have hrun : run Table.registerSyscall .start [⟨0, 0x1000⟩] =
      .ok ⟨Function.update (fun _ => 0) 0 0x1000, 1⟩ := rfl
  exact (dispatches_iff hrun echo 0x8000 0x9000 (call 0)).mpr ⟨0x1000, by decide, ⟨0, 0x1000⟩, by simp, rfl, rfl⟩

/-- The number behind the last one is not refused: the entry behind the table is read. -/
theorem number_450_reads_behind_table :
    ¬Dispatches [] 450 (syscallHandler echo .start 0x8000 0x9000 (call 450)) := by
  intro h
  have hread : 450 < maxSyscalls := (syscallHandler_within_iff.mp h.allowed).1
  exact absurd hread (by decide)

end Dispatch

end DualFuse.Syscalls.Dispatch
