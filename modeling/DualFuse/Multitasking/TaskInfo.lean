import DualFuse.Library.SharedPool

/-! What tasks share (`multitasking/task.cpp`): page directories, working directories, open
files and signal handlers, each with a count of the tasks that use it. The calls are
`task_create`, `task_fork`, `execve` of `syscalls/linux/syscalls_proc.c` and `task_kill`,
each one step. A task is named by its place in the list of tasks, which no task leaves:
nothing calls `task_list_destroy`, and nothing empties the place of the reaper, so a second
`task_kill` stays in `task_call_reaper`. A page directory is released by
`page_directory_free`, its record stays; the other three are released by `free`. The counts
are integers: an `int` overflows only past `2 ^ 31` tasks. -/

namespace DualFuse.Multitasking

open Library

structure TaskInfoPagedir where
  heapStart : ℕ
  heapEnd : ℕ
  mmapStart : ℕ
  mmapEnd : ℕ
  deriving DecidableEq, Repr

structure TaskInfoFs where
  cwd : String
  umask : ℕ
  deriving DecidableEq, Repr

structure TaskInfoFiles where
  rlimitFdsSoft : ℕ
  rlimitFdsHard : ℕ
  deriving DecidableEq, Repr

/-- The `sa_handler` of each signal. -/
structure TaskInfoSignal where
  signals : List ℕ
  deriving DecidableEq, Repr

def userHeapStart : ℕ := 0x600000000000
def userMmapStart : ℕ := 0x700000000000
def sIwgrp : ℕ := 0o20
def sIwoth : ℕ := 0o2
def nsig : ℕ := 64
def sigDfl : ℕ := 0
def sigIgn : ℕ := 1
def cloneVm : ℕ := 0x100
def cloneFs : ℕ := 0x200
def cloneFiles : ℕ := 0x400
def cloneSighand : ℕ := 0x800

def taskInfoPdAllocate (p : SharedPool TaskInfoPagedir) : SharedPool TaskInfoPagedir :=
  p ++ [.fresh ⟨userHeapStart, userHeapStart, userMmapStart, userMmapStart⟩]

def taskInfoFsAllocate (p : SharedPool TaskInfoFs) : SharedPool TaskInfoFs :=
  p ++ [.fresh ⟨"/", sIwgrp ||| sIwoth⟩]

def taskInfoFilesAllocate (p : SharedPool TaskInfoFiles) : SharedPool TaskInfoFiles :=
  p ++ [.fresh ⟨1024, 1024⟩]

def taskInfoSignalAllocate (p : SharedPool TaskInfoSignal) : SharedPool TaskInfoSignal :=
  p ++ [.fresh ⟨List.replicate (nsig + 1) sigDfl⟩]

/-- A task's `state`, as far as `task_create`, `task_fork` and `task_kill` set it. -/
inductive LifeState where
  | dead | ready | created | dummy
  deriving DecidableEq, Repr

structure Task where
  id : BitVec 64
  state : LifeState
  kernelTask : Bool
  infoPd : ℕ
  infoFs : ℕ
  infoFiles : ℕ
  infoSignals : Option ℕ
  deriving DecidableEq, Repr

def Task.live (t : Task) : Bool := t.state != .dead

structure Tasks where
  tasks : List Task
  taskIdCurr : BitVec 64
  reaperTask : Option ℕ
  pagedirs : SharedPool TaskInfoPagedir
  filesystems : SharedPool TaskInfoFs
  files : SharedPool TaskInfoFiles
  signals : SharedPool TaskInfoSignal
  deriving DecidableEq, Repr

namespace Tasks

/-- The number of live tasks that point to a record. -/
def users (s : Tasks) (info : Task → Option ℕ) (r : ℕ) : ℕ :=
  s.tasks.countP fun t => t.live && info t == some r

/-- Every shared record counts the live tasks that point to it, it is released exactly
when there are none, and no live task points to a released one. -/
structure InfosCounted (s : Tasks) : Prop where
  pagedirs : s.pagedirs.Counted (s.users fun t => some t.infoPd)
  filesystems : s.filesystems.Counted (s.users fun t => some t.infoFs)
  files : s.files.Counted (s.users fun t => some t.infoFiles)
  signals : s.signals.Counted (s.users (·.infoSignals))

def task (s : Tasks) (i : ℕ) : Exec Task :=
  match s.tasks[i]? with
  | none => .error .fault
  | some t => .ok t

/-- The first task of the list with this id. -/
def taskGet (s : Tasks) (id : BitVec 32) : Option ℕ :=
  s.tasks.findIdx? fun t => t.id == id.zeroExtend 64

def taskCreate (s : Tasks) (id : BitVec 64) (kernelTask : Bool) : Tasks :=
  { s with
    tasks := s.tasks ++ [⟨id, .created, kernelTask, s.pagedirs.length, s.filesystems.length, s.files.length,
      some s.signals.length⟩]
    pagedirs := taskInfoPdAllocate s.pagedirs
    filesystems := taskInfoFsAllocate s.filesystems
    files := taskInfoFilesAllocate s.files
    signals := taskInfoSignalAllocate s.signals }

/-- The id that `task_generate_id` returns is `taskIdCurr` before the call. -/
def taskGenerateId (s : Tasks) : Tasks := { s with taskIdCurr := s.taskIdCurr + 1 }

/-- `task_create_finish`. -/
def setState (s : Tasks) (i : ℕ) (state : LifeState) : Exec Tasks := do
  let t ← s.task i
  .ok { s with tasks := s.tasks.set i { t with state := state } }

/-- `tasks_initialize`: the task of the kernel, which has no signal handlers, and the
dummy task. -/
def start : Tasks :=
  let first : Tasks :=
    { tasks := [⟨0, .ready, true, 0, 0, 0, none⟩]
      taskIdCurr := 1
      reaperTask := none
      pagedirs := taskInfoPdAllocate []
      filesystems := taskInfoFsAllocate []
      files := taskInfoFilesAllocate []
      signals := [] }
  let s := first.taskGenerateId.taskCreate first.taskIdCurr true
  { s with tasks := s.tasks.set 1 ⟨1, .dummy, true, 1, 1, 1, some 0⟩ }

end Tasks

/-- A record of the current task for a new one: the same, with one more user, or a clone. -/
def forkInfo {α : Type} (p : SharedPool α) (found : Exec (Shared α)) (r : ℕ) (share : Bool) :
    Exec (SharedPool α × ℕ) := do
  let c ← found
  if share then .ok (p.set r c.add, r) else .ok (p ++ [.fresh c.value], p.length)

def forkPd (p : SharedPool TaskInfoPagedir) (r : ℕ) (cloneFlags : ℕ) : Exec (SharedPool TaskInfoPagedir × ℕ) :=
  forkInfo p (p.cell r) r (cloneFlags &&& cloneVm != 0)

def forkFs (p : SharedPool TaskInfoFs) (r : ℕ) (cloneFlags : ℕ) : Exec (SharedPool TaskInfoFs × ℕ) :=
  forkInfo p (p.inUse r) r (cloneFlags &&& cloneFs != 0)

/-- The clone is `taskInfoFilesAllocate` with the limits that `task_files_copy` sets. -/
def forkFiles (p : SharedPool TaskInfoFiles) (r : ℕ) (cloneFlags : ℕ) : Exec (SharedPool TaskInfoFiles × ℕ) :=
  forkInfo p (p.inUse r) r (cloneFlags &&& cloneFiles != 0)

def forkSignals (p : SharedPool TaskInfoSignal) (info : Option ℕ) (cloneFlags : ℕ) :
    Exec (SharedPool TaskInfoSignal × ℕ) :=
  match info with
  | none => .error .fault
  | some r => forkInfo p (p.inUse r) r (cloneFlags &&& cloneSighand != 0)

namespace Tasks

def taskFork (s : Tasks) (current : ℕ) (cloneFlags : ℕ) (spinup : Bool) : Exec Tasks := do
  let t ← s.task current
  let (pagedirs, infoPd) ← forkPd s.pagedirs t.infoPd cloneFlags
  let (filesystems, infoFs) ← forkFs s.filesystems t.infoFs cloneFlags
  let (files, infoFiles) ← forkFiles s.files t.infoFiles cloneFlags
  let (signals, infoSignals) ← forkSignals s.signals t.infoSignals cloneFlags
  let target : Task := ⟨s.taskIdCurr, if spinup then .ready else .created, t.kernelTask, infoPd, infoFs, infoFiles,
    some infoSignals⟩
  .ok { s.taskGenerateId with tasks := s.tasks ++ [target], pagedirs, filesystems, files, signals }

def taskInfoFsDiscard (s : Tasks) (r : ℕ) : Exec Tasks := do
  let c ← s.filesystems.inUse r
  .ok { s with filesystems := s.filesystems.set r c.drop }

def taskInfoPdDiscard (s : Tasks) (r : ℕ) : Exec Tasks := do
  let c ← s.pagedirs.cell r
  .ok { s with pagedirs := s.pagedirs.set r c.drop }

def taskInfoFilesDiscard (s : Tasks) (r : ℕ) : Exec Tasks := do
  let c ← s.files.inUse r
  .ok { s with files := s.files.set r c.drop }

/-- `task_call_reaper` and what follows it: while the place of the reaper is taken the call
does not return, and the task stays as it is. -/
def taskCallReaper (s : Tasks) (i : ℕ) : Exec Tasks :=
  match s.reaperTask with
  | some _ => .ok s
  | none => { s with reaperTask := some i }.setState i .dead

def taskKill (s : Tasks) (id : BitVec 32) : Exec Tasks :=
  match s.taskGet id with
  | none => .ok s
  | some i => do
    let t ← s.task i
    let s ← s.taskInfoFilesDiscard t.infoFiles
    let s ← s.taskInfoPdDiscard t.infoPd
    s.taskCallReaper i

/-- Handlers that are not ignored go back to the default, for all signals but the last. -/
def resetHandlers (info : TaskInfoSignal) : TaskInfoSignal :=
  ⟨(info.signals.take nsig).map (fun h => if h != sigIgn then sigDfl else h) ++ info.signals.drop nsig⟩

/-- `ret->infoFs`: the one of `task_create` is discarded for a clone of the current task's. -/
def execveFs (s : Tasks) (current ret : ℕ) : Exec Tasks := do
  let old ← s.task current
  let new ← s.task ret
  let s ← s.taskInfoFsDiscard new.infoFs
  let c ← s.filesystems.inUse old.infoFs
  .ok { s with
    filesystems := s.filesystems ++ [.fresh c.value]
    tasks := s.tasks.set ret { new with infoFs := s.filesystems.length } }

/-- `ret->infoSignals`: a clone of the current task's, in place of the one of `task_create`. -/
def execveSignals (s : Tasks) (current ret : ℕ) : Exec Tasks := do
  let old ← s.task current
  let new ← s.task ret
  match old.infoSignals with
  | none => .error .fault
  | some r =>
    let c ← s.signals.inUse r
    .ok { s with
      signals := s.signals ++ [.fresh (resetHandlers c.value)]
      tasks := s.tasks.set ret { new with infoSignals := some s.signals.length } }

/-- `task_files_copy(currentTask, ret, true)`, which copies the limits beside the files. -/
def taskFilesCopy (s : Tasks) (original target : ℕ) : Exec Tasks := do
  let old ← s.task original
  let new ← s.task target
  let c ← s.files.inUse old.infoFiles
  let d ← s.files.inUse new.infoFiles
  .ok { s with files := s.files.set new.infoFiles { d with value := c.value } }

/-- The current task gets a new id and the new task its old one, as an `int`. -/
def swapIds (s : Tasks) (current ret : ℕ) : Exec Tasks := do
  let old ← s.task current
  let new ← s.task ret
  let tasks := s.tasks.set current { old with id := s.taskIdCurr }
  .ok { s.taskGenerateId with tasks := tasks.set ret { new with id := (old.id.truncate 32).signExtend 64 } }

/-- `elfExecute` for `execve`, after the program was loaded. -/
def elfExecute (s : Tasks) : Tasks := s.taskGenerateId.taskCreate s.taskIdCurr false

/-- `loads`: the program is there and is loaded. -/
def syscallExecve (s : Tasks) (current : ℕ) (loads : Bool) : Exec Tasks :=
  if !loads then .ok s
  else do
    let ret := s.tasks.length
    let s ← s.elfExecute.swapIds current ret
    let s ← s.execveFs current ret
    let s ← s.execveSignals current ret
    let s ← s.taskFilesCopy current ret
    let s ← s.setState ret .ready
    let t ← s.task current
    s.taskKill (t.id.truncate 32)

/-- System calls come from live tasks of users. -/
def calls (s : Tasks) (current : ℕ) : Bool :=
  match s.tasks[current]? with
  | none => false
  | some t => t.live && !t.kernelTask

inductive Op where
  | create (kernelTask : Bool)
  | fork (current cloneFlags : ℕ) (spinup : Bool)
  | execve (current : ℕ) (loads : Bool)
  | kill (id : BitVec 32)
  deriving DecidableEq, Repr

def step (s : Tasks) : Op → Exec Tasks
  | .create kernelTask => .ok (s.taskGenerateId.taskCreate s.taskIdCurr kernelTask)
  | .fork current cloneFlags spinup => if s.calls current then s.taskFork current cloneFlags spinup else .ok s
  | .execve current loads => if s.calls current then s.syscallExecve current loads else .ok s
  | .kill id => s.taskKill id

section Counting
variable {s s' : Tasks} {i r : ℕ} {t : Task} {f : Task → Option ℕ}

theorem task_ok_iff : s.task i = .ok t ↔ s.tasks[i]? = some t := by
  unfold task
  cases s.tasks[i]? with
  | none => simp
  | some u => simp

theorem users_append (h : s'.tasks = s.tasks ++ [t]) (ht : t.live = true) (hr : f t = some i) (r : ℕ) :
    s'.users f r = s.users f r + if r = i then 1 else 0 := by
  unfold users
  rw [h, List.countP_append, List.countP_singleton, ht, hr]
  by_cases hri : r = i
  · subst hri
    simp
  · have hne : (some i == some r) = false := by simpa using fun h : i = r => hri h.symm
    simp [hne, hri]

theorem users_ne_zero (h : s.tasks[i]? = some t) (ht : t.live = true) (hr : f t = some r) :
    s.users f r ≠ 0 := by
  have hpos : 0 < s.tasks.countP fun t => t.live && f t == some r :=
    List.countP_pos_iff.mpr ⟨t, List.mem_of_getElem? h, by simp [ht, hr]⟩
  exact hpos.ne'

/-- A task that dies leaves what it points to. -/
theorem users_dead (h : s.tasks[i]? = some t) (hs : s'.tasks = s.tasks.set i { t with state := .dead }) (r : ℕ) :
    s'.users f r = s.users f r - if t.live ∧ f t = some r then 1 else 0 := by
  obtain ⟨hi, rfl⟩ := List.getElem?_eq_some_iff.mp h
  unfold users
  rw [hs, List.countP_set hi]
  by_cases hlive : (s.tasks[i]).live ∧ f s.tasks[i] = some r
  · simp [hlive, Task.live]
  · have hfalse : ((s.tasks[i]).live && f s.tasks[i] == some r) = false := by simpa using hlive
    rw [hfalse, if_neg hlive]
    simp [Task.live]

theorem users_of_tasks (h : s'.tasks = s.tasks) : s'.users f = s.users f := by
  unfold users
  rw [h]

end Counting

section Keeps
variable {s s' : Tasks}

/-- Tasks of users have signal handlers, and every pointer to handlers was allocated. -/
structure Sound (s : Tasks) : Prop extends s.InfosCounted where
  handlers : ∀ t ∈ s.tasks, t.kernelTask = false → t.infoSignals.isSome = true
  allocated : ∀ t ∈ s.tasks, ∀ r, t.infoSignals = some r → r < s.signals.length

/-- What both first tasks have one of. -/
theorem counted_start {α : Type} {a b : α} {users : ℕ → ℕ} (h0 : users 0 = 1) (h1 : users 1 = 1)
    (hr : ∀ r, 1 < r → users r = 0) : SharedPool.Counted [.fresh a, .fresh b] users := by
  have hfirst : SharedPool.Counted [.fresh a] fun r => if r = 0 then 1 else 0 :=
    SharedPool.counted_nil.allocate a (by simp)
  refine hfirst.allocate b fun r => ?_
  rcases r with _ | _ | r
  · simpa using h0
  · simpa using h1
  · simpa using hr (r + 2) (by omega)

theorem start_sound : start.Sound := by
  refine ⟨⟨?_, ?_, ?_, ?_⟩, by decide, by decide⟩
  · exact counted_start rfl rfl fun r hr => by simp [users, start, taskCreate, taskGenerateId]; omega
  · exact counted_start rfl rfl fun r hr => by simp [users, start, taskCreate, taskGenerateId]; omega
  · exact counted_start rfl rfl fun r hr => by simp [users, start, taskCreate, taskGenerateId]; omega
  · refine SharedPool.counted_nil.allocate _ fun r => ?_
    simp [users, start, taskCreate, taskGenerateId, Task.live, @eq_comm _ r]

theorem Sound.create (h : s.Sound) (kernelTask : Bool) :
    (s.taskGenerateId.taskCreate s.taskIdCurr kernelTask).Sound := by
  refine ⟨⟨?_, ?_, ?_, ?_⟩, ?_, ?_⟩
  · exact h.pagedirs.allocate _ (users_append rfl rfl rfl)
  · exact h.filesystems.allocate _ (users_append rfl rfl rfl)
  · exact h.files.allocate _ (users_append rfl rfl rfl)
  · exact h.signals.allocate _ (users_append rfl rfl rfl)
  · intro t ht hkernel
    rcases List.mem_append.mp ht with ht | ht
    · exact h.handlers t ht hkernel
    · rw [List.mem_singleton.mp ht]
      rfl
  · intro t ht r hr
    have hlen : (taskInfoSignalAllocate s.signals).length = s.signals.length + 1 := by
      simp [taskInfoSignalAllocate]
    change r < (taskInfoSignalAllocate s.signals).length
    rw [hlen]
    rcases List.mem_append.mp ht with ht | ht
    · exact Nat.lt_succ_of_lt (h.allocated t ht r hr)
    · rw [List.mem_singleton.mp ht] at hr
      cases hr
      exact Nat.lt_succ_self _

/-- A record that has a user gives one to the new task. -/
theorem forkInfo_counted {α : Type} {p : SharedPool α} {users : ℕ → ℕ} {found : Exec (Shared α)} {c : Shared α} {r : ℕ}
    (h : p.Counted users) (hr : users r ≠ 0) (hc : p[r]? = some c) (hfound : found = .ok c) (share : Bool) :
    ∃ p' r', forkInfo p found r share = .ok (p', r') ∧ r' < p'.length ∧ p.length ≤ p'.length ∧
      ∀ users' : ℕ → ℕ, (∀ q, users' q = users q + if q = r' then 1 else 0) → p'.Counted users' := by
  rw [forkInfo, hfound, Exec.ok_bind]
  cases share with
  | true =>
    have hlt := (List.getElem?_eq_some_iff.mp hc).1
    exact ⟨_, _, rfl, by simpa using hlt, by simp, fun _ heq => h.share hc hr heq⟩
  | false => exact ⟨_, _, rfl, by simp, by simp, fun _ heq => h.allocate _ heq⟩

theorem Sound.fork (h : s.Sound) {current : ℕ} (hcalls : s.calls current = true) (cloneFlags : ℕ) (spinup : Bool) :
    ∃ s', s.taskFork current cloneFlags spinup = .ok s' ∧ s'.Sound := by
  obtain ⟨t, ht, hlive, hkernel⟩ : ∃ t, s.tasks[current]? = some t ∧ t.live = true ∧ t.kernelTask = false := by
    unfold calls at hcalls
    cases ht : s.tasks[current]? with
    | none => simp [ht] at hcalls
    | some t =>
      rw [ht] at hcalls
      exact ⟨t, rfl, by simpa using hcalls⟩
  have hmem := List.mem_of_getElem? ht
  obtain ⟨sig, hsig⟩ := Option.isSome_iff_exists.mp (h.handlers t hmem hkernel)
  have hpd := users_ne_zero (f := fun t => some t.infoPd) ht hlive rfl
  have hfs := users_ne_zero (f := fun t => some t.infoFs) ht hlive rfl
  have hfi := users_ne_zero (f := fun t => some t.infoFiles) ht hlive rfl
  have hsi := users_ne_zero (f := (·.infoSignals)) ht hlive hsig
  obtain ⟨c, hc, -⟩ := h.pagedirs.used _ hpd
  obtain ⟨d, hd, hd'⟩ := h.filesystems.inUse hfs
  obtain ⟨e, he, he'⟩ := h.files.inUse hfi
  obtain ⟨f, hf, hf'⟩ := h.signals.inUse hsi
  obtain ⟨p₁, r₁, heq₁, -, -, hp₁⟩ :=
    forkInfo_counted h.pagedirs hpd hc (SharedPool.cell_ok_iff.mpr hc) (cloneFlags &&& cloneVm != 0)
  obtain ⟨p₂, r₂, heq₂, -, -, hp₂⟩ := forkInfo_counted h.filesystems hfs hd' hd (cloneFlags &&& cloneFs != 0)
  obtain ⟨p₃, r₃, heq₃, -, -, hp₃⟩ := forkInfo_counted h.files hfi he' he (cloneFlags &&& cloneFiles != 0)
  obtain ⟨p₄, r₄, heq₄, hlt, hle, hp₄⟩ := forkInfo_counted h.signals hsi hf' hf (cloneFlags &&& cloneSighand != 0)
  simp only [taskFork, task_ok_iff.mpr ht, Exec.ok_bind, forkPd, heq₁, forkFs, heq₂, forkFiles, heq₃, hsig,
    forkSignals, heq₄]
  refine ⟨_, rfl, ⟨⟨hp₁ _ ?_, hp₂ _ ?_, hp₃ _ ?_, hp₄ _ ?_⟩, ?_, ?_⟩⟩
  · exact users_append rfl (by cases spinup <;> rfl) rfl
  · exact users_append rfl (by cases spinup <;> rfl) rfl
  · exact users_append rfl (by cases spinup <;> rfl) rfl
  · exact users_append rfl (by cases spinup <;> rfl) rfl
  · intro u hu hk
    rcases List.mem_append.mp hu with hu | hu
    · exact h.handlers u hu hk
    · rw [List.mem_singleton.mp hu]
      rfl
  · intro u hu r hr
    rcases List.mem_append.mp hu with hu | hu
    · exact (h.allocated u hu r hr).trans_le hle
    · rw [List.mem_singleton.mp hu] at hr
      cases hr
      exact hlt

end Keeps

section Breaks
variable {s s' : Tasks} {id : BitVec 32} {i : ℕ}

/-- What `task_kill` does to a task that it finds. -/
theorem taskKill_ok (hget : s.taskGet id = some i) (h : s.taskKill id = .ok s') :
    ∃ t c d, s.tasks[i]? = some t ∧ s.files[t.infoFiles]? = some c ∧ s.pagedirs[t.infoPd]? = some d ∧
      s'.files = s.files.set t.infoFiles c.drop ∧ s'.pagedirs = s.pagedirs.set t.infoPd d.drop ∧
      s'.filesystems = s.filesystems ∧ s'.signals = s.signals ∧
      (s.reaperTask = none ∧ s'.tasks = s.tasks.set i { t with state := .dead } ∨
        s.reaperTask ≠ none ∧ s'.tasks = s.tasks) := by
  rw [taskKill, hget] at h
  obtain ⟨t, ht, h⟩ := Exec.bind_ok_iff.mp h
  obtain ⟨s₁, hs₁, h⟩ := Exec.bind_ok_iff.mp h
  obtain ⟨s₂, hs₂, h⟩ := Exec.bind_ok_iff.mp h
  obtain ⟨c, hc, hs₁⟩ := Exec.bind_ok_iff.mp hs₁
  obtain ⟨d, hd, hs₂⟩ := Exec.bind_ok_iff.mp hs₂
  cases hs₁
  cases hs₂
  rw [task_ok_iff] at ht
  refine ⟨t, c, d, ht, (SharedPool.inUse_ok_iff.mp hc).1, SharedPool.cell_ok_iff.mp hd, ?_⟩
  unfold taskCallReaper at h
  split at h
  · rename_i j hj
    cases h
    have hne : s.reaperTask ≠ none := by
      rw [show s.reaperTask = some j from hj]
      exact Option.some_ne_none j
    exact ⟨rfl, rfl, rfl, rfl, .inr ⟨hne, rfl⟩⟩
  · obtain ⟨u, hu, h⟩ := Exec.bind_ok_iff.mp h
    rw [task_ok_iff] at hu
    obtain rfl : t = u := Option.some_injective _ (ht.symm.trans hu)
    cases h
    exact ⟨rfl, rfl, rfl, rfl, .inl ⟨‹_›, rfl⟩⟩

/-- A task that dies keeps its working directory counted; any other kill takes a page
directory from a task that does not use it or goes on using it. -/
theorem InfosCounted.not_of_kill (h : s.InfosCounted) (hget : s.taskGet id = some i) (hkill : s.taskKill id = .ok s') :
    ¬ s'.InfosCounted := by
  intro h'
  obtain ⟨t, c, d, ht, hc, hd, hfiles, hpagedirs, hfilesystems, -, hreaper⟩ := taskKill_ok hget hkill
  have hbefore := h.pagedirs.utilizedBy _ d hd
  have hafter := h'.pagedirs.utilizedBy t.infoPd d.drop (by
    rw [hpagedirs, List.getElem?_set_self (List.getElem?_eq_some_iff.mp hd).1])
  have hdrop : d.drop.utilizedBy = d.utilizedBy - 1 := rfl
  rcases hreaper with ⟨-, htasks⟩ | ⟨-, htasks⟩
  · by_cases hlive : t.live = true
    · have hused := users_ne_zero (f := fun t => some t.infoFs) ht hlive rfl
      obtain ⟨e, he, -⟩ := h.filesystems.used _ hused
      have hfs := h.filesystems.utilizedBy _ e he
      have hfs' := h'.filesystems.utilizedBy t.infoFs e (by rw [hfilesystems, he])
      rw [users_dead ht htasks, if_pos ⟨hlive, rfl⟩] at hfs'
      omega
    · rw [users_dead ht htasks, if_neg fun h => hlive h.1] at hafter
      omega
  · rw [users_of_tasks htasks] at hafter
    omega

/-- The pointers to signal handlers and the handlers stay as they are. -/
def SameSignals (s s' : Tasks) : Prop :=
  s'.signals = s.signals ∧ s'.tasks.map (·.infoSignals) = s.tasks.map (·.infoSignals)

theorem SameSignals.trans {s₁ s₂ s₃ : Tasks} (h : SameSignals s₁ s₂) (h' : SameSignals s₂ s₃) : SameSignals s₁ s₃ :=
  ⟨h'.1.trans h.1, h'.2.trans h.2⟩

theorem map_set_infoSignals {ts : List Task} {t u : Task} (h : ts[i]? = some t) (hu : u.infoSignals = t.infoSignals) :
    (ts.set i u).map (·.infoSignals) = ts.map (·.infoSignals) := by
  obtain ⟨hi, rfl⟩ := List.getElem?_eq_some_iff.mp h
  rw [List.map_set, hu, ← List.map_set, List.set_getElem_self]

theorem swapIds_same {current ret : ℕ} (h : s.swapIds current ret = .ok s') : SameSignals s s' := by
  obtain ⟨old, hold, h⟩ := Exec.bind_ok_iff.mp h
  obtain ⟨new, hnew, h⟩ := Exec.bind_ok_iff.mp h
  rw [task_ok_iff] at hold hnew
  cases h
  refine ⟨rfl, ?_⟩
  have hcurrent : (s.tasks.set current { old with id := s.taskIdCurr }).map (·.infoSignals) =
      s.tasks.map (·.infoSignals) := map_set_infoSignals hold rfl
  obtain ⟨hret, rfl⟩ := List.getElem?_eq_some_iff.mp hnew
  have hlast : (s.tasks.map (·.infoSignals)).set ret (s.tasks[ret]).infoSignals = s.tasks.map (·.infoSignals) := by
    rw [← List.map_set, List.set_getElem_self]
  change List.map (·.infoSignals) ((s.tasks.set current _).set ret _) = _
  rw [List.map_set, hcurrent, hlast]

theorem execveFs_same {current ret : ℕ} (h : s.execveFs current ret = .ok s') : SameSignals s s' := by
  obtain ⟨old, hold, h⟩ := Exec.bind_ok_iff.mp h
  obtain ⟨new, hnew, h⟩ := Exec.bind_ok_iff.mp h
  obtain ⟨s₁, hs₁, h⟩ := Exec.bind_ok_iff.mp h
  obtain ⟨c, -, h⟩ := Exec.bind_ok_iff.mp h
  obtain ⟨d, -, hs₁⟩ := Exec.bind_ok_iff.mp hs₁
  cases hs₁
  cases h
  exact ⟨rfl, map_set_infoSignals (task_ok_iff.mp hnew) rfl⟩

theorem taskFilesCopy_same {original target : ℕ} (h : s.taskFilesCopy original target = .ok s') : SameSignals s s' := by
  obtain ⟨old, -, h⟩ := Exec.bind_ok_iff.mp h
  obtain ⟨new, -, h⟩ := Exec.bind_ok_iff.mp h
  obtain ⟨c, -, h⟩ := Exec.bind_ok_iff.mp h
  obtain ⟨d, -, h⟩ := Exec.bind_ok_iff.mp h
  cases h
  exact ⟨rfl, rfl⟩

theorem setState_same {state : LifeState} (h : s.setState i state = .ok s') : SameSignals s s' := by
  obtain ⟨t, ht, h⟩ := Exec.bind_ok_iff.mp h
  cases h
  exact ⟨rfl, map_set_infoSignals (task_ok_iff.mp ht) rfl⟩

theorem taskKill_same (h : s.taskKill id = .ok s') : SameSignals s s' := by
  cases hget : s.taskGet id with
  | none =>
    rw [taskKill, hget] at h
    cases h
    exact ⟨rfl, rfl⟩
  | some i =>
    obtain ⟨t, c, d, ht, -, -, -, -, -, hsignals, hreaper⟩ := taskKill_ok hget h
    rcases hreaper with ⟨-, htasks⟩ | ⟨-, htasks⟩
    · refine ⟨hsignals, ?_⟩
      rw [htasks]
      exact map_set_infoSignals ht rfl
    · exact ⟨hsignals, by rw [htasks]⟩

/-- The handlers of `task_create` stay behind, with a count of one. -/
theorem syscallExecve_leaves {current : ℕ} (h : s.syscallExecve current true = .ok s') :
    (∃ c, s'.signals[s.signals.length]? = some c ∧ c.utilizedBy = 1) ∧
      s'.tasks.map (·.infoSignals) = s.tasks.map (·.infoSignals) ++ [some (s.signals.length + 1)] := by
  obtain ⟨s₁, h₁, h⟩ := Exec.bind_ok_iff.mp h
  obtain ⟨s₂, h₂, h⟩ := Exec.bind_ok_iff.mp h
  obtain ⟨s₃, h₃, h⟩ := Exec.bind_ok_iff.mp h
  obtain ⟨s₄, h₄, h⟩ := Exec.bind_ok_iff.mp h
  obtain ⟨s₅, h₅, h⟩ := Exec.bind_ok_iff.mp h
  obtain ⟨t, -, h⟩ := Exec.bind_ok_iff.mp h
  have hbefore := (swapIds_same h₁).trans (execveFs_same h₂)
  have hafter := ((taskFilesCopy_same h₄).trans (setState_same h₅)).trans (taskKill_same h)
  obtain ⟨old, hold, h₃⟩ := Exec.bind_ok_iff.mp h₃
  obtain ⟨new, hnew, h₃⟩ := Exec.bind_ok_iff.mp h₃
  cases hinfo : old.infoSignals with
  | none => simp [hinfo] at h₃
  | some r =>
    rw [hinfo] at h₃
    obtain ⟨c, -, h₃⟩ := Exec.bind_ok_iff.mp h₃
    cases h₃
    have hsignals : s₂.signals = taskInfoSignalAllocate s.signals := hbefore.1
    have htasks : s₂.tasks.map (·.infoSignals) = s.tasks.map (·.infoSignals) ++ [some s.signals.length] := by
      rw [hbefore.2]
      simp [elfExecute, taskCreate, taskGenerateId]
    constructor
    · rw [hafter.1, hsignals]
      exact ⟨.fresh ⟨List.replicate (nsig + 1) sigDfl⟩, by simp [taskInfoSignalAllocate], rfl⟩
    · rw [hafter.2, List.map_set, htasks, hsignals]
      simp [taskInfoSignalAllocate]

theorem Sound.not_of_execve (h : s.Sound) {current : ℕ} (hexec : s.syscallExecve current true = .ok s') :
    ¬ s'.InfosCounted := by
  intro h'
  obtain ⟨⟨c, hc, hcount⟩, htasks⟩ := syscallExecve_leaves hexec
  have hzero : s'.users (·.infoSignals) s.signals.length = 0 := by
    refine List.countP_eq_zero.mpr fun t ht => ?_
    have hmem : t.infoSignals ∈ s.tasks.map (·.infoSignals) ++ [some (s.signals.length + 1)] :=
      htasks ▸ List.mem_map_of_mem ht
    have hne : t.infoSignals ≠ some s.signals.length := by
      intro heq
      rcases List.mem_append.mp hmem with hmem | hmem
      · obtain ⟨u, hu, hut⟩ := List.mem_map.mp hmem
        exact (h.allocated u hu _ (hut.trans heq)).false
      · simp [heq] at hmem
    simp [hne]
  have hone := h'.signals.utilizedBy _ c hc
  rw [hzero, hcount] at hone
  exact absurd hone (by decide)

end Breaks

/-- No task is killed: the id is of no task, and no program is loaded in the place of one. -/
def KillsNone (s : Tasks) : Op → Prop
  | .create _ => True
  | .fork _ _ _ => True
  | .execve current loads => s.calls current = true → loads = false
  | .kill id => s.taskGet id = none

/-- The counts are right throughout a run exactly when the run kills no task. -/
theorem infos_counted_iff (ops : List Op) :
    Throughout step (fun _ => False) InfosCounted start ops ↔ Guarded step KillsNone start ops := by
  refine throughout_iff_guarded (fun s h => Sound.toInfosCounted h) ?_ ?_ start_sound
  · intro s o _ h hguard
    cases o with
    | create kernelTask => exact h.create kernelTask
    | fork current cloneFlags spinup =>
      rw [step]
      split_ifs with hcalls
      · exact Exec.meets_false_iff.mpr (h.fork hcalls cloneFlags spinup)
      · exact h
    | execve current loads =>
      rw [step]
      split_ifs with hcalls
      · obtain rfl := hguard hcalls
        exact h
      · exact h
    | kill id =>
      rw [step, taskKill, show s.taskGet id = none from hguard]
      exact h
  · intro s o _ h hmeets
    obtain ⟨s', hs', hcounted⟩ := Exec.meets_false_iff.mp hmeets
    cases o with
    | create kernelTask => trivial
    | fork current cloneFlags spinup => trivial
    | execve current loads =>
      intro hcalls
      by_contra hloads
      rw [Bool.not_eq_false] at hloads
      subst hloads
      rw [step, if_pos hcalls] at hs'
      exact h.not_of_execve hs' hcounted
    | kill id =>
      change s.taskGet id = none
      by_contra hfound
      obtain ⟨i, hi⟩ := Option.ne_none_iff_exists'.mp hfound
      exact h.toInfosCounted.not_of_kill hi hs' hcounted

/-- A user task forks, sharing everything, and its child exits: the working directory and
the signal handlers still count two users. -/
theorem child_exits_counted_twice :
    ¬ Throughout step (fun _ => False) InfosCounted start [.create false, .fork 2 0xf00 true, .kill 3] := by
  intro h
  obtain ⟨s, hs, hcounted⟩ := h.ok
  have hleft : ∀ s, run step start [.create false, .fork 2 0xf00 true, .kill 3] = .ok s →
      (s.filesystems[2]?).map (·.utilizedBy) = some 2 ∧ s.users (fun t => some t.infoFs) 2 = 1 := by
    decide +kernel
  obtain ⟨hcell, husers⟩ := hleft s hs
  obtain ⟨c, hc, hcount⟩ := Option.map_eq_some_iff.mp hcell
  have := hcounted.filesystems.utilizedBy 2 c hc
  rw [husers, hcount] at this
  exact absurd this (by decide)

end Tasks

end DualFuse.Multitasking
