import DualFuse.Library.Execution
import DualFuse.Utility.Words

/-! The errors of `wait4` (`syscalls/linux/syscalls_proc.c`), with the `task_kill` of
`multitasking/task.cpp` that wakes the caller. The test for children looks at the task list, the
search at the records of those that were killed, and the sleep at neither. A caller that sleeps
runs again once its state is ready: a child that is killed sees to that, or a signal. -/

namespace DualFuse.Multitasking.Children

open Library Utility

/-- `TASK_STATE`. -/
inductive State where
  | dead | ready | idle | waitingInput | created | waitingChild | waitingChildSpecific | waitingVfork | blocked
  | sigkilled | futex | dummy
  deriving DecidableEq, Repr

/-- A task of the list, with the address of its parent. -/
structure Task where
  id : ℕ
  state : State
  parent : ℕ
  noInformParent : Bool
  deriving DecidableEq, Repr

structure KilledInfo where
  pid : ℕ
  ret : ℕ
  deriving DecidableEq, Repr

/-- The task list, and the fields of the caller, whose address is `currentTask`. -/
structure Caller where
  tasks : List Task
  currentTask : ℕ
  state : State
  waitingForPid : ℕ
  dsChildTerminated : List KilledInfo
  childrenTerminatedAmnt : ℤ
  deriving DecidableEq, Repr

inductive Errno where
  | echild | eintr
  deriving DecidableEq, Repr

/-- What a call comes to. Without `WNOHANG` it may stay asleep. -/
inductive Outcome where
  | error (e : Errno)
  | nothing
  | reaped (output : ℤ) (ret : ℕ)
  | asleep
  | halt
  deriving DecidableEq, Repr

/-- What happens while the caller sleeps. After a kill a signal may be pending too. -/
inductive Event where
  | kill (id ret : ℕ) (signalsPending : Bool)
  | signal
  deriving DecidableEq, Repr

namespace Caller

/-- The parent's side of `task_kill`. -/
def inform (s : Caller) (task : Task) (ret : ℕ) : Caller :=
  { s with
    dsChildTerminated := s.dsChildTerminated ++ [⟨task.id, ret⟩]
    childrenTerminatedAmnt := s.childrenTerminatedAmnt + 1
    state := if s.state = .waitingChild ∨ (s.state = .waitingChildSpecific ∧ s.waitingForPid = task.id) then .ready
      else s.state }

/-- Of the parents only the caller is looked at. -/
def taskKill (s : Caller) (id ret : ℕ) : Caller :=
  match s.tasks.find? fun t => t.id == id % 2 ^ 32 with
  | none => s
  | some task =>
    let s := if task.parent = s.currentTask ∧ task.noInformParent = false then s.inform task ret else s
    { s with tasks := s.tasks.map fun t => if t.id = id % 2 ^ 32 then { t with state := .dead } else t }

/-- The record of a child; `int` and `uint64_t` are compared as the latter. -/
def find (s : Caller) (pid : ℤ) : Option KilledInfo := s.dsChildTerminated.find? fun r => r.pid == intToSize pid

/-- From the lock on. -/
def reap (s : Caller) : Option KilledInfo → Outcome × Caller
  | none => (.halt, s)
  | some target =>
    (.reaped (wrapInt target.pid) target.ret,
      { s with
        dsChildTerminated := s.dsChildTerminated.erase target
        childrenTerminatedAmnt := s.childrenTerminatedAmnt - 1 })

/-- Behind `hand_control`. -/
def resume (s : Caller) (pid : ℤ) (signalsPending : Bool) : Outcome × Caller :=
  if signalsPending then (.error .eintr, s)
  else if pid ≠ -1 then reap { s with waitingForPid := 0 } (s.find pid)
  else s.reap s.dsChildTerminated.head?

/-- The caller sleeps until its state is ready. -/
def sleep (pid : ℤ) : List Event → Caller → Outcome × Caller
  | [], s => (.asleep, s)
  | .signal :: _, s => ({ s with state := .ready } : Caller).resume pid true
  | .kill id ret signalsPending :: events, s =>
    if (s.taskKill id ret).state = .ready then (s.taskKill id ret).resume pid signalsPending
    else sleep pid events (s.taskKill id ret)

/-- The number of children that the test counts. -/
def amnt (s : Caller) : ℕ := s.tasks.countP fun t => t.state = .ready ∧ t.parent = s.currentTask

def syscallWait4 (s : Caller) (pid : ℤ) (wnohang : Bool) (events : List Event) : Outcome × Caller :=
  if s.childrenTerminatedAmnt = 0 ∧ s.amnt = 0 then (.error .echild, s)
  else if pid ≠ -1 then
    match s.find pid with
    | some target => s.reap (some target)
    | none =>
      if wnohang then (.nothing, s)
      else sleep pid events { s with waitingForPid := intToSize pid, state := .waitingChildSpecific }
  else if s.childrenTerminatedAmnt = 0 then
    if wnohang then (.nothing, s) else sleep pid events { s with state := .waitingChild }
  else s.reap s.dsChildTerminated.head?

/-! ### What is asked of it -/

/-- A child that has not terminated. -/
def Live (s : Caller) (t : Task) : Prop := t ∈ s.tasks ∧ t.parent = s.currentTask ∧ t.state ≠ .dead

/-- `ECHILD` means that there is nothing to wait for, a stranger is an error, and no record is missed. -/
structure WaitsWell (s : Caller) (pid : ℤ) (wnohang : Bool) : Prop where
  echild : ∀ events, (s.syscallWait4 pid wnohang events).1 = .error .echild ↔
    s.dsChildTerminated = [] ∧ ¬∃ t, s.Live t
  stranger : pid ≠ -1 → (¬∃ t, s.Live t ∧ t.id = intToSize pid) → s.find pid = none →
    ∀ events, ∃ e, (s.syscallWait4 pid wnohang events).1 = .error e
  found : ∀ events, (s.syscallWait4 pid wnohang events).1 ≠ .halt

/-- The states that kills and waits lead to, whatever the other tasks do. -/
inductive Reached (currentTask : ℕ) : Caller → Prop
  | start (tasks : List Task) : Reached currentTask ⟨tasks, currentTask, .ready, 0, [], 0⟩
  | others {s : Caller} (h : Reached currentTask s) (tasks : List Task) : Reached currentTask { s with tasks := tasks }
  | kill {s : Caller} (h : Reached currentTask s) (id ret : ℕ) : Reached currentTask (s.taskKill id ret)
  | wait {s : Caller} (h : Reached currentTask s) (pid : ℤ) (wnohang : Bool) (events : List Event) :
    Reached currentTask (s.syscallWait4 pid wnohang events).2

/-! ### The records -/

variable {s : Caller} {pid : ℤ} {wnohang : Bool} {currentTask : ℕ}

/-- The counter counts the records. -/
def Counts (s : Caller) : Prop := s.childrenTerminatedAmnt = s.dsChildTerminated.length

theorem Counts.eq_zero_iff (h : s.Counts) : s.childrenTerminatedAmnt = 0 ↔ s.dsChildTerminated = [] := by
  rw [h, Int.natCast_eq_zero, List.length_eq_zero_iff]

/-- A kill leaves the caller's fields, or adds a record and looks at the state. -/
theorem taskKill_cases (s : Caller) (id ret : ℕ) :
    (∃ tasks, s.taskKill id ret = { s with tasks := tasks }) ∨
      ∃ tasks task, s.taskKill id ret = { s.inform task ret with tasks := tasks } := by
  unfold taskKill
  split
  · exact Or.inl ⟨s.tasks, rfl⟩
  · next task _ =>
    dsimp only
    split_ifs
    · exact Or.inr ⟨_, task, rfl⟩
    · exact Or.inl ⟨_, rfl⟩

theorem Counts.taskKill (h : s.Counts) (id ret : ℕ) : (s.taskKill id ret).Counts := by
  rcases s.taskKill_cases id ret with ⟨tasks, heq⟩ | ⟨tasks, task, heq⟩
  · rw [heq]
    exact h
  · rw [heq]
    unfold Counts inform at *
    dsimp only
    rw [h, List.length_append, List.length_singleton, Nat.cast_add, Nat.cast_one]

theorem Counts.reap (h : s.Counts) {target : Option KilledInfo} (htarget : ∀ r ∈ target, r ∈ s.dsChildTerminated) :
    (s.reap target).2.Counts := by
  cases target with
  | none => exact h
  | some r =>
    have hr := htarget r rfl
    have hpos := List.length_pos_of_mem hr
    unfold Counts at *
    change s.childrenTerminatedAmnt - 1 = ((s.dsChildTerminated.erase r).length : ℤ)
    rw [h, List.length_erase_of_mem hr]
    omega

theorem mem_of_find {r : KilledInfo} (h : r ∈ s.find pid) : r ∈ s.dsChildTerminated := List.mem_of_find?_eq_some h

theorem Counts.resume (h : s.Counts) (signalsPending : Bool) : (s.resume pid signalsPending).2.Counts := by
  unfold Caller.resume
  split_ifs
  · exact h
  · exact Counts.reap (s := { s with waitingForPid := 0 }) h fun r hr => mem_of_find hr
  · exact h.reap fun r hr => List.mem_of_mem_head? hr

theorem Counts.sleep (h : s.Counts) (events : List Event) : (sleep pid events s).2.Counts := by
  induction events generalizing s with
  | nil => exact h
  | cons event events ih =>
    cases event with
    | signal => exact Counts.resume (s := { s with state := .ready }) h true
    | kill id ret signalsPending =>
      rw [Caller.sleep]
      split_ifs
      · exact (h.taskKill id ret).resume signalsPending
      · exact ih (h.taskKill id ret)

theorem Counts.syscallWait4 (h : s.Counts) (events : List Event) : (s.syscallWait4 pid wnohang events).2.Counts := by
  unfold Caller.syscallWait4
  split_ifs
  · exact h
  · split
    · next target hfind => exact h.reap fun r hr => mem_of_find (by rw [hfind]; exact hr)
    · exact h
  · split
    · next target hfind => exact h.reap fun r hr => mem_of_find (by rw [hfind]; exact hr)
    · exact Counts.sleep (s := { s with waitingForPid := intToSize pid, state := .waitingChildSpecific }) h events
  · exact h
  · exact Counts.sleep (s := { s with state := .waitingChild }) h events
  · exact h.reap fun r hr => List.mem_of_mem_head? hr

theorem Reached.counts (h : Reached currentTask s) : s.Counts := by
  induction h with
  | start tasks => rfl
  | others _ tasks ih => exact ih
  | kill _ id ret ih => exact ih.taskKill id ret
  | wait _ pid wnohang events ih => exact ih.syscallWait4 events

/-! ### The sleep -/

theorem reap_ne_echild (s : Caller) (target : Option KilledInfo) : (s.reap target).1 ≠ .error .echild := by
  cases target <;> simp [Caller.reap]

theorem resume_ne_echild (s : Caller) (signalsPending : Bool) : (s.resume pid signalsPending).1 ≠ .error .echild := by
  unfold Caller.resume
  split_ifs
  · simp
  · exact reap_ne_echild _ _
  · exact reap_ne_echild _ _

/-- A sleep does not end in `ECHILD`. -/
theorem sleep_ne_echild (events : List Event) : (sleep pid events s).1 ≠ .error .echild := by
  induction events generalizing s with
  | nil => simp [Caller.sleep]
  | cons event events ih =>
    cases event with
    | signal => exact resume_ne_echild _ true
    | kill id ret signalsPending =>
      rw [Caller.sleep]
      split_ifs
      · exact resume_ne_echild _ signalsPending
      · exact ih

/-- What a sleeping caller waits for. -/
def Asleep (s : Caller) (pid : ℤ) : Prop :=
  if pid ≠ -1 then s.state = .waitingChildSpecific ∧ s.waitingForPid = intToSize pid else s.state = .waitingChild

/-- A kill that wakes the caller has left the record that it waits for. -/
theorem Asleep.taskKill (h : s.Asleep pid) (id ret : ℕ) :
    if (s.taskKill id ret).state = .ready then
      if pid ≠ -1 then (s.taskKill id ret).find pid ≠ none else (s.taskKill id ret).dsChildTerminated ≠ []
    else (s.taskKill id ret).Asleep pid := by
  unfold Asleep at h
  rcases s.taskKill_cases id ret with ⟨tasks, heq⟩ | ⟨tasks, task, heq⟩
  · rw [heq, if_neg]
    · exact h
    · dsimp only
      split_ifs at h
      · rw [h.1]
        decide
      · rw [h]
        decide
  · rw [heq]
    unfold inform
    by_cases hpid : pid ≠ -1
    · rw [if_pos hpid] at h
      obtain ⟨hstate, hwaiting⟩ := h
      by_cases htask : s.waitingForPid = task.id
      · dsimp only
        rw [if_pos (Or.inr ⟨hstate, htask⟩), if_pos rfl, if_pos hpid, find, Ne, List.find?_eq_none]
        intro hnone
        refine hnone ⟨task.id, ret⟩ (List.mem_append_right _ (List.mem_singleton_self _)) ?_
        rw [beq_iff_eq, ← htask, hwaiting]
      · have hsleeps : ¬(s.state = .waitingChild ∨ s.state = .waitingChildSpecific ∧ s.waitingForPid = task.id) := by
          rw [hstate]
          simp [htask]
        dsimp only
        rw [if_neg hsleeps, if_neg (by rw [hstate]; decide), Asleep, if_pos hpid]
        exact ⟨hstate, hwaiting⟩
    · rw [if_neg hpid] at h
      dsimp only
      rw [if_pos (Or.inl h), if_pos rfl, if_neg hpid]
      exact List.append_ne_nil_of_right_ne_nil _ (List.cons_ne_nil _ _)

/-- The caller is woken for a record only. -/
theorem Asleep.sleep_ne_halt (h : s.Asleep pid) (events : List Event) : (sleep pid events s).1 ≠ .halt := by
  induction events generalizing s with
  | nil => simp [Caller.sleep]
  | cons event events ih =>
    cases event with
    | signal => simp [Caller.sleep, Caller.resume]
    | kill id ret signalsPending =>
      have hkill := h.taskKill id ret
      rw [Caller.sleep]
      by_cases hready : (s.taskKill id ret).state = .ready
      · rw [if_pos hready] at hkill ⊢
        unfold Caller.resume
        split_ifs with hsignals hpid
        · simp
        · rw [if_pos hpid] at hkill
          obtain ⟨r, hr⟩ := Option.ne_none_iff_exists'.mp hkill
          simp [hr, Caller.reap]
        · rw [if_neg hpid] at hkill
          rw [List.head?_eq_some_head hkill]
          simp [Caller.reap]
      · rw [if_neg hready] at hkill ⊢
        exact ih hkill

/-! ### The call -/

/-- `ECHILD` is for a caller without a record and without a ready child. -/
theorem syscallWait4_echild_iff (h : s.Counts) (events : List Event) :
    (s.syscallWait4 pid wnohang events).1 = .error .echild ↔ s.dsChildTerminated = [] ∧ s.amnt = 0 := by
  rw [← h.eq_zero_iff]
  unfold syscallWait4
  split_ifs with hnone hpid hwnohang
  · exact iff_of_true rfl hnone
  · refine iff_of_false ?_ hnone
    split
    · exact reap_ne_echild _ _
    · simp
  · refine iff_of_false ?_ hnone
    split
    · exact reap_ne_echild _ _
    · exact sleep_ne_echild events
  · exact iff_of_false (by simp) hnone
  · exact iff_of_false (sleep_ne_echild events) hnone
  · exact iff_of_false (reap_ne_echild _ _) hnone

theorem syscallWait4_ne_halt (h : s.Counts) (events : List Event) : (s.syscallWait4 pid wnohang events).1 ≠ .halt := by
  have hfound (r : KilledInfo) : (s.reap (some r)).1 ≠ .halt := by simp [reap]
  have hasleep (hpid : pid ≠ -1) :
      Asleep { s with waitingForPid := intToSize pid, state := .waitingChildSpecific } pid := by
    unfold Asleep
    rw [if_pos hpid]
    exact ⟨rfl, rfl⟩
  unfold syscallWait4
  split_ifs with hnone hpid hwnohang hzero hwnohang
  · simp
  · split
    · exact hfound _
    · simp
  · split
    · exact hfound _
    · exact (hasleep hpid).sleep_ne_halt events
  · simp
  · refine Asleep.sleep_ne_halt (s := { s with state := .waitingChild }) ?_ events
    unfold Asleep
    rw [if_neg hpid]
  · rw [h.eq_zero_iff] at hzero
    rw [List.head?_eq_some_head hzero]
    exact hfound _

/-- Whoever gets past the test with a pid that has no record sleeps on it, or returns 0. -/
theorem syscallWait4_stranger (h : s.Counts) (hpid : pid ≠ -1) (hfind : s.find pid = none)
    (hpast : ¬(s.dsChildTerminated = [] ∧ s.amnt = 0)) :
    (s.syscallWait4 pid wnohang []).1 = if wnohang then .nothing else .asleep := by
  rw [← h.eq_zero_iff] at hpast
  rw [syscallWait4, if_neg hpast, if_pos hpid, hfind]
  split_ifs <;> rfl

theorem amnt_eq_zero_iff : s.amnt = 0 ↔ ¬∃ t ∈ s.tasks, t.parent = s.currentTask ∧ t.state = .ready := by
  unfold amnt
  rw [List.countP_eq_zero]
  simp only [decide_eq_true_eq, not_exists, not_and]
  exact forall₂_congr fun t _ => forall_comm

/-- The errors of `wait4` are right if and only if every caller that has a child but no record has
a ready child, and a pid that is neither is asked for only where nothing else can be waited for. -/
theorem waitsWell_iff (h : Reached currentTask s) (pid : ℤ) (wnohang : Bool) :
    s.WaitsWell pid wnohang ↔
      (s.dsChildTerminated = [] → (∃ t, s.Live t) → s.amnt ≠ 0) ∧
      (pid ≠ -1 → (¬∃ t, s.Live t ∧ t.id = intToSize pid) → s.find pid = none →
        s.dsChildTerminated = [] ∧ s.amnt = 0) := by
  have hcounts := h.counts
  constructor
  · intro hwell
    refine ⟨fun hnone hlive hzero => ?_, fun hpid hchild hfind => ?_⟩
    · exact ((hwell.echild []).mp ((syscallWait4_echild_iff hcounts []).mpr ⟨hnone, hzero⟩)).2 hlive
    · by_contra hpast
      obtain ⟨e, he⟩ := hwell.stranger hpid hchild hfind []
      rw [syscallWait4_stranger hcounts hpid hfind hpast] at he
      cases wnohang <;> cases he
  · rintro ⟨hready, hstranger⟩
    have hechild (events : List Event) : (s.syscallWait4 pid wnohang events).1 = .error .echild ↔
        s.dsChildTerminated = [] ∧ ¬∃ t, s.Live t := by
      rw [syscallWait4_echild_iff hcounts]
      refine and_congr_right fun hnone => ⟨fun hzero hlive => hready hnone hlive hzero, fun hlive => ?_⟩
      rw [amnt_eq_zero_iff]
      rintro ⟨t, ht, hparent, hstate⟩
      exact hlive ⟨t, ht, hparent, by rw [hstate]; decide⟩
    refine ⟨hechild, fun hpid hchild hfind events => ?_, syscallWait4_ne_halt hcounts⟩
    exact ⟨.echild, (syscallWait4_echild_iff hcounts events).mpr (hstranger hpid hchild hfind)⟩

/-- A caller with one ready child, waiting for it. -/
theorem waitsWell_ready : WaitsWell ⟨[⟨7, .ready, 1, false⟩], 1, .ready, 0, [], 0⟩ 7 false :=
  (waitsWell_iff (.start _) 7 false).mpr
    ⟨fun _ _ => by decide, fun _ hchild _ => absurd ⟨_, ⟨List.mem_singleton_self _, rfl, by decide⟩, by decide⟩ hchild⟩

/-- The only child is blocked: `ECHILD`, although it is still there. -/
theorem blocked_child_is_missed :
    ¬∀ (s : Caller), Reached s.currentTask s → ∀ (pid : ℤ) (wnohang : Bool), s.WaitsWell pid wnohang := by
  intro h
  have hwell := h ⟨[⟨7, .blocked, 1, false⟩], 1, .ready, 0, [], 0⟩ (.start _) 7 false
  exact ((hwell.echild []).mp (by decide)).2 ⟨⟨7, .blocked, 1, false⟩, List.mem_singleton_self _, rfl, by decide⟩

end Caller

end DualFuse.Multitasking.Children
