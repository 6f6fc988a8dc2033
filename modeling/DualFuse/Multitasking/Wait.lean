import DualFuse.Library.Execution
import DualFuse.Utility.Words

/-! Exits of children (`task_kill` of `multitasking/task.cpp`) and the parent's `wait4`
(`syscalls/linux/syscalls_proc.c`), in any order of their steps. The sections under
`LOCK_CHILD_TERM` are not one step: the lock does not exclude anybody. A child in its
section has appended its record and has yet to count it, or to wake the parent. -/

namespace DualFuse.Multitasking

open Library Utility

/-- `KilledInfo`; `serial` tells apart the exits of all children. -/
structure KilledInfo where
  serial : ℕ
  pid : ℕ
  ret : ℕ
  deriving DecidableEq, Repr

inductive TaskState where
  | ready | waitingChild | waitingChildSpecific
  deriving DecidableEq, Repr

/-- Where the parent is in `wait4`. -/
inductive Wait4 where
  | idle
  | searching (pid : ℤ) (nohang : Bool)
  | aboutToWaitFor (pid : ℤ)
  | sleepingFor (pid : ℤ)
  | searchingAgain (pid : ℤ)
  | testing (nohang : Bool)
  | aboutToWait
  | sleeping
  | picking
  | removing (target : Option KilledInfo)
  | removed (target : KilledInfo)
  deriving DecidableEq, Repr

/-- A child in its section: its record is in the list. -/
structure Killing where
  info : KilledInfo
  counted : Bool
  deriving DecidableEq, Repr

/-- What one `wait4` returned, for which exit. -/
structure Report where
  info : KilledInfo
  output : ℤ
  wstatus : ℕ
  deriving DecidableEq, Repr

inductive WaitEvent where
  | wait4 (pid : ℤ) (nohang readyChild : Bool)
  | proceed (signalPending : Bool)
  | kill (pid ret : ℕ)
  | count (serial : ℕ)
  | wake (serial : ℕ)
  deriving DecidableEq, Repr

/-- The parent's fields, the children in their sections, and what happened so far. -/
structure WaitUse where
  dsChildTerminated : List KilledInfo
  childrenTerminatedAmnt : ℤ
  state : TaskState
  waitingForPid : ℕ
  place : Wait4
  killing : List Killing
  exits : List KilledInfo
  reports : List Report
  deriving DecidableEq, Repr

/-- What `wait4` stores for an exit code. -/
def wstatus (ret : ℕ) : ℕ := if ret < 128 then ret % 256 * 256 else (ret - 128) % 256

namespace WaitUse

/-- The search for the record of a child; `int` and `uint64_t` are compared as the latter. -/
def find (s : WaitUse) (pid : ℤ) : Option KilledInfo := s.dsChildTerminated.find? fun r => r.pid == intToSize pid

/-- One step of the parent in `wait4`. While its state is not ready it does not run. -/
def proceed (s : WaitUse) (signalPending : Bool) : Exec WaitUse :=
  match s.place with
  | .idle => .ok s
  | .searching pid nohang =>
    match s.find pid with
    | some target => .ok { s with place := .removing (some target) }
    | none => .ok { s with place := if nohang then .idle else .aboutToWaitFor pid }
  | .aboutToWaitFor pid =>
    .ok { s with waitingForPid := intToSize pid, state := .waitingChildSpecific, place := .sleepingFor pid }
  | .sleepingFor pid =>
    if s.state ≠ .ready then .ok s
    else if signalPending then .ok { s with place := .idle }
    else .ok { s with waitingForPid := 0, place := .searchingAgain pid }
  | .searchingAgain pid => .ok { s with place := .removing (s.find pid) }
  | .testing nohang =>
    if s.childrenTerminatedAmnt = 0 then .ok { s with place := if nohang then .idle else .aboutToWait }
    else .ok { s with place := .picking }
  | .aboutToWait => .ok { s with state := .waitingChild, place := .sleeping }
  | .sleeping =>
    if s.state ≠ .ready then .ok s
    else if signalPending then .ok { s with place := .idle }
    else .ok { s with place := .picking }
  | .picking => .ok { s with place := .removing s.dsChildTerminated.head? }
  | .removing none => .error .halt
  | .removing (some target) =>
    .ok { s with dsChildTerminated := s.dsChildTerminated.erase target, place := .removed target }
  | .removed target =>
    .ok { s with
      childrenTerminatedAmnt := s.childrenTerminatedAmnt - 1
      place := .idle
      reports := ⟨target, wrapInt target.pid, wstatus target.ret⟩ :: s.reports }

/-- The parent is waiting for this child, or for any. -/
def waitsFor (s : WaitUse) (pid : ℕ) : Bool :=
  s.state == .waitingChild || (s.state == .waitingChildSpecific && s.waitingForPid == pid)

def step (s : WaitUse) : WaitEvent → Exec WaitUse
  | .wait4 pid nohang readyChild =>
    if s.place ≠ .idle then .ok s
    else if s.childrenTerminatedAmnt = 0 ∧ readyChild = false then .ok s
    else .ok { s with place := if pid ≠ -1 then .searching pid nohang else .testing nohang }
  | .proceed signalPending => s.proceed signalPending
  | .kill pid ret =>
    let info : KilledInfo := ⟨s.exits.length, pid, ret⟩
    .ok { s with
      dsChildTerminated := s.dsChildTerminated ++ [info]
      killing := ⟨info, false⟩ :: s.killing
      exits := s.exits ++ [info] }
  | .count serial =>
    match s.killing.find? fun k => k.info.serial == serial && !k.counted with
    | none => .ok s
    | some k => .ok { s with
        childrenTerminatedAmnt := s.childrenTerminatedAmnt + 1
        killing := ⟨k.info, true⟩ :: s.killing.erase k }
  | .wake serial =>
    match s.killing.find? fun k => k.info.serial == serial && k.counted with
    | none => .ok s
    | some k => .ok { s with
        state := if s.waitsFor k.info.pid then .ready else s.state
        killing := s.killing.erase k }

def start : WaitUse := ⟨[], 0, .ready, 0, .idle, [], [], []⟩

/-! ### What the runs keep -/

/-- The record between its removal and its report. -/
def held (s : WaitUse) : List KilledInfo :=
  match s.place with
  | .removed target => [target]
  | _ => []

/-- The next step reads or changes the records. -/
def looks (s : WaitUse) : Bool :=
  match s.place with
  | .searching _ _ | .searchingAgain _ | .testing _ | .removing _ => true
  | _ => false

/-- The parent has looked for this child in vain and is about to sleep. -/
def misses (s : WaitUse) (pid : ℕ) : Bool :=
  match s.place with
  | .aboutToWait => true
  | .aboutToWaitFor p => pid == intToSize p
  | _ => false

/-- The condition on a step: no two sections overlap, and no child exits that the
parent is about to miss. -/
def Separate (s : WaitUse) : WaitEvent → Prop
  | .kill pid _ => s.killing = [] ∧ s.held = [] ∧ s.misses pid = false
  | .proceed _ => s.looks = true → s.killing = []
  | .wait4 _ _ _ | .count _ | .wake _ => True

instance Separate.decidable (s : WaitUse) : (event : WaitEvent) → Decidable (s.Separate event)
  | .kill pid _ => inferInstanceAs (Decidable (s.killing = [] ∧ s.held = [] ∧ s.misses pid = false))
  | .proceed _ => inferInstanceAs (Decidable (s.looks = true → s.killing = []))
  | .wait4 _ _ _ | .count _ | .wake _ => isTrue trivial

/-- Outside the sections the counter counts the records; every report is of an exit of
its own, with the status of that exit; and the parent does not sleep on a record that
it waits for unless a child that will wake it is in its section. -/
structure Sound (s : WaitUse) : Prop where
  amount : s.killing = [] → s.held = [] → s.childrenTerminatedAmnt = s.dsChildTerminated.length
  reported : ∀ r ∈ s.reports, s.exits[r.info.serial]? = some r.info ∧ r.output = wrapInt r.info.pid ∧
    r.wstatus = wstatus r.info.ret
  once : (s.reports.map (·.info.serial)).Nodup
  awake : s.state = .waitingChild → s.killing = [] → s.dsChildTerminated = []
  awakeFor : s.state = .waitingChildSpecific → (∀ k ∈ s.killing, k.info.pid ≠ s.waitingForPid) →
    ∀ r ∈ s.dsChildTerminated, r.pid ≠ s.waitingForPid

/-- Every exit is in the list, held, or reported. -/
def accounted (s : WaitUse) : List KilledInfo := s.dsChildTerminated ++ s.held ++ s.reports.map (·.info)

def uncounted (s : WaitUse) : ℕ := s.killing.countP fun k => !k.counted

structure Books (s : WaitUse) : Prop where
  amount : s.childrenTerminatedAmnt + s.uncounted = s.dsChildTerminated.length + s.held.length
  numbered : ∀ (i : ℕ) (info : KilledInfo), s.exits[i]? = some info → info.serial = i
  known : ∀ info ∈ s.accounted, info ∈ s.exits
  once : s.accounted.Nodup
  status : ∀ r ∈ s.reports, r.output = wrapInt r.info.pid ∧ r.wstatus = wstatus r.info.ret

theorem Books.exits_serial {s : WaitUse} (h : s.Books) {info : KilledInfo} (hinfo : info ∈ s.exits) :
    s.exits[info.serial]? = some info := by
  obtain ⟨i, hi⟩ := List.mem_iff_getElem?.mp hinfo
  rw [h.numbered i info hi]
  exact hi

theorem Books.reported_known {s : WaitUse} (h : s.Books) {r : Report} (hr : r ∈ s.reports) : r.info ∈ s.exits :=
  h.known r.info (List.mem_append_right _ (List.mem_map_of_mem hr))

theorem Books.reports_once {s : WaitUse} (h : s.Books) : (s.reports.map (·.info.serial)).Nodup := by
  have hinfos : (s.reports.map (·.info)).Nodup := (List.nodup_append.mp h.once).2.1
  have hserials : s.reports.map (·.info.serial) = (s.reports.map (·.info)).map (·.serial) := by
    rw [List.map_map]
    rfl
  rw [hserials]
  refine hinfos.map_on fun a ha b hb hserial => ?_
  have hknown : ∀ info ∈ s.reports.map (·.info), info ∈ s.exits :=
    fun info hinfo => h.known info (List.mem_append_right _ hinfo)
  have hab := h.exits_serial (hknown a ha)
  rw [hserial, h.exits_serial (hknown b hb)] at hab
  exact (Option.some.inj hab).symm

theorem books_start : start.Books where
  amount := rfl
  numbered := fun _ _ h => (by cases h)
  known := fun _ h => absurd h List.not_mem_nil
  once := List.nodup_nil
  status := fun _ h => absurd h List.not_mem_nil

/-- Steps that move records between the list, the parent's hands and the reports. -/
theorem Books.of_perm {s s' : WaitUse} (h : s.Books) (hperm : s'.accounted.Perm s.accounted)
    (hexits : s'.exits = s.exits)
    (hamount : s'.childrenTerminatedAmnt + s'.uncounted = s'.dsChildTerminated.length + s'.held.length)
    (hstatus : ∀ r ∈ s'.reports, r.output = wrapInt r.info.pid ∧ r.wstatus = wstatus r.info.ret) : s'.Books where
  amount := hamount
  numbered := by
    rw [hexits]
    exact h.numbered
  known := by
    rw [hexits]
    exact fun info hinfo => h.known info (hperm.mem_iff.mp hinfo)
  once := hperm.nodup_iff.mpr h.once
  status := hstatus

/-- Steps that leave the records where they are. -/
theorem Books.of_eq {s s' : WaitUse} (h : s.Books) (hlist : s'.dsChildTerminated = s.dsChildTerminated)
    (hheld : s'.held = s.held) (hreports : s'.reports = s.reports) (hexits : s'.exits = s.exits)
    (hamount : s'.childrenTerminatedAmnt + s'.uncounted = s.childrenTerminatedAmnt + s.uncounted) : s'.Books := by
  have haccounted : s'.accounted = s.accounted := by rw [accounted, hlist, hheld, hreports, accounted]
  refine h.of_perm (by rw [haccounted]) hexits ?_ ?_
  · rw [hamount, hlist, hheld]
    exact h.amount
  · rw [hreports]
    exact h.status

/-- An exit that is not in the books yet is entered. -/
theorem Books.kill {s s' : WaitUse} (h : s.Books) {pid ret : ℕ} (hs' : s.step (.kill pid ret) = .ok s') :
    s'.Books := by
  cases hs'
  have hnew : ∀ info ∈ s.accounted, info ≠ ⟨s.exits.length, pid, ret⟩ := by
    intro info hinfo heq
    have hserial := h.exits_serial (h.known info hinfo)
    rw [heq, List.getElem?_eq_none le_rfl] at hserial
    cases hserial
  have hperm : (s.dsChildTerminated ++ [KilledInfo.mk s.exits.length pid ret] ++ s.held ++
      s.reports.map (·.info)).Perm (⟨s.exits.length, pid, ret⟩ :: s.accounted) := by
    rw [accounted, List.append_assoc, List.append_assoc, List.append_assoc]
    exact List.perm_middle
  constructor
  · have hamount := h.amount
    rw [uncounted] at hamount
    rw [uncounted]
    dsimp only
    rw [List.countP_cons, List.length_append, List.length_singleton]
    change _ = _ + (s.held.length : ℤ)
    simp only [Bool.not_false, if_true, Nat.cast_add, Nat.cast_one]
    linarith
  · intro i info hi
    dsimp only at hi
    rcases lt_trichotomy i s.exits.length with hlt | rfl | hgt
    · rw [List.getElem?_append_left hlt] at hi
      exact h.numbered i info hi
    · rw [List.getElem?_concat_length] at hi
      cases hi
      rfl
    · rw [List.getElem?_eq_none (by simp; omega)] at hi
      cases hi
  · intro info hinfo
    rcases List.mem_cons.mp (hperm.mem_iff.mp hinfo) with rfl | hinfo
    · exact List.mem_append_right _ (List.mem_singleton_self _)
    · exact List.mem_append_left _ (h.known info hinfo)
  · refine hperm.nodup_iff.mpr (List.nodup_cons.mpr ⟨fun hmem => ?_, h.once⟩)
    exact hnew _ hmem rfl
  · exact h.status

/-- What holds at each place of `wait4`. -/
def PlaceKept (s : WaitUse) : Wait4 → Prop
  | .idle | .searching _ _ | .testing _ | .removed _ => True
  | .aboutToWaitFor pid => ∀ r ∈ s.dsChildTerminated, r.pid ≠ intToSize pid
  | .sleepingFor pid =>
    if s.state = .ready then ∃ r ∈ s.dsChildTerminated, r.pid = intToSize pid
    else ∀ r ∈ s.dsChildTerminated, r.pid = intToSize pid → ∃ k ∈ s.killing, k.info.pid = intToSize pid
  | .searchingAgain pid => ∃ r ∈ s.dsChildTerminated, r.pid = intToSize pid
  | .aboutToWait => s.dsChildTerminated = []
  | .sleeping =>
    if s.state = .ready then s.dsChildTerminated ≠ [] else s.dsChildTerminated ≠ [] → s.killing ≠ []
  | .picking => s.dsChildTerminated ≠ []
  | .removing target => ∃ r ∈ s.dsChildTerminated, target = some r

structure Kept (s : WaitUse) : Prop extends s.Books where
  alone : s.killing.length ≤ 1
  listed : ∀ k ∈ s.killing, k.info ∈ s.dsChildTerminated
  asleep : s.state = .waitingChild → s.place = .sleeping
  asleepFor : s.state = .waitingChildSpecific →
    ∃ pid, s.place = .sleepingFor pid ∧ s.waitingForPid = intToSize pid
  place : s.PlaceKept s.place

theorem Kept.sound {s : WaitUse} (h : s.Kept) : s.Sound where
  amount := by
    intro hkilling hheld
    have hamount := h.amount
    rw [uncounted, hkilling, hheld] at hamount
    simpa using hamount
  reported := fun r hr => ⟨h.exits_serial (h.reported_known hr), h.status r hr⟩
  once := h.reports_once
  awake := by
    intro hstate hkilling
    have hplace := h.place
    rw [h.asleep hstate, PlaceKept, if_neg (by rw [hstate]; decide)] at hplace
    by_contra hne
    exact hplace hne hkilling
  awakeFor := by
    intro hstate hkilling r hr hpid
    obtain ⟨pid, hsleeping, hwaiting⟩ := h.asleepFor hstate
    have hplace := h.place
    rw [hsleeping, PlaceKept, if_neg (by rw [hstate]; decide)] at hplace
    obtain ⟨k, hk, hkpid⟩ := hplace r hr (hpid.trans hwaiting)
    exact hkilling k hk (hkpid.trans hwaiting.symm)

theorem kept_start : start.Kept where
  toBooks := books_start
  alone := Nat.zero_le _
  listed := fun _ h => absurd h List.not_mem_nil
  asleep := fun h => (by cases h)
  asleepFor := fun h => (by cases h)
  place := trivial

/-! ### The steps of the parent -/

theorem Kept.ready {s : WaitUse} (h : s.Kept) (hany : s.place ≠ .sleeping)
    (hone : ∀ pid, s.place ≠ .sleepingFor pid) : s.state = .ready := by
  cases hstate : s.state with
  | ready => rfl
  | waitingChild => exact absurd (h.asleep hstate) hany
  | waitingChildSpecific =>
    obtain ⟨pid, hplace, -⟩ := h.asleepFor hstate
    exact absurd hplace (hone pid)

/-- The parent moves on and touches nothing else. -/
theorem Kept.move {s : WaitUse} (h : s.Kept) (hready : s.state = .ready) (hheld : s.held = []) (n : ℕ) (p : Wait4)
    (hp : ∀ target, p ≠ .removed target) (hplace : s.PlaceKept p) :
    ({ s with waitingForPid := n, place := p } : WaitUse).Kept where
  toBooks := by
    refine h.toBooks.of_eq rfl ?_ rfl rfl rfl
    rw [hheld, held]
    split
    next target heq => exact absurd heq (hp target)
    next => rfl
  alone := h.alone
  listed := h.listed
  asleep := fun hstate => absurd (hready.symm.trans hstate) (by decide)
  asleepFor := fun hstate => absurd (hready.symm.trans hstate) (by decide)
  place := hplace

theorem mem_of_find {s : WaitUse} {pid : ℤ} {target : KilledInfo} (h : s.find pid = some target) :
    target ∈ s.dsChildTerminated := List.mem_of_find?_eq_some h

theorem ne_of_find_none {s : WaitUse} {pid : ℤ} (h : s.find pid = none) {r : KilledInfo}
    (hr : r ∈ s.dsChildTerminated) : r.pid ≠ intToSize pid := by
  have := List.find?_eq_none.mp h r hr
  simpa using this

theorem find_of_exists {s : WaitUse} {pid : ℤ} (h : ∃ r ∈ s.dsChildTerminated, r.pid = intToSize pid) :
    ∃ r ∈ s.dsChildTerminated, s.find pid = some r := by
  cases hfind : s.find pid with
  | none =>
    obtain ⟨r, hr, hpid⟩ := h
    exact absurd hpid (ne_of_find_none hfind hr)
  | some target => exact ⟨target, mem_of_find hfind, rfl⟩

/-- The removal of a record that no section is about to change. -/
theorem Kept.remove {s : WaitUse} (h : s.Kept) {target : KilledInfo} (hplace : s.place = .removing (some target))
    (hkilling : s.killing = []) (htarget : target ∈ s.dsChildTerminated) :
    ({ s with dsChildTerminated := s.dsChildTerminated.erase target, place := .removed target } : WaitUse).Kept := by
  have hready := h.ready (by rw [hplace]; exact fun heq => (by cases heq))
    (by rw [hplace]; exact fun _ heq => (by cases heq))
  have hheld : s.held = [] := by rw [held, hplace]
  have hlength := List.length_erase_of_mem htarget
  have hpos := List.length_pos_of_mem htarget
  refine ⟨h.toBooks.of_perm ?_ rfl ?_ h.status, h.alone, ?_, ?_, ?_, trivial⟩
  · have hmoved : (s.dsChildTerminated.erase target ++ [target]).Perm s.dsChildTerminated :=
      (List.perm_append_singleton _ _).trans (List.perm_cons_erase htarget).symm
    have haccounted : s.accounted = s.dsChildTerminated ++ s.reports.map (·.info) := by
      rw [accounted, hheld, List.append_nil]
    rw [haccounted]
    exact hmoved.append_right _
  · have hamount := h.amount
    rw [hheld, List.length_nil] at hamount
    dsimp only
    rw [hlength]
    change s.childrenTerminatedAmnt + (s.uncounted : ℤ) = _ + ((1 : ℕ) : ℤ)
    omega
  · rw [hkilling]
    exact fun k hk => absurd hk List.not_mem_nil
  · exact fun hstate => absurd (hready.symm.trans hstate) (by decide)
  · exact fun hstate => absurd (hready.symm.trans hstate) (by decide)

/-- The end of `wait4`. -/
theorem Kept.report {s : WaitUse} (h : s.Kept) {target : KilledInfo} (hplace : s.place = .removed target) :
    ({ s with
      childrenTerminatedAmnt := s.childrenTerminatedAmnt - 1
      place := .idle
      reports := ⟨target, wrapInt target.pid, wstatus target.ret⟩ :: s.reports } : WaitUse).Kept := by
  have hready := h.ready (by rw [hplace]; exact fun heq => (by cases heq))
    (by rw [hplace]; exact fun _ heq => (by cases heq))
  have hheld : s.held = [target] := by rw [held, hplace]
  refine ⟨h.toBooks.of_perm ?_ rfl ?_ ?_, h.alone, h.listed, ?_, ?_, trivial⟩
  · have haccounted : s.accounted = s.dsChildTerminated ++ ([target] ++ s.reports.map (·.info)) := by
      rw [accounted, hheld, List.append_assoc]
    rw [haccounted]
    change (s.dsChildTerminated ++ [] ++ target :: s.reports.map Report.info).Perm _
    rw [List.append_nil, List.singleton_append]
  · have hamount := h.amount
    rw [hheld, List.length_singleton] at hamount
    change s.childrenTerminatedAmnt - 1 + (s.uncounted : ℤ) = s.dsChildTerminated.length + ((0 : ℕ) : ℤ)
    omega
  · intro r hr
    rcases List.mem_cons.mp hr with rfl | hr
    · exact ⟨by dsimp only, by dsimp only⟩
    · exact h.status r hr
  · exact fun hstate => absurd (hready.symm.trans hstate) (by decide)
  · exact fun hstate => absurd (hready.symm.trans hstate) (by decide)

theorem Kept.proceed {s : WaitUse} (h : s.Kept) {signalPending : Bool} (hsep : s.Separate (.proceed signalPending)) :
    ∃ s', s.proceed signalPending = .ok s' ∧ s'.Kept := by
  have hsep : s.looks = true → s.killing = [] := hsep
  have hplaceKept := h.place
  have hready := h.ready
  rw [WaitUse.proceed]
  rw [looks] at hsep
  cases hplace : s.place with
  | idle => exact ⟨s, rfl, h⟩
  | searching pid nohang =>
    have hready := hready (by simp [hplace]) (by simp [hplace])
    have hheld : s.held = [] := by rw [held, hplace]
    dsimp only
    cases hfind : s.find pid with
    | some target =>
      exact ⟨_, rfl, h.move hready hheld _ (.removing (some target)) (by simp) ⟨target, mem_of_find hfind, rfl⟩⟩
    | none =>
      cases nohang with
      | true => exact ⟨_, rfl, h.move hready hheld _ .idle (by simp) trivial⟩
      | false => exact ⟨_, rfl, h.move hready hheld _ (.aboutToWaitFor pid) (by simp) fun r hr => ne_of_find_none hfind hr⟩
  | aboutToWaitFor pid =>
    rw [hplace] at hplaceKept
    refine ⟨_, rfl, h.toBooks.of_eq rfl (by rw [held, held, hplace]) rfl rfl rfl, h.alone, h.listed,
      fun hstate => (by cases hstate), fun _ => ⟨pid, rfl, rfl⟩, ?_⟩
    rw [PlaceKept, if_neg (by simp)]
    exact fun r hr hpid => absurd hpid (hplaceKept r hr)
  | sleepingFor pid =>
    rw [hplace] at hplaceKept
    have hheld : s.held = [] := by rw [held, hplace]
    by_cases hstate : s.state = .ready
    · rw [PlaceKept, if_pos hstate] at hplaceKept
      dsimp only
      rw [if_neg (not_not_intro hstate)]
      cases signalPending with
      | true => exact ⟨_, rfl, h.move hstate hheld _ .idle (by simp) trivial⟩
      | false => exact ⟨_, rfl, h.move hstate hheld _ (.searchingAgain pid) (by simp) hplaceKept⟩
    · exact ⟨s, if_pos hstate, h⟩
  | searchingAgain pid =>
    have hready := hready (by simp [hplace]) (by simp [hplace])
    have hheld : s.held = [] := by rw [held, hplace]
    rw [hplace] at hplaceKept
    obtain ⟨r, hr, hfind⟩ := find_of_exists hplaceKept
    exact ⟨_, rfl, h.move hready hheld _ (.removing (s.find pid)) (by simp) ⟨r, hr, hfind⟩⟩
  | testing nohang =>
    have hready := hready (by simp [hplace]) (by simp [hplace])
    have hheld : s.held = [] := by rw [held, hplace]
    rw [hplace] at hsep
    have hamount := h.sound.amount (hsep rfl) hheld
    dsimp only
    by_cases hzero : s.childrenTerminatedAmnt = 0
    · have hempty : s.dsChildTerminated = [] := List.length_eq_zero_iff.mp (by omega)
      rw [if_pos hzero]
      cases nohang with
      | true => exact ⟨_, rfl, h.move hready hheld _ .idle (by simp) trivial⟩
      | false => exact ⟨_, rfl, h.move hready hheld _ .aboutToWait (by simp) hempty⟩
    · have hne : s.dsChildTerminated ≠ [] := by
        rintro hempty
        rw [hempty] at hamount
        exact hzero hamount
      rw [if_neg hzero]
      exact ⟨_, rfl, h.move hready hheld _ .picking (by simp) hne⟩
  | aboutToWait =>
    rw [hplace] at hplaceKept
    refine ⟨_, rfl, h.toBooks.of_eq rfl (by rw [held, held, hplace]) rfl rfl rfl, h.alone, h.listed,
      fun _ => rfl, fun hstate => (by cases hstate), ?_⟩
    rw [PlaceKept, if_neg (by simp)]
    exact fun hne => absurd hplaceKept hne
  | sleeping =>
    rw [hplace] at hplaceKept
    have hheld : s.held = [] := by rw [held, hplace]
    by_cases hstate : s.state = .ready
    · rw [PlaceKept, if_pos hstate] at hplaceKept
      dsimp only
      rw [if_neg (not_not_intro hstate)]
      cases signalPending with
      | true => exact ⟨_, rfl, h.move hstate hheld _ .idle (by simp) trivial⟩
      | false => exact ⟨_, rfl, h.move hstate hheld _ .picking (by simp) hplaceKept⟩
    · exact ⟨s, if_pos hstate, h⟩
  | picking =>
    have hready := hready (by simp [hplace]) (by simp [hplace])
    have hheld : s.held = [] := by rw [held, hplace]
    rw [hplace] at hplaceKept
    have hhead := List.head?_eq_some_head hplaceKept
    exact ⟨_, rfl, h.move hready hheld _ (.removing s.dsChildTerminated.head?) (by simp) ⟨_, List.head_mem hplaceKept, hhead⟩⟩
  | removing target =>
    rw [hplace] at hplaceKept hsep
    obtain ⟨r, hr, rfl⟩ := hplaceKept
    exact ⟨_, rfl, h.remove hplace (hsep rfl) hr⟩
  | removed target => exact ⟨_, rfl, h.report hplace⟩

/-! ### The steps of a child -/

theorem Kept.kill {s : WaitUse} (h : s.Kept) {pid ret : ℕ} (hsep : s.Separate (.kill pid ret)) :
    ∃ s', s.step (.kill pid ret) = .ok s' ∧ s'.Kept := by
  obtain ⟨hkilling, -, hmisses⟩ := hsep
  have hplaceKept := h.place
  refine ⟨_, rfl, h.toBooks.kill rfl, ?_, ?_, h.asleep, h.asleepFor, ?_⟩
  · rw [hkilling]
    exact le_rfl
  · rw [hkilling]
    intro k hk
    rw [List.mem_singleton] at hk
    rw [hk]
    exact List.mem_append_right _ (List.mem_singleton_self _)
  · rw [misses] at hmisses
    dsimp only
    cases hplace : s.place with
    | idle | searching _ _ | testing _ | removed _ => exact trivial
    | aboutToWaitFor p =>
      rw [hplace] at hplaceKept hmisses
      intro r hr
      rcases List.mem_append.mp hr with hr | hr
      · exact hplaceKept r hr
      · rw [List.mem_singleton] at hr
        rw [hr]
        simpa using hmisses
    | sleepingFor p =>
      rw [hplace, PlaceKept] at hplaceKept
      rw [PlaceKept]
      split_ifs at hplaceKept ⊢ with hstate
      · obtain ⟨r, hr, hpid⟩ := hplaceKept
        exact ⟨r, List.mem_append_left _ hr, hpid⟩
      · intro r hr hpid
        rcases List.mem_append.mp hr with hr | hr
        · obtain ⟨k, hk, hkpid⟩ := hplaceKept r hr hpid
          exact ⟨k, List.mem_cons_of_mem _ hk, hkpid⟩
        · rw [List.mem_singleton] at hr
          exact ⟨_, List.mem_cons_self, by rw [← hr]; exact hpid⟩
    | searchingAgain p =>
      rw [hplace] at hplaceKept
      obtain ⟨r, hr, hpid⟩ := hplaceKept
      exact ⟨r, List.mem_append_left _ hr, hpid⟩
    | aboutToWait =>
      rw [hplace] at hmisses
      cases hmisses
    | sleeping =>
      rw [PlaceKept]
      split_ifs
      · simp
      · simp
    | picking =>
      rw [PlaceKept]
      simp
    | removing target =>
      rw [hplace] at hplaceKept
      obtain ⟨r, hr, htarget⟩ := hplaceKept
      exact ⟨r, List.mem_append_left _ hr, htarget⟩

/-- There is at most one child in its section. -/
theorem Kept.killing_eq {s : WaitUse} (h : s.Kept) {k : Killing} (hk : k ∈ s.killing) : s.killing = [k] := by
  obtain ⟨k', hk'⟩ := List.length_eq_one_iff.mp (le_antisymm h.alone (List.length_pos_of_mem hk))
  rw [hk', List.mem_singleton] at hk
  rw [hk', hk]

theorem Kept.count {s : WaitUse} (h : s.Kept) (serial : ℕ) : ∃ s', s.step (.count serial) = .ok s' ∧ s'.Kept := by
  rw [WaitUse.step]
  cases hfind : s.killing.find? fun k => k.info.serial == serial && !k.counted with
  | none => exact ⟨s, rfl, h⟩
  | some k =>
    have hkilling := h.killing_eq (List.mem_of_find?_eq_some hfind)
    have hfound := List.find?_some hfind
    have huncounted : (!k.counted) = true := (Bool.and_eq_true_iff.mp hfound).2
    refine ⟨_, rfl, ?_⟩
    rw [hkilling, List.erase_cons_head]
    refine ⟨h.toBooks.of_eq rfl rfl rfl rfl ?_, le_rfl, fun k' hk' => ?_, h.asleep, h.asleepFor, ?_⟩
    · rw [uncounted, uncounted, hkilling]
      simp only [List.countP_cons, List.countP_nil, huncounted, Bool.not_true, Bool.false_eq_true, if_true, if_false]
      omega
    · rw [List.mem_singleton] at hk'
      rw [hk']
      exact h.listed k (by rw [hkilling]; exact List.mem_singleton_self k)
    · have hplaceKept := h.place
      dsimp only
      cases hplace : s.place with
      | sleepingFor p =>
        rw [hplace, PlaceKept, hkilling] at hplaceKept
        rw [PlaceKept]
        simpa using hplaceKept
      | sleeping =>
        rw [hplace, PlaceKept] at hplaceKept
        rw [PlaceKept]
        split_ifs at hplaceKept ⊢
        · exact hplaceKept
        · exact fun _ => List.cons_ne_nil _ _
      | _ =>
        rw [hplace] at hplaceKept
        exact hplaceKept

/-- Whether the test of a child in its section wakes the parent or not, it leaves no
record behind that the parent sleeps on. -/
theorem Kept.wake {s : WaitUse} (h : s.Kept) (serial : ℕ) : ∃ s', s.step (.wake serial) = .ok s' ∧ s'.Kept := by
  rw [WaitUse.step]
  cases hfind : s.killing.find? fun k => k.info.serial == serial && k.counted with
  | none => exact ⟨s, rfl, h⟩
  | some k =>
    have hkilling := h.killing_eq (List.mem_of_find?_eq_some hfind)
    have hfound := List.find?_some hfind
    have hcounted : k.counted = true := (Bool.and_eq_true_iff.mp hfound).2
    have hlisted : k.info ∈ s.dsChildTerminated := h.listed k (by rw [hkilling]; exact List.mem_singleton_self k)
    have hplaceKept := h.place
    have hbooks : ∀ state, ({ s with state := state, killing := [] } : WaitUse).Books := by
      intro state
      refine h.toBooks.of_eq rfl rfl rfl rfl ?_
      rw [uncounted, uncounted, hkilling]
      simp [hcounted]
    have hnobody : ∀ k' ∈ ([] : List Killing), k'.info ∈ s.dsChildTerminated :=
      fun k' hk' => absurd hk' List.not_mem_nil
    refine ⟨_, rfl, ?_⟩
    rw [hkilling, List.erase_cons_head]
    suffices hsleep : (∀ state, state = (if s.waitsFor k.info.pid then .ready else s.state) →
        (state = .waitingChild → s.place = .sleeping) ∧
        (state = .waitingChildSpecific → ∃ pid, s.place = .sleepingFor pid ∧ s.waitingForPid = intToSize pid) ∧
        ({ s with state := state, killing := [] } : WaitUse).PlaceKept s.place) by
      obtain ⟨hany, hone, hkept⟩ := hsleep _ rfl
      exact ⟨hbooks _, Nat.zero_le _, hnobody, hany, hone, hkept⟩
    intro state hnew
    cases hstate : s.state with
    | ready =>
      rw [hstate, ite_self] at hnew
      subst hnew
      refine ⟨fun heq => (by cases heq), fun heq => (by cases heq), ?_⟩
      cases hplace : s.place with
      | sleepingFor p =>
        rw [hplace, PlaceKept, if_pos hstate] at hplaceKept
        rw [PlaceKept, if_pos rfl]
        exact hplaceKept
      | sleeping =>
        rw [hplace, PlaceKept, if_pos hstate] at hplaceKept
        rw [PlaceKept, if_pos rfl]
        exact hplaceKept
      | _ =>
        rw [hplace] at hplaceKept
        exact hplaceKept
    | waitingChild =>
      have hwaits : s.waitsFor k.info.pid = true := by simp [waitsFor, hstate]
      rw [if_pos hwaits] at hnew
      subst hnew
      refine ⟨fun heq => (by cases heq), fun heq => (by cases heq), ?_⟩
      rw [h.asleep hstate, PlaceKept, if_pos rfl]
      exact List.ne_nil_of_mem hlisted
    | waitingChildSpecific =>
      obtain ⟨p, hplace, hwaiting⟩ := h.asleepFor hstate
      by_cases hpid : s.waitingForPid = k.info.pid
      · have hwaits : s.waitsFor k.info.pid = true := by simp [waitsFor, hstate, hpid]
        rw [if_pos hwaits] at hnew
        subst hnew
        refine ⟨fun heq => (by cases heq), fun heq => (by cases heq), ?_⟩
        rw [hplace, PlaceKept, if_pos rfl]
        exact ⟨k.info, hlisted, hpid.symm.trans hwaiting⟩
      · have hwaits : ¬s.waitsFor k.info.pid = true := by simp [waitsFor, hstate, hpid]
        rw [if_neg hwaits, hstate] at hnew
        subst hnew
        refine ⟨fun heq => (by cases heq), fun _ => ⟨p, hplace, hwaiting⟩, ?_⟩
        rw [hplace, PlaceKept, if_neg (by rw [hstate]; decide), hkilling] at hplaceKept
        rw [hplace, PlaceKept, if_neg (by simp)]
        intro r hr hr'
        obtain ⟨k', hk', hkpid⟩ := hplaceKept r hr hr'
        rw [List.mem_singleton] at hk'
        rw [hk'] at hkpid
        exact absurd (hwaiting.trans hkpid.symm) hpid

theorem Kept.step {s : WaitUse} (h : s.Kept) {event : WaitEvent} (hsep : s.Separate event) :
    ∃ s', s.step event = .ok s' ∧ s'.Kept := by
  cases event with
  | wait4 pid nohang readyChild =>
    rw [WaitUse.step]
    by_cases hplace : s.place = .idle
    · have hready := h.ready (by simp [hplace]) (by simp [hplace])
      have hheld : s.held = [] := by rw [held, hplace]
      rw [if_neg (not_not_intro hplace)]
      split_ifs
      · exact ⟨s, rfl, h⟩
      · exact ⟨_, rfl, h.move hready hheld _ (.searching pid nohang) (by simp) trivial⟩
      · exact ⟨_, rfl, h.move hready hheld _ (.testing nohang) (by simp) trivial⟩
    · exact ⟨s, if_pos hplace, h⟩
  | proceed signalPending => exact h.proceed hsep
  | kill pid ret => exact h.kill hsep
  | count serial => exact h.count serial
  | wake serial => exact h.wake serial

/-- In every order of steps in which the sections do not overlap and no child exits that
the parent is about to miss, the parent never halts, reports each exit at most once
and with its status, and does not sleep on a record. -/
theorem wait_runs_sound (events : List WaitEvent) (hsep : Guarded step Separate start events) :
    ∃ s, run step start events = .ok s ∧ s.Sound := by
  obtain ⟨s, hs, h⟩ := run_ok_of_guarded (fun s event h hsep => Kept.step h hsep) kept_start hsep
  exact ⟨s, hs, h.sound⟩

/-- One child exits before the parent looks, one while it sleeps. -/
theorem wait_sample :
    ∃ s, run step start [.kill 7 3, .count 0, .wake 0, .wait4 7 false false, .proceed false, .proceed false,
      .proceed false, .wait4 (-1) false true, .proceed false, .proceed false, .kill 8 137, .count 1, .wake 1,
      .proceed false, .proceed false, .proceed false, .proceed false] = .ok s ∧ s.Sound :=
  wait_runs_sound _ (by decide)

/-- The only child exits between the parent's test and its sleep. -/
theorem wake_lost :
    ∃ s, run step start [.wait4 (-1) false true, .proceed false, .kill 7 3, .count 0, .wake 0, .proceed false] = .ok s ∧
      s.state = .waitingChild ∧ s.killing = [] ∧ s.dsChildTerminated ≠ [] ∧ ¬s.Sound := by
  refine ⟨_, rfl, rfl, rfl, by simp, fun h => ?_⟩
  have := h.awake rfl rfl
  cases this

end WaitUse

end DualFuse.Multitasking
