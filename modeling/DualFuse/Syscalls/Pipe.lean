import DualFuse.Library.Execution
import DualFuse.Utility.Words

/-! Pipes (`syscalls/pipe.cpp`), on descriptors without `O_NONBLOCK`. Reading and
writing first test whether they have to wait, outside the lock, and then work on the
buffer under the lock. A test that fails is made again, so it leaves everything as it
was. An access outside the 65536 bytes of the buffer, or outside the bytes the caller
gave, is a fault. -/

namespace DualFuse.Syscalls

open Library Utility

abbrev Byte := BitVec 8

def pipeCapacity : ℕ := 65536

structure PipeInfo where
  buf : ℕ → Byte
  assigned : ℕ
  writeFds : ℕ

namespace PipeInfo

/-- `buf[0..assigned)`. -/
def contents (pipe : PipeInfo) : List Byte := (List.range pipe.assigned).map pipe.buf

/-- The loop test of `pipe_write_inner`. -/
def hasRoom (pipe : PipeInfo) (limit : ℕ) : Bool := pipe.assigned + limit ≤ pipeCapacity

/-- The locked section of `pipe_write_inner`. -/
def writeLocked (pipe : PipeInfo) (src : List Byte) (limit : ℕ) : Exec PipeInfo :=
  if pipe.assigned + limit ≤ pipeCapacity ∧ limit ≤ src.length then
    .ok { pipe with
      buf := fun i => if pipe.assigned ≤ i ∧ i < pipe.assigned + limit then src.getD (i - pipe.assigned) 0 else pipe.buf i
      assigned := pipe.assigned + limit }
  else .error .fault

inductive ReadTest where
  | wait | empty | data
  deriving DecidableEq, Repr

/-- The loop test of `pipe_read` and the test after it. -/
def readTest (pipe : PipeInfo) : ReadTest :=
  if pipe.assigned = 0 then if pipe.writeFds = 0 then .empty else .wait else .data

/-- The locked section of `pipe_read`: the bytes returned and the rest moved to the front. -/
def readLocked (pipe : PipeInfo) (limit : ℕ) : Exec (List Byte × PipeInfo) :=
  let toCopy := min pipe.assigned limit
  if toCopy ≤ pipeCapacity then
    .ok ((List.range toCopy).map pipe.buf,
      { pipe with
        buf := fun i => if i < pipeCapacity - toCopy then pipe.buf (toCopy + i) else pipe.buf i
        assigned := pipe.assigned - toCopy })
  else .error .fault

end PipeInfo

/-- A call of `pipe_write` between two calls of `pipe_write_inner`. The chunk number `i`
is `limit / 65536` while the remainder is written. -/
structure WriteCall where
  src : List Byte
  i : ℕ
  cycle : ℕ
  ret : ℤ
  deriving DecidableEq

namespace WriteCall

def pipeWrite (src : List Byte) : WriteCall := ⟨src, 0, 0, 0⟩

def chunks (w : WriteCall) : ℕ := w.src.length / pipeCapacity

def remainder (w : WriteCall) : ℕ := w.src.length % pipeCapacity

/-- What the loop counts `cycle` up to. -/
def goal (w : WriteCall) : ℕ := if w.i < w.chunks then pipeCapacity else w.remainder

/-- The arguments of the next `pipe_write_inner`. -/
def rest (w : WriteCall) : List Byte := w.src.drop (w.i * pipeCapacity + w.cycle)

def limit (w : WriteCall) : ℕ := w.goal - w.cycle

def finished (w : WriteCall) : Bool := w.chunks < w.i || (w.i == w.chunks && w.remainder == 0)

/-- After a call that wrote `written` bytes. -/
def advance (w : WriteCall) (written : ℕ) : WriteCall :=
  if w.cycle + written = w.goal then { w with i := w.i + 1, cycle := 0, ret := wrapInt (w.ret + w.goal) }
  else { w with cycle := w.cycle + written }

end WriteCall

/-- Where a task is. -/
inductive Phase where
  | idle
  | writing (w : WriteCall)
  | roomSeen (w : WriteCall)
  | reading (limit : ℕ)
  | dataSeen (limit : ℕ)
  deriving DecidableEq

def Phase.isRoomSeen : Phase → Bool
  | .roomSeen _ => true
  | _ => false

def Phase.isDataSeen : Phase → Bool
  | .dataSeen _ => true
  | _ => false

/-- A pipe and the tasks that use it. `copied` are the bytes written under the lock in
order, `returned` those returned by reads; `reads` lists the length of each read and
the write ends open when it returned. -/
structure PipeUse (τ : Type) where
  pipe : PipeInfo
  phase : τ → Phase
  copied : List Byte
  returned : List Byte
  reads : List (ℕ × ℕ)

/-- The calls of a task, its next step, and the write ends that duplications and closes
leave. -/
inductive PipeEvent where
  | write (src : List Byte)
  | read (limit : ℕ)
  | proceed
  | writeEnds (count : ℕ)

namespace PipeUse

variable {τ : Type} [DecidableEq τ]

def enter (s : PipeUse τ) (task : τ) (phase : Phase) : PipeUse τ :=
  { s with phase := Function.update s.phase task phase }

@[simp] theorem enter_phase_self (s : PipeUse τ) (task : τ) (phase : Phase) :
    (s.enter task phase).phase task = phase := by simp [enter]

theorem enter_phase_of_ne (s : PipeUse τ) {task u : τ} (hu : u ≠ task) (phase : Phase) :
    (s.enter task phase).phase u = s.phase u := by simp [enter, hu]

theorem enter_phase_eq {s : PipeUse τ} {task u : τ} {phase q : Phase} (h : (s.enter task phase).phase u = q) :
    (u = task ∧ phase = q) ∨ (u ≠ task ∧ s.phase u = q) := by
  by_cases hu : u = task
  · subst hu
    rw [enter_phase_self] at h
    exact .inl ⟨rfl, h⟩
  · rw [enter_phase_of_ne s hu] at h
    exact .inr ⟨hu, h⟩

/-- The next step of a task: a test or a locked section. -/
def proceed (s : PipeUse τ) (task : τ) : Exec (PipeUse τ) :=
  match s.phase task with
  | .idle => .ok s
  | .writing w =>
    if w.finished then .ok (s.enter task .idle)
    else if s.pipe.hasRoom w.limit then .ok (s.enter task (.roomSeen w))
    else .ok s
  | .roomSeen w => do
    let pipe ← s.pipe.writeLocked w.rest w.limit
    .ok { (s.enter task (.writing (w.advance w.limit))) with
      pipe := pipe
      copied := s.copied ++ w.rest.take w.limit }
  | .reading limit =>
    match s.pipe.readTest with
    | .wait => .ok s
    | .empty => .ok { (s.enter task .idle) with reads := (0, s.pipe.writeFds) :: s.reads }
    | .data => .ok (s.enter task (.dataSeen limit))
  | .dataSeen limit => do
    let (out, pipe) ← s.pipe.readLocked limit
    .ok { (s.enter task .idle) with
      pipe := pipe
      returned := s.returned ++ out
      reads := (out.length, s.pipe.writeFds) :: s.reads }

def step (s : PipeUse τ) : τ × PipeEvent → Exec (PipeUse τ)
  | (task, .write src) =>
    if s.phase task = .idle then .ok (s.enter task (.writing (.pipeWrite src))) else .ok s
  | (task, .read limit) =>
    if s.phase task = .idle then .ok (s.enter task (.reading (min limit pipeCapacity))) else .ok s
  | (task, .proceed) => s.proceed task
  | (_, .writeEnds count) => .ok { s with pipe := { s.pipe with writeFds := count } }

/-- Steps of whole calls: a test that succeeds and its locked section are one step. -/
def wholeStep (s : PipeUse τ) : τ × PipeEvent → Exec (PipeUse τ)
  | (task, .proceed) => do
    let s ← s.proceed task
    if (s.phase task).isRoomSeen || (s.phase task).isDataSeen then s.proceed task else .ok s
  | event => s.step event

def start (buf : ℕ → Byte) : PipeUse τ := ⟨⟨buf, 0, 1⟩, fun _ => .idle, [], [], []⟩

end PipeUse

/-! ### The buffer is a queue -/

namespace PipeInfo

theorem map_range_add (f : ℕ → Byte) (m n : ℕ) :
    (List.range (m + n)).map f = (List.range m).map f ++ (List.range n).map fun i => f (m + i) := by
  rw [List.range_add, List.map_append, List.map_map]
  rfl

/-- A write that fits puts its bytes at the end. -/
theorem writeLocked_of_room {pipe : PipeInfo} {src : List Byte} {limit : ℕ} (hroom : pipe.hasRoom limit = true)
    (hsrc : limit ≤ src.length) :
    ∃ pipe', pipe.writeLocked src limit = .ok pipe' ∧ pipe'.contents = pipe.contents ++ src.take limit ∧
      pipe'.assigned = pipe.assigned + limit ∧ pipe'.writeFds = pipe.writeFds := by
  have hfits : pipe.assigned + limit ≤ pipeCapacity := of_decide_eq_true hroom
  refine ⟨_, if_pos ⟨hfits, hsrc⟩, ?_, rfl, rfl⟩
  rw [contents, map_range_add]
  congr 1
  · refine List.map_congr_left fun i hi => ?_
    rw [List.mem_range] at hi
    exact if_neg (by omega)
  · apply List.ext_getElem
    · simp [hsrc]
    · intro i hi hi'
      rw [List.length_map, List.length_range] at hi
      simp only [List.getElem_map, List.getElem_range, List.getElem_take]
      rw [if_pos (by omega), Nat.add_sub_cancel_left, List.getD_eq_getElem?_getD, List.getElem?_eq_getElem (by omega), Option.getD_some]

/-- A read takes its bytes from the front. -/
theorem readLocked_spec {pipe : PipeInfo} (limit : ℕ) (hbound : pipe.assigned ≤ pipeCapacity) :
    ∃ out pipe', pipe.readLocked limit = .ok (out, pipe') ∧ out ++ pipe'.contents = pipe.contents ∧
      out.length = min pipe.assigned limit ∧ pipe'.assigned = pipe.assigned - min pipe.assigned limit ∧
      pipe'.writeFds = pipe.writeFds := by
  have hcopy : min pipe.assigned limit ≤ pipe.assigned := min_le_left _ _
  refine ⟨_, _, if_pos (hcopy.trans hbound), ?_, by simp, rfl, rfl⟩
  have hsplit : pipe.assigned = min pipe.assigned limit + (pipe.assigned - min pipe.assigned limit) := by omega
  have hall : pipe.contents = (List.range (min pipe.assigned limit)).map pipe.buf ++
      (List.range (pipe.assigned - min pipe.assigned limit)).map fun i => pipe.buf (min pipe.assigned limit + i) := by
    rw [contents, ← map_range_add, ← hsplit]
  rw [hall, contents]
  congr 1
  refine List.map_congr_left fun i hi => ?_
  rw [List.mem_range] at hi
  exact if_pos (by dsimp only at hi; omega)

end PipeInfo

namespace WriteCall

/-- Between two inner calls. -/
def Between (w : WriteCall) : Prop := w.cycle = 0

/-- The bytes of the next inner call are bytes of the caller. -/
theorem Between.limit_le {w : WriteCall} (h : w.Between) (hf : w.finished = false) : w.limit ≤ w.rest.length := by
  have hcycle : w.cycle = 0 := h
  have hi : ¬w.chunks < w.i := by
    intro hlt
    simp [finished, hlt] at hf
  rw [rest, List.length_drop, limit, goal, hcycle]
  unfold chunks remainder pipeCapacity at *
  split_ifs <;> omega

/-- A blocking inner call writes all it is given, so one call finishes a chunk. -/
theorem Between.advance {w : WriteCall} (h : w.Between) : (w.advance w.limit).Between := by
  have hcycle : w.cycle = 0 := h
  have hdone : w.cycle + w.limit = w.goal := by
    rw [limit, hcycle]
    omega
  rw [WriteCall.advance, if_pos hdone]
  rfl

end WriteCall

namespace PipeUse

variable {τ : Type} [DecidableEq τ]

/-- What has been returned and what is in the buffer is what was copied in. -/
structure Fifo (s : PipeUse τ) : Prop where
  order : s.returned ++ s.pipe.contents = s.copied
  bound : s.pipe.assigned ≤ pipeCapacity
  writing : ∀ task w, s.phase task = .writing w → w.Between
  roomSeen : ∀ task w, s.phase task = .roomSeen w → w.Between ∧ w.finished = false

theorem Fifo.enter {s : PipeUse τ} (h : s.Fifo) {task : τ} {phase : Phase}
    (hw : ∀ w, phase = .writing w → w.Between) (hr : ∀ w, phase = .roomSeen w → w.Between ∧ w.finished = false) :
    (s.enter task phase).Fifo := by
  refine ⟨h.order, h.bound, fun u w hu => ?_, fun u w hu => ?_⟩
  · rcases enter_phase_eq hu with ⟨-, he⟩ | ⟨-, hu⟩
    · exact hw w he
    · exact h.writing u w hu
  · rcases enter_phase_eq hu with ⟨-, he⟩ | ⟨-, hu⟩
    · exact hr w he
    · exact h.roomSeen u w hu

theorem Fifo.enter_idle {s : PipeUse τ} (h : s.Fifo) (task : τ) : (s.enter task .idle).Fifo :=
  h.enter (fun _ he => (by cases he)) fun _ he => (by cases he)

omit [DecidableEq τ] in
theorem fifo_start (buf : ℕ → Byte) : (start buf : PipeUse τ).Fifo :=
  ⟨rfl, Nat.zero_le _, fun _ _ h => (by cases h), fun _ _ h => (by cases h)⟩

/-- A step keeps the order of the bytes, as long as room that was seen is still there. -/
theorem Fifo.proceed {s : PipeUse τ} (h : s.Fifo) {task : τ}
    (hroom : ∀ w, s.phase task = .roomSeen w → s.pipe.hasRoom w.limit = true) :
    ∃ s', s.proceed task = .ok s' ∧ s'.Fifo := by
  rw [PipeUse.proceed]
  cases hphase : s.phase task with
  | idle => exact ⟨s, rfl, h⟩
  | writing w =>
    have hw := h.writing task w hphase
    dsimp only
    split_ifs with hfinished hlimit
    · exact ⟨_, rfl, h.enter_idle task⟩
    · refine ⟨_, rfl, h.enter (fun _ he => (by cases he)) fun w' he => ?_⟩
      cases he
      exact ⟨hw, Bool.eq_false_iff.mpr hfinished⟩
    · exact ⟨s, rfl, h⟩
  | roomSeen w =>
    obtain ⟨hw, hfinished⟩ := h.roomSeen task w hphase
    have hroom := hroom w hphase
    obtain ⟨pipe', hlocked, hcontents, hassigned, -⟩ := PipeInfo.writeLocked_of_room hroom (hw.limit_le hfinished)
    dsimp only
    rw [hlocked, Exec.ok_bind]
    have hentered : (s.enter task (.writing (w.advance w.limit))).Fifo := by
      refine h.enter (fun w' he => ?_) fun _ he => (by cases he)
      cases he
      exact hw.advance
    refine ⟨_, rfl, ?_, ?_, hentered.writing, hentered.roomSeen⟩
    · show s.returned ++ pipe'.contents = s.copied ++ w.rest.take w.limit
      rw [hcontents, ← h.order, List.append_assoc]
    · show pipe'.assigned ≤ pipeCapacity
      rw [hassigned]
      exact of_decide_eq_true hroom
  | reading limit =>
    dsimp only
    cases s.pipe.readTest with
    | wait => exact ⟨s, rfl, h⟩
    | empty =>
      have hentered := h.enter_idle task
      exact ⟨_, rfl, hentered.order, hentered.bound, hentered.writing, hentered.roomSeen⟩
    | data => exact ⟨_, rfl, h.enter (fun _ he => (by cases he)) fun _ he => (by cases he)⟩
  | dataSeen limit =>
    obtain ⟨out, pipe', hlocked, hcontents, -, hassigned, -⟩ := PipeInfo.readLocked_spec limit h.bound
    dsimp only
    rw [hlocked, Exec.ok_bind]
    have hentered := h.enter_idle task
    refine ⟨_, rfl, ?_, ?_, hentered.writing, hentered.roomSeen⟩
    · show s.returned ++ out ++ pipe'.contents = s.copied
      rw [List.append_assoc, hcontents, h.order]
    · show pipe'.assigned ≤ pipeCapacity
      have := h.bound
      omega

/-- Begins of calls and changes of the write ends leave the buffer alone. -/
theorem Fifo.step {s : PipeUse τ} (h : s.Fifo) (event : τ × PipeEvent)
    (hroom : ∀ w, s.phase event.1 = .roomSeen w → s.pipe.hasRoom w.limit = true) :
    ∃ s', s.step event = .ok s' ∧ s'.Fifo := by
  obtain ⟨task, event⟩ := event
  cases event with
  | write src =>
    rw [PipeUse.step]
    split_ifs
    · refine ⟨_, rfl, h.enter (fun w he => ?_) fun _ he => (by cases he)⟩
      cases he
      rfl
    · exact ⟨s, rfl, h⟩
  | read limit =>
    rw [PipeUse.step]
    split_ifs
    · exact ⟨_, rfl, h.enter (fun _ he => (by cases he)) fun _ he => (by cases he)⟩
    · exact ⟨s, rfl, h⟩
  | proceed => exact h.proceed hroom
  | writeEnds count => exact ⟨_, rfl, h.order, h.bound, h.writing, h.roomSeen⟩

/-! ### Whole calls -/

/-- No task is between a test and its locked section. -/
def Quiet (s : PipeUse τ) : Prop := ∀ task, (s.phase task).isRoomSeen = false ∧ (s.phase task).isDataSeen = false

/-- A step changes the phase of its own task only, and a locked section ends it. -/
theorem proceed_phase {s s' : PipeUse τ} {task : τ} (h : s.proceed task = .ok s') :
    (∀ u, u ≠ task → s'.phase u = s.phase u) ∧
      ((s.phase task).isRoomSeen = true ∨ (s.phase task).isDataSeen = true →
        (s'.phase task).isRoomSeen = false ∧ (s'.phase task).isDataSeen = false) := by
  have henter : ∀ (phase : Phase) u, u ≠ task → (s.enter task phase).phase u = s.phase u := fun phase u hu =>
    s.enter_phase_of_ne hu phase
  have hself : ∀ phase : Phase, (s.enter task phase).phase task = phase := s.enter_phase_self task
  rw [proceed] at h
  cases hphase : s.phase task with
  | idle =>
    rw [hphase] at h
    cases h
    exact ⟨fun _ _ => rfl, fun hseen => absurd hseen (by simp [Phase.isRoomSeen, Phase.isDataSeen])⟩
  | writing w =>
    rw [hphase] at h
    refine ⟨fun u hu => ?_, fun hseen => absurd hseen (by simp [Phase.isRoomSeen, Phase.isDataSeen])⟩
    dsimp only at h
    split_ifs at h
    · cases h
      exact henter _ u hu
    · cases h
      exact henter _ u hu
    · cases h
      rfl
  | roomSeen w =>
    rw [hphase] at h
    obtain ⟨pipe, -, h⟩ := Exec.bind_ok_iff.mp h
    cases h
    exact ⟨henter _, fun _ => by rw [hself]; exact ⟨rfl, rfl⟩⟩
  | reading limit =>
    rw [hphase] at h
    refine ⟨fun u hu => ?_, fun hseen => absurd hseen (by simp [Phase.isRoomSeen, Phase.isDataSeen])⟩
    dsimp only at h
    split at h
    · cases h
      rfl
    · cases h
      exact henter _ u hu
    · cases h
      exact henter _ u hu
  | dataSeen limit =>
    rw [hphase] at h
    obtain ⟨r, -, h⟩ := Exec.bind_ok_iff.mp h
    cases h
    exact ⟨henter _, fun _ => by rw [hself]; exact ⟨rfl, rfl⟩⟩

/-- Room is seen by the test, which leaves the pipe as it is. -/
theorem proceed_sees_room {s s' : PipeUse τ} {task : τ} (h : s.proceed task = .ok s')
    (hseen : (s.phase task).isRoomSeen = false) {w : WriteCall} (hw : s'.phase task = .roomSeen w) :
    s'.pipe.hasRoom w.limit = true := by
  rw [proceed] at h
  cases hphase : s.phase task with
  | idle =>
    rw [hphase] at h
    cases h
    rw [hphase] at hw
    cases hw
  | writing w' =>
    rw [hphase] at h
    dsimp only at h
    split_ifs at h with hfinished hroom
    · cases h
      rw [enter_phase_self] at hw
      cases hw
    · cases h
      rw [enter_phase_self] at hw
      cases hw
      exact hroom
    · cases h
      rw [hphase] at hw
      cases hw
  | roomSeen w' =>
    rw [hphase] at hseen
    cases hseen
  | reading limit =>
    rw [hphase] at h
    dsimp only at h
    split at h
    · cases h
      rw [hphase] at hw
      cases hw
    · cases h
      have hw : (s.enter task .idle).phase task = .roomSeen w := hw
      rw [enter_phase_self] at hw
      cases hw
    · cases h
      rw [enter_phase_self] at hw
      cases hw
  | dataSeen limit =>
    rw [hphase] at h
    obtain ⟨r, -, h⟩ := Exec.bind_ok_iff.mp h
    cases h
    have hw : (s.enter task .idle).phase task = .roomSeen w := hw
    rw [enter_phase_self] at hw
    cases hw

/-- A test that succeeds is followed at once by its locked section. -/
theorem Fifo.wholeProceed {s : PipeUse τ} (h : s.Fifo) (hq : s.Quiet) (task : τ) :
    ∃ s', s.wholeStep (task, .proceed) = .ok s' ∧ s'.Fifo ∧ s'.Quiet := by
  have hnotSeen : ∀ w, s.phase task = .roomSeen w → s.pipe.hasRoom w.limit = true := by
    intro w hw
    have := (hq task).1
    rw [hw] at this
    cases this
  obtain ⟨s₁, hs₁, h₁⟩ := h.proceed hnotSeen
  have hother := (proceed_phase hs₁).1
  rw [wholeStep, hs₁, Exec.ok_bind]
  by_cases hseen : ((s₁.phase task).isRoomSeen || (s₁.phase task).isDataSeen) = true
  · rw [if_pos hseen]
    have hroom : ∀ w, s₁.phase task = .roomSeen w → s₁.pipe.hasRoom w.limit = true := fun w =>
      proceed_sees_room hs₁ (hq task).1
    obtain ⟨s₂, hs₂, h₂⟩ := h₁.proceed hroom
    obtain ⟨hother₂, hself⟩ := proceed_phase hs₂
    refine ⟨s₂, hs₂, h₂, fun u => ?_⟩
    by_cases hu : u = task
    · subst hu
      exact hself (by simpa using hseen)
    · rw [hother₂ u hu, hother u hu]
      exact hq u
  · rw [if_neg hseen]
    refine ⟨s₁, rfl, h₁, fun u => ?_⟩
    by_cases hu : u = task
    · subst hu
      simpa using hseen
    · rw [hother u hu]
      exact hq u

theorem Fifo.wholeStep {s : PipeUse τ} (h : s.Fifo) (hq : s.Quiet) (event : τ × PipeEvent) :
    ∃ s', s.wholeStep event = .ok s' ∧ s'.Fifo ∧ s'.Quiet := by
  obtain ⟨task, event⟩ := event
  have hnotSeen : ∀ w, s.phase task = .roomSeen w → s.pipe.hasRoom w.limit = true := by
    intro w hw
    have := (hq task).1
    rw [hw] at this
    cases this
  have hquiet : ∀ phase : Phase, phase.isRoomSeen = false ∧ phase.isDataSeen = false → (s.enter task phase).Quiet := by
    intro phase hphase u
    rcases enter_phase_eq (rfl : (s.enter task phase).phase u = _) with ⟨-, he⟩ | ⟨-, he⟩
    · exact he ▸ hphase
    · exact he ▸ hq u
  obtain ⟨s', hs', h'⟩ := h.step (task, event) hnotSeen
  cases event with
  | write src =>
    refine ⟨s', hs', h', ?_⟩
    rw [PipeUse.step] at hs'
    split_ifs at hs'
    · cases hs'
      exact hquiet _ ⟨rfl, rfl⟩
    · cases hs'
      exact hq
  | read limit =>
    refine ⟨s', hs', h', ?_⟩
    rw [PipeUse.step] at hs'
    split_ifs at hs'
    · cases hs'
      exact hquiet _ ⟨rfl, rfl⟩
    · cases hs'
      exact hq
  | proceed => exact h.wholeProceed hq task
  | writeEnds count =>
    cases hs'
    exact ⟨_, rfl, h', hq⟩

/-- A pipe is a bounded queue: over every run of whole calls, the bytes returned and
then those in the buffer are the bytes copied in, in order; the buffer never holds
more than it has room for, and no access falls outside it. -/
theorem pipe_runs_fifo (buf : ℕ → Byte) (events : List (τ × PipeEvent)) :
    ∃ s, run wholeStep (start buf) events = .ok s ∧ s.returned ++ s.pipe.contents = s.copied ∧
      s.pipe.assigned ≤ pipeCapacity := by
  have hstep : ∀ (s : PipeUse τ) event, s.Fifo ∧ s.Quiet → ∃ s', s.wholeStep event = .ok s' ∧ s'.Fifo ∧ s'.Quiet :=
    fun s event h => h.1.wholeStep h.2 event
  have hstart : (start buf : PipeUse τ).Fifo ∧ (start buf : PipeUse τ).Quiet := ⟨fifo_start buf, fun _ => ⟨rfl, rfl⟩⟩
  obtain ⟨s, hs, h, -⟩ := run_ok hstep hstart
  exact ⟨s, hs, h.order, h.bound⟩

end PipeUse

end DualFuse.Syscalls
