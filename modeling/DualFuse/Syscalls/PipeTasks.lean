import DualFuse.Syscalls.Pipe

/-! Several tasks on one pipe, in any order of their tests and locked sections. A test
is made outside the lock, so what it saw can be gone when the locked section comes: a
second writer then writes behind the end of the buffer, and a second reader finds it
empty and returns nothing. Neither happens as long as no two writers, and no two
readers, are between test and locked section at the same time. -/

namespace DualFuse.Syscalls

open Library

namespace PipeUse

variable {τ : Type} [DecidableEq τ]

/-- The condition on a step: no other writer is between its test and its locked section
when a writer makes its test, the same for readers, and reads ask for some byte. -/
def Alone (s : PipeUse τ) : τ × PipeEvent → Prop
  | (task, .proceed) =>
    match s.phase task with
    | .writing _ => ∀ u, (s.phase u).isRoomSeen = false
    | .reading _ => ∀ u, (s.phase u).isDataSeen = false
    | _ => True
  | (_, .read limit) => 0 < limit
  | (_, .write _) | (_, .writeEnds _) => True

instance Alone.decidable [Fintype τ] (s : PipeUse τ) : (event : τ × PipeEvent) → Decidable (s.Alone event)
  | (task, .proceed) =>
    match h : s.phase task with
    | .writing _ => decidable_of_iff (∀ u, (s.phase u).isRoomSeen = false) (by rw [Alone, h])
    | .reading _ => decidable_of_iff (∀ u, (s.phase u).isDataSeen = false) (by rw [Alone, h])
    | .idle | .roomSeen _ | .dataSeen _ => isTrue (by rw [Alone, h]; trivial)
  | (_, .read limit) => inferInstanceAs (Decidable (0 < limit))
  | (_, .write _) | (_, .writeEnds _) => isTrue trivial

/-- What was seen is still there, and a read returned nothing only when no write end
was open. -/
structure Sound (s : PipeUse τ) : Prop extends s.Fifo where
  room : ∀ task w, s.phase task = .roomSeen w → s.pipe.hasRoom w.limit = true
  oneRoom : ∀ t u, (s.phase t).isRoomSeen = true → (s.phase u).isRoomSeen = true → t = u
  data : ∀ task limit, s.phase task = .dataSeen limit → 0 < s.pipe.assigned
  oneData : ∀ t u, (s.phase t).isDataSeen = true → (s.phase u).isDataSeen = true → t = u
  asked : ∀ task limit, s.phase task = .reading limit ∨ s.phase task = .dataSeen limit → 0 < limit
  reads : ∀ r ∈ s.reads, r.1 = 0 → r.2 = 0

omit [DecidableEq τ] in
theorem sound_start (buf : ℕ → Byte) : (start buf : PipeUse τ).Sound where
  toFifo := fifo_start buf
  room := fun _ _ h => (by cases h)
  oneRoom := fun _ _ h => (by cases h)
  data := fun _ _ h => (by cases h)
  oneData := fun _ _ h => (by cases h)
  asked := fun _ _ h => (by rcases h with h | h <;> cases h)
  reads := fun _ h => absurd h List.not_mem_nil

theorem isRoomSeen_iff {phase : Phase} : phase.isRoomSeen = true ↔ ∃ w, phase = .roomSeen w := by
  cases phase <;> simp [Phase.isRoomSeen]

theorem isDataSeen_iff {phase : Phase} : phase.isDataSeen = true ↔ ∃ limit, phase = .dataSeen limit := by
  cases phase <;> simp [Phase.isDataSeen]

/-- What has to be shown when one task changes its phase and the pipe may change too. -/
theorem Sound.of_enter {s s' : PipeUse τ} (h : s.Sound) {task : τ} {phase : Phase} (hfifo : s'.Fifo)
    (hphase : s'.phase = (s.enter task phase).phase)
    (hroom : ∀ w, phase = .roomSeen w → s'.pipe.hasRoom w.limit = true ∧ ∀ u, (s.phase u).isRoomSeen = false)
    (hroomOther : ∀ u w, u ≠ task → s.phase u = .roomSeen w → s'.pipe.hasRoom w.limit = true)
    (hdata : ∀ n, phase = .dataSeen n → 0 < s'.pipe.assigned ∧ ∀ u, (s.phase u).isDataSeen = false)
    (hdataOther : ∀ u n, u ≠ task → s.phase u = .dataSeen n → 0 < s'.pipe.assigned)
    (hasked : ∀ n, phase = .reading n ∨ phase = .dataSeen n → 0 < n)
    (hreads : ∀ r ∈ s'.reads, r.1 = 0 → r.2 = 0) : s'.Sound := by
  have hcases : ∀ {u q}, s'.phase u = q → (u = task ∧ phase = q) ∨ (u ≠ task ∧ s.phase u = q) := by
    intro u q hu
    rw [hphase] at hu
    exact enter_phase_eq hu
  refine ⟨hfifo, fun u w hu => ?_, fun t u ht hu => ?_, fun u n hu => ?_, fun t u ht hu => ?_, fun u n hu => ?_, hreads⟩
  · rcases hcases hu with ⟨-, he⟩ | ⟨hne, hu⟩
    · exact (hroom w he).1
    · exact hroomOther u w hne hu
  · obtain ⟨v, hv⟩ := isRoomSeen_iff.mp ht
    obtain ⟨w, hw⟩ := isRoomSeen_iff.mp hu
    rcases hcases hv with ⟨rfl, he⟩ | ⟨-, hv⟩
    · rcases hcases hw with ⟨rfl, -⟩ | ⟨-, hw⟩
      · rfl
      · exact absurd (isRoomSeen_iff.mpr ⟨w, hw⟩) (Bool.eq_false_iff.mp ((hroom v he).2 u))
    · rcases hcases hw with ⟨rfl, he⟩ | ⟨-, hw⟩
      · exact absurd (isRoomSeen_iff.mpr ⟨v, hv⟩) (Bool.eq_false_iff.mp ((hroom w he).2 t))
      · exact h.oneRoom t u (isRoomSeen_iff.mpr ⟨v, hv⟩) (isRoomSeen_iff.mpr ⟨w, hw⟩)
  · rcases hcases hu with ⟨-, he⟩ | ⟨hne, hu⟩
    · exact (hdata n he).1
    · exact hdataOther u n hne hu
  · obtain ⟨v, hv⟩ := isDataSeen_iff.mp ht
    obtain ⟨w, hw⟩ := isDataSeen_iff.mp hu
    rcases hcases hv with ⟨rfl, he⟩ | ⟨-, hv⟩
    · rcases hcases hw with ⟨rfl, -⟩ | ⟨-, hw⟩
      · rfl
      · exact absurd (isDataSeen_iff.mpr ⟨w, hw⟩) (Bool.eq_false_iff.mp ((hdata v he).2 u))
    · rcases hcases hw with ⟨rfl, he⟩ | ⟨-, hw⟩
      · exact absurd (isDataSeen_iff.mpr ⟨v, hv⟩) (Bool.eq_false_iff.mp ((hdata w he).2 t))
      · exact h.oneData t u (isDataSeen_iff.mpr ⟨v, hv⟩) (isDataSeen_iff.mpr ⟨w, hw⟩)
  · rcases hu with hu | hu
    · rcases hcases hu with ⟨-, he⟩ | ⟨-, hu⟩
      · exact hasked n (.inl he)
      · exact h.asked u n (.inl hu)
    · rcases hcases hu with ⟨-, he⟩ | ⟨-, hu⟩
      · exact hasked n (.inr he)
      · exact h.asked u n (.inr hu)

/-- A phase change that leaves the pipe and the reads alone. -/
theorem Sound.enter {s : PipeUse τ} (h : s.Sound) {task : τ} {phase : Phase} (hfifo : (s.enter task phase).Fifo)
    (hroom : ∀ w, phase = .roomSeen w → s.pipe.hasRoom w.limit = true ∧ ∀ u, (s.phase u).isRoomSeen = false)
    (hdata : ∀ n, phase = .dataSeen n → 0 < s.pipe.assigned ∧ ∀ u, (s.phase u).isDataSeen = false)
    (hasked : ∀ n, phase = .reading n ∨ phase = .dataSeen n → 0 < n) : (s.enter task phase).Sound :=
  h.of_enter hfifo rfl hroom (fun u w _ => h.room u w) hdata (fun u n _ => h.data u n) hasked h.reads

theorem Sound.enter_idle {s : PipeUse τ} (h : s.Sound) (task : τ) : (s.enter task .idle).Sound :=
  h.enter (h.toFifo.enter_idle task) (fun _ he => (by cases he)) (fun _ he => (by cases he))
    fun _ he => (by rcases he with he | he <;> cases he)

theorem Sound.proceed {s : PipeUse τ} (h : s.Sound) {task : τ} (halone : s.Alone (task, .proceed)) :
    ∃ s', s.proceed task = .ok s' ∧ s'.Sound := by
  obtain ⟨s', hs', hfifo⟩ := h.toFifo.proceed (h.room task)
  refine ⟨s', hs', ?_⟩
  rw [PipeUse.proceed] at hs'
  rw [Alone] at halone
  cases hphase : s.phase task with
  | idle =>
    rw [hphase] at hs'
    cases hs'
    exact h
  | writing w =>
    rw [hphase] at hs' halone
    dsimp only at hs' halone
    split_ifs at hs' with hfinished hroom
    · cases hs'
      exact h.enter_idle task
    · cases hs'
      refine h.enter hfifo (fun w' he => ?_) (fun _ he => (by cases he)) fun _ he => (by rcases he with he | he <;> cases he)
      cases he
      exact ⟨hroom, halone⟩
    · cases hs'
      exact h
  | roomSeen w =>
    rw [hphase] at hs'
    obtain ⟨pipe', hlocked, hs'⟩ := Exec.bind_ok_iff.mp hs'
    have hself : (s.phase task).isRoomSeen = true := isRoomSeen_iff.mpr ⟨w, hphase⟩
    have hgrown : s.pipe.assigned ≤ pipe'.assigned := by
      rw [PipeInfo.writeLocked] at hlocked
      split_ifs at hlocked
      cases hlocked
      exact Nat.le_add_right _ _
    cases hs'
    refine h.of_enter hfifo rfl (fun _ he => (by cases he)) (fun u v hu hv => ?_) (fun _ he => (by cases he))
      (fun u n _ hu => (h.data u n hu).trans_le hgrown) (fun _ he => (by rcases he with he | he <;> cases he)) h.reads
    -- another writer that has seen room would be this one
    exact absurd (h.oneRoom u task (isRoomSeen_iff.mpr ⟨v, hv⟩) hself) hu
  | reading limit =>
    rw [hphase] at hs' halone
    dsimp only at hs' halone
    cases htest : s.pipe.readTest with
    | wait =>
      rw [htest] at hs'
      cases hs'
      exact h
    | empty =>
      rw [htest] at hs'
      cases hs'
      have hclosed : s.pipe.writeFds = 0 := by
        rw [PipeInfo.readTest] at htest
        split_ifs at htest with _ hfds
        exact hfds
      refine h.of_enter hfifo rfl (fun _ he => (by cases he)) (fun u w _ => h.room u w) (fun _ he => (by cases he))
        (fun u n _ => h.data u n) (fun _ he => (by rcases he with he | he <;> cases he)) fun r hr hzero => ?_
      rcases List.mem_cons.mp hr with rfl | hr
      · exact hclosed
      · exact h.reads r hr hzero
    | data =>
      rw [htest] at hs'
      cases hs'
      have hpos : 0 < s.pipe.assigned := by
        rw [PipeInfo.readTest] at htest
        split_ifs at htest with hzero
        exact Nat.pos_of_ne_zero hzero
      refine h.enter hfifo (fun _ he => (by cases he)) (fun _ _ => ⟨hpos, halone⟩) fun n he => ?_
      rcases he with he | he
      · cases he
      · cases he
        exact h.asked task _ (.inl hphase)
  | dataSeen limit =>
    rw [hphase] at hs'
    obtain ⟨out, pipe', hlocked, -, hlength, hassigned, -⟩ := PipeInfo.readLocked_spec limit h.bound
    dsimp only at hs'
    rw [hlocked, Exec.ok_bind] at hs'
    have hself : (s.phase task).isDataSeen = true := isDataSeen_iff.mpr ⟨limit, hphase⟩
    have hpos := h.data task limit hphase
    have hasked := h.asked task limit (.inr hphase)
    cases hs'
    refine h.of_enter hfifo rfl (fun _ he => (by cases he)) (fun u w _ hw => ?_) (fun _ he => (by cases he))
      (fun u n hu hn => ?_) (fun _ he => (by rcases he with he | he <;> cases he)) fun r hr hzero => ?_
    · have hroom := of_decide_eq_true (h.room u w hw)
      refine decide_eq_true ?_
      dsimp only
      omega
    · exact absurd (h.oneData u task (isDataSeen_iff.mpr ⟨n, hn⟩) hself) hu
    · rcases List.mem_cons.mp hr with rfl | hr
      · dsimp only at hzero
        omega
      · exact h.reads r hr hzero

theorem Sound.step {s : PipeUse τ} (h : s.Sound) {event : τ × PipeEvent} (halone : s.Alone event) :
    ∃ s', s.step event = .ok s' ∧ s'.Sound := by
  obtain ⟨s', hs', hfifo⟩ := h.toFifo.step event (h.room event.1)
  obtain ⟨task, event⟩ := event
  cases event with
  | write src =>
    refine ⟨s', hs', ?_⟩
    rw [PipeUse.step] at hs'
    split_ifs at hs'
    · cases hs'
      exact h.enter hfifo (fun _ he => (by cases he)) (fun _ he => (by cases he))
        fun _ he => (by rcases he with he | he <;> cases he)
    · cases hs'
      exact h
  | read limit =>
    refine ⟨s', hs', ?_⟩
    have hlimit : 0 < limit := halone
    rw [PipeUse.step] at hs'
    split_ifs at hs'
    · cases hs'
      refine h.enter hfifo (fun _ he => (by cases he)) (fun _ he => (by cases he)) fun n he => ?_
      rcases he with he | he
      · cases he
        exact lt_min hlimit (by decide)
      · cases he
    · cases hs'
      exact h
  | proceed => exact h.proceed halone
  | writeEnds count =>
    cases hs'
    exact ⟨_, rfl, hfifo, h.room, h.oneRoom, h.data, h.oneData, h.asked, h.reads⟩

/-- In every order of steps in which writers and readers do not overtake each other the
buffer is not overrun, and a read returns nothing only when no write end is open. -/
theorem pipe_tasks_sound (buf : ℕ → Byte) (events : List (τ × PipeEvent))
    (halone : Guarded step Alone (start buf) events) :
    ∃ s, run step (start buf) events = .ok s ∧ s.pipe.assigned ≤ pipeCapacity ∧
      ∀ r ∈ s.reads, r.1 = 0 → r.2 = 0 := by
  obtain ⟨s, hs, h⟩ := run_ok_of_guarded (fun s event h ha => Sound.step h ha) (sound_start buf) halone
  exact ⟨s, hs, h.bound, h.reads⟩

/-- A writer that waits for a reader, between whose test and locked section it writes. -/
def sampleEvents : List (Fin 2 × PipeEvent) :=
  [(0, .write [1, 2, 3]), (0, .proceed), (0, .proceed), (0, .proceed), (1, .read 2), (1, .proceed), (0, .write [4]),
    (0, .proceed), (1, .proceed), (0, .proceed), (1, .read 9), (1, .proceed), (1, .proceed)]

theorem sampleEvents_sound :
    ∃ s, run step (start (fun _ => 0)) sampleEvents = .ok s ∧ s.pipe.assigned ≤ pipeCapacity ∧
      ∀ r ∈ s.reads, r.1 = 0 → r.2 = 0 :=
  pipe_tasks_sound (fun _ => 0) sampleEvents (by decide +kernel)

def fullWrite : List Byte := List.replicate pipeCapacity 0

theorem fullWrite_call : (WriteCall.pipeWrite fullWrite).finished = false ∧
    (WriteCall.pipeWrite fullWrite).limit = pipeCapacity ∧
    (WriteCall.pipeWrite fullWrite).rest.length = pipeCapacity := by
  have hlength : fullWrite.length = 65536 := List.length_replicate
  simp [WriteCall.pipeWrite, WriteCall.finished, WriteCall.limit, WriteCall.goal, WriteCall.rest, WriteCall.chunks,
    WriteCall.remainder, hlength, pipeCapacity]

/-- Two writers both see the empty buffer, and the second writes behind its end; two
readers both see one byte, and the second returns nothing with the write end open. -/
theorem tests_overtaken :
    run step (start (fun _ => 0) : PipeUse (Fin 2)) [(0, .write fullWrite), (1, .write fullWrite), (0, .proceed),
      (1, .proceed), (0, .proceed), (1, .proceed)] = .error .fault ∧
    ∃ s, run step (start (fun _ => 0) : PipeUse (Fin 3)) [(0, .write [7]), (0, .proceed), (0, .proceed), (1, .read 8),
      (2, .read 8), (1, .proceed), (2, .proceed), (1, .proceed), (2, .proceed)] = .ok s ∧ (0, 1) ∈ s.reads := by
  refine ⟨?_, by decide +kernel⟩
  obtain ⟨hfinished, hlimit, hlength⟩ := fullWrite_call
  generalize hw : WriteCall.pipeWrite fullWrite = w at hfinished hlimit hlength
  have hne : (1 : Fin 2) ≠ 0 := by decide
  simp only [run_cons, step, start, if_true, Exec.ok_bind, enter, Function.update_of_ne hne, hw, proceed,
    Function.update_self, Function.update_of_ne hne.symm, hfinished, hlimit, PipeInfo.hasRoom, Bool.false_eq_true,
    if_false, zero_add, le_refl, decide_true, PipeInfo.writeLocked, hlength, and_self]
  simp [pipeCapacity]

end PipeUse

end DualFuse.Syscalls
